import MachineLang.Proofs.Concatenation
import MachineLang.Proofs.Grouping
import MachineLang.Proofs.Intersection
import MachineLang.Proofs.Iteration
import MachineLang.Proofs.Renumbering
import MachineLang.Proofs.Reversal
import MachineLang.Proofs.Union

/-!
# Machines and their definitions

The operations on machines build their results without the checks of `Machine.new`. These checks
would pass: whatever a sequence of operations makes of machines that definitions describe is such a
machine again (`Derived.isBuilt`). Besides, the definition of such a machine describes just this
machine. It adds the states and the symbols that the machine has already, and lists the transitions
as they are grouped in it, so that grouping them once more changes nothing
(`IsBuilt.new_definition`).
-/

namespace MachineLang.Machine

variable {k : MachineKind} {m other whole : Machine k}

/-! ## Machines that operations make -/

/-- A machine that a sequence of operations makes of machines that definitions describe. -/
inductive Derived : {k : MachineKind} → Machine k → Prop
  /-- A machine that a definition describes. -/
  | new {k : MachineKind} {m : Machine k} (d : Definition k) (h : Machine.new d = .ok m) : Derived m
  /-- The union of two machines. -/
  | union {k : MachineKind} {m other whole : Machine k} (hm : Derived m) (ho : Derived other)
      (h : m.union other = .ok whole) : Derived whole
  /-- The intersection of two automata. -/
  | intersection {m other whole : Machine .finite} (hm : Derived m) (ho : Derived other)
      (h : m.intersection other = .ok whole) : Derived whole
  /-- The concatenation of two automata. -/
  | concatenate {m other whole : Machine .finite} (hm : Derived m) (ho : Derived other)
      (h : m.concatenate other = .ok whole) : Derived whole
  /-- The deterministic automaton of an automaton. -/
  | determinize {m : Machine .finite} (hm : Derived m) : Derived m.determinize
  /-- The complement of an automaton. -/
  | complement {m : Machine .finite} (hm : Derived m) : Derived m.complement
  /-- The star of an automaton. -/
  | star {m : Machine .finite} (hm : Derived m) : Derived m.star
  /-- The reversed automaton. -/
  | reverse {m : Machine .finite} (hm : Derived m) : Derived m.reverse
  /-- A machine under new names. -/
  | reenumerate {k : MachineKind} {m : Machine k} (names : Nat → Option State) (hm : Derived m) :
      Derived (m.reenumerate names)

/-- An operation that refuses different numbers of tapes succeeds with equal ones only. -/
theorem of_sameTapes_bind_eq_ok {α : Type} {next : Except MachineError α} {a : α}
    (h : (do m.sameTapes other; next) = .ok a) : m.tapeCount = other.tapeCount ∧ next = .ok a := by
  unfold sameTapes at h
  split at h
  · next ht => exact ⟨ht, h⟩
  · cases h

/-- A complement is a machine that a definition describes. -/
theorem isBuilt_complement {m : Machine .finite} (hm : m.WellFormed) : m.complement.IsBuilt :=
  hm.isBuilt_build_of_fits rfl hm.fits

/-- Operations make machines that definitions describe: each of the eight ends by building its
result from a definition, so what holds of all machines that are built holds of these. -/
theorem Derived.isBuilt (h : Derived m) : m.IsBuilt := by
  -- By induction on the operations. One that takes two machines gives a result only if they have
  -- the same tapes.
  induction h with
  | new d h => exact ⟨d, h⟩
  | union _ _ h ihm iho =>
    obtain ⟨ht, hwhole⟩ := of_sameTapes_bind_eq_ok h
    injection hwhole with hwhole
    subst hwhole
    exact isBuilt_joined ihm.wellFormed iho.wellFormed ht
  | intersection _ _ h ihm iho =>
    obtain ⟨ht, hwhole⟩ := of_sameTapes_bind_eq_ok h
    injection hwhole with hwhole
    subst hwhole
    exact isBuilt_subsetMachine (isBuilt_joined ihm.wellFormed iho.wellFormed ht).wellFormed
  | concatenate _ _ h ihm iho =>
    obtain ⟨ht, hwhole⟩ := of_sameTapes_bind_eq_ok h
    injection hwhole with hwhole
    subst hwhole
    exact isBuilt_chained ihm.wellFormed iho.wellFormed ht
  | determinize _ ihm => exact isBuilt_subsetMachine ihm.wellFormed
  | complement _ ihm => exact isBuilt_complement ihm.wellFormed
  | star _ ihm => exact isBuilt_star ihm.wellFormed
  | reverse _ ihm => exact isBuilt_reverse ihm.wellFormed
  | reenumerate names _ ihm => exact isBuilt_reenumerate ihm.wellFormed

/-! ## Building a machine once more -/

/-- The transitions of a built machine are grouped as they are listed, so building it once more from
its own definition gives the same choices. -/
theorem choices_definition_build (d : Definition k) :
    (build (build d).definition).choices = (build d).choices := by
  refine SortedMap.ext fun q => ?_
  -- The choices of a state are there if a transition leaves it, in either machine.
  have hleaving : leaving (build d).transitions q = [] ↔ leaving d.transitions q = [] := by
    unfold leaving
    simp only [List.filter_eq_nil_iff, mem_transitions_build]
  have hgrouped : grouped (leaving (build d).transitions q) = grouped
      (leaving d.transitions q) := by
    have hentries : (grouped (leaving (build d).transitions q)).entries =
        (build d).choicesAt q := by
      rw [leaving_transitions, entries_grouped ((tidy_build d).inOrder_choicesAt q)]
    rw [choicesAt_build] at hentries
    exact SortedMap.eq_of_entries hentries
  rw [find?_choices_build, find?_choices_build]
  show (if leaving (build d).transitions q = [] then none
    else some (grouped (leaving (build d).transitions q))) = _
  simp only [hleaving, hgrouped]

/-- A well-formed machine has the states of its definition. -/
theorem WellFormed.states_definition (h : m.WellFormed) :
    (build m.definition).states = m.states := by
  refine SortedSet.ext fun q => ?_
  rw [mem_states_build]
  constructor
  · rintro (rfl | hq | hq | ⟨t, ht, rfl | rfl⟩)
    · exact h.initial_mem
    · exact hq
    · exact h.final_mem q hq
    · exact h.source_mem t ht
    · exact h.target_mem t ht
  · exact fun hq => .inr (.inl hq)

/-- A well-formed machine has the symbols of its definition. -/
theorem WellFormed.alphabet_definition (h : m.WellFormed) :
    (build m.definition).alphabet = m.alphabet :=
  SortedSet.ext fun _ => mem_alphabet_build_of_read h.read_mem h.alphabet_ne

/-- A well-formed machine has the tapes of its definition. -/
theorem WellFormed.tapes_definition (h : m.WellFormed) : (build m.definition).tapes = m.tapes := by
  have htapes : m.tapes ≠ [] := List.ne_nil_of_length_pos h.tapeCount_pos
  show (if m.tapes.isEmpty then [defaultTape] else m.tapes) = m.tapes
  rw [if_neg (by simpa using htapes)]

/-- The definition of a machine that some definition describes is one that describes it. -/
theorem IsBuilt.new_definition (h : m.IsBuilt) : new m.definition = .ok m := by
  have hm := h.wellFormed
  have hchoices : (build m.definition).choices = m.choices := by
    obtain ⟨d, hd⟩ := h
    obtain ⟨rfl, -⟩ := of_new_eq_ok hd
    exact choices_definition_build d
  have hbuild : build m.definition = m := by
    show Machine.mk (build m.definition).choices m.initial m.finals (build m.definition).tapes
      (build m.definition).states (build m.definition).alphabet m.bounded = m
    rw [hchoices, hm.tapes_definition, hm.states_definition, hm.alphabet_definition]
  have hcount : max 1 m.definition.tapes.length = m.tapeCount := Nat.max_eq_right hm.tapeCount_pos
  rw [new_eq_ok (by rw [hcount]; exact hm.fits), hbuild]

/-- The targets of a state and a pattern are listed once. -/
theorem IsBuilt.nodup_targets (h : m.IsBuilt) {q : State} {read : List Symbol}
    {targets : List (Target k)} (hmem : (read, targets) ∈ m.choicesAt q) : targets.Nodup :=
  (h.tidy.inOrder_choicesAt q).nodup _ hmem

end MachineLang.Machine

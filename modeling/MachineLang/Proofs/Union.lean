import MachineLang.Machine.Union
import MachineLang.Proofs.Embedding
import MachineLang.Proofs.Names

/-!
# The verdict of a union

Both machines are embedded in their union, the second one under names that the first one does not
use (`embedding_left`, `embedding_right`). The initial state of the union is new, and its only two
moves lead to the starts of the machines, with tapes that look the same as theirs
(`move_start_iff`). So every computation of the union is one of either machine behind one more move,
and its verdict is positive if one of theirs is, negative if both are, and missing otherwise, one
layer later (`union_testWithin_succ`).
-/

namespace MachineLang

namespace MachineKind

variable {k : MachineKind}

/-- Reading nothing from bounded tapes leaves their heads where they are, so the first move of a
union of such machines changes nothing. -/
theorem skip_epsilon {tapes : List Tape}
    (h : ∀ t ∈ tapes, t.bounded = true ∧ t.head ≤ t.cells.length) (n : Nat) :
    skip (List.replicate n epsilon) tapes = tapes := by
  induction tapes generalizing n with
  | nil => cases n <;> rfl
  | cons t rest ih =>
    obtain ⟨hb, hh⟩ := h t List.mem_cons_self
    cases n with
    | zero => rfl
    | succ n =>
      rw [List.replicate_succ]
      show t.shift 0 :: skip (List.replicate n epsilon) rest = t :: rest
      rw [Tape.shift_zero_of_bounded hb hh, ih fun t ht => h t (List.mem_cons_of_mem _ ht)]

/-- Popping and pushing nothing leaves stacks as they are. -/
theorem replace_epsilon (tapes : List Tape) (n i : Nat) :
    replace (List.replicate n epsilon) (List.replicate i epsilon) tapes = tapes := by
  induction tapes generalizing n i with
  | nil => cases n <;> cases i <;> rfl
  | cons t rest ih =>
    -- Popping the empty word takes nothing off, and pushing it puts nothing on.
    cases n with
    | zero => rfl
    | succ n =>
      cases i with
      | zero => rfl
      | succ i =>
        rw [List.replicate_succ, List.replicate_succ]
        show (t.popFront 0).pushFront [] :: replace (List.replicate n epsilon)
          (List.replicate i epsilon) rest = t :: rest
        rw [ih]
        rfl

/-- Writing nothing and staying leaves unbounded tapes looking the same, although a cell may be
stored below the head. -/
theorem alike_writeAndMove_neutral {tapes : List Tape}
    (h : ∀ t ∈ tapes, t.bounded = false ∧ t.head ≤ t.cells.length) {n : Nat}
    (hn : tapes.length ≤ n) :
    List.Forall₂ Tape.Alike tapes
      (writeAndMove (List.replicate n epsilon) (List.replicate n .stay) tapes) := by
  induction tapes generalizing n with
  | nil => cases n <;> exact .nil
  | cons t rest ih =>
    obtain ⟨hb, hh⟩ := h t List.mem_cons_self
    obtain ⟨n, rfl⟩ : ∃ i, n = i + 1 := ⟨n - 1, by rw [List.length_cons] at hn; omega⟩
    rw [List.replicate_succ, List.replicate_succ]
    refine .cons (Tape.alike_shift_zero hb hh) (ih (fun t ht => h t (List.mem_cons_of_mem _ ht)) ?_)
    rw [List.length_cons] at hn
    omega

end MachineKind

namespace Machine

variable {k : MachineKind} {m other : Machine k}

/-! ## The tapes at the start -/

/-- The heads of the tapes at the start are on their first cells, and the tapes are bounded if those
of the kind are. -/
theorem mem_loadTapes (hb : m.bounded = k.bounded) {inputs : List Word} {t : Tape}
    (h : t ∈ m.loadTapes inputs) : t.bounded = k.bounded ∧ t.head ≤ t.cells.length := by
  obtain ⟨i, -, rfl⟩ := List.mem_map.1 h
  rw [hb]
  cases k <;> exact ⟨rfl, Nat.zero_le _⟩

/-- A move that reads and changes nothing leaves the tapes at the start looking the same. -/
theorem alike_neutral (hb : m.bounded = k.bounded) (inputs : List Word) :
    k.Alike (m.loadTapes inputs)
      (k.act (List.replicate m.tapeCount epsilon) (k.neutral m.tapeCount)
        (m.loadTapes inputs)) := by
  have htapes : ∀ t ∈ m.loadTapes inputs, t.bounded = k.bounded ∧ t.head ≤ t.cells.length :=
    fun t ht => mem_loadTapes hb ht
  have hlength := m.length_loadTapes inputs
  generalize m.loadTapes inputs = tapes at htapes hlength
  generalize m.tapeCount = n at hlength ⊢
  -- Bounded tapes stay as they are; an unbounded one may store the cell of its head.
  cases k with
  | finite => exact (MachineKind.skip_epsilon htapes n).symm
  | turing => exact MachineKind.alike_writeAndMove_neutral htapes (by omega)
  | pushdown =>
    cases tapes with
    | nil => rfl
    | cons input tapes =>
      obtain ⟨hbounded, hhead⟩ := htapes input List.mem_cons_self
      obtain ⟨n, rfl⟩ : ∃ i, n = i + 1 := ⟨n - 1, by rw [List.length_cons] at hlength; omega⟩
      rw [List.replicate_succ]
      show input :: tapes = input.shift 0 :: MachineKind.replace (List.replicate n epsilon)
        (List.replicate (n + 1 - 1) epsilon) tapes
      rw [Tape.shift_zero_of_bounded hbounded hhead, MachineKind.replace_epsilon]

/-! ## The union as a whole -/

/-- The initial state of a union. -/
def unionInitial (m other : Machine k) : State :=
  freshName m.initial (m.states.toList ++ other.states.toList.map (m.apart other).rename)

/-- The union of two machines with equal numbers of tapes. -/
def joined (m other : Machine k) : Machine k := m.unionRenamed other (m.apart other)

/-- Machines with equal numbers of tapes have a union. -/
theorem union_eq_ok (ht : m.tapeCount = other.tapeCount) :
    m.union other = .ok (m.joined other) := by
  unfold union sameTapes
  rw [if_pos ht]
  rfl

/-- The initial state of a union is no state of the first machine. -/
theorem unionInitial_notMem (m other : Machine k) : m.unionInitial other ∉ m.states :=
  fun h => freshName_notMem _ _ (List.mem_append_left _ h)

/-- The initial state of a union is no new name of a state of the second machine. -/
theorem unionInitial_ne_rename {q : State} (hq : q ∈ other.states) :
    m.unionInitial other ≠ (m.apart other).rename q := by
  intro h
  have hmem : m.unionInitial other ∈ other.states.toList.map (m.apart other).rename :=
    List.mem_map.2 ⟨q, hq, h.symm⟩
  exact freshName_notMem _ _ (List.mem_append_right m.states.toList hmem)

/-- The transitions of a union are those of both machines and the two that leave its initial
state. -/
theorem mem_transitions_joined {t : Transition k} :
    t ∈ (m.joined other).transitions ↔
      t ∈ m.transitions ∨
      (∃ s ∈ other.transitions, t = mapTransition (m.apart other).rename s) ∨
      t = m.epsilonTransition (m.unionInitial other) m.initial ∨
      t = m.epsilonTransition (m.unionInitial other) ((m.apart other).rename other.initial) := by
  unfold joined unionRenamed
  rw [mem_transitions_build]
  simp only [List.mem_append, List.mem_map, List.mem_cons, List.not_mem_nil, or_false, or_assoc,
    eq_comm (b := t)]
  rfl

/-- The final states of a union are those of both machines. -/
theorem mem_finals_joined {q : State} :
    q ∈ (m.joined other).finals ↔
      q ∈ m.finals ∨ ∃ p ∈ other.finals, (m.apart other).rename p = q := by
  unfold joined unionRenamed build
  simp only [SortedSet.mem_insertAll, List.mem_map, SortedSet.mem_toList]

/-- The states of a union are its initial one, those of the first machine under their own names and
those of the second one under their new names. -/
theorem mem_states_joined (hm : m.WellFormed) (ho : other.WellFormed) {q : State} :
    q ∈ (m.joined other).states ↔
      q = m.unionInitial other ∨ q ∈ m.states ∨
        ∃ p ∈ other.states, (m.apart other).rename p = q := by
  -- The ends of transitions are no states but these.
  have htransition : ∀ t ∈ (m.joined other).transitions, q = t.source ∨ q = t.target →
      q = m.unionInitial other ∨ q ∈ m.states ∨
        ∃ p ∈ other.states, (m.apart other).rename p = q := by
    intro t ht hq
    rcases mem_transitions_joined.1 ht with ht | ⟨s, hs, rfl⟩ | rfl | rfl
    · rcases hq with rfl | rfl
      · exact .inr (.inl (hm.source_mem t ht))
      · exact .inr (.inl (hm.target_mem t ht))
    · rcases hq with rfl | rfl
      · exact .inr (.inr ⟨_, ho.source_mem s hs, rfl⟩)
      · exact .inr (.inr ⟨_, ho.target_mem s hs, rfl⟩)
    · rcases hq with rfl | rfl
      · exact .inl rfl
      · exact .inr (.inl hm.initial_mem)
    · rcases hq with rfl | rfl
      · exact .inl rfl
      · exact .inr (.inr ⟨_, ho.initial_mem, rfl⟩)
  unfold joined unionRenamed at htransition ⊢
  simp only [mem_transitions_build] at htransition
  rw [mem_states_build]
  simp only [SortedSet.mem_insertAll, List.mem_map, SortedSet.mem_toList]
  constructor
  · rintro (rfl | (h | h) | (h | ⟨p, hp, h⟩) | ⟨t, ht, hq⟩)
    · exact .inl rfl
    · exact .inr (.inl h)
    · exact .inr (.inr h)
    · exact .inr (.inl (hm.final_mem q h))
    · exact .inr (.inr ⟨p, ho.final_mem p hp, h⟩)
    · exact htransition t ht hq
  · rintro (rfl | h | h)
    · exact .inl rfl
    · exact .inr (.inl (.inl h))
    · exact .inr (.inl (.inr h))

/-- A union of well-formed machines has as many tapes as the first one. -/
theorem tapeCount_joined (hm : m.WellFormed) : (m.joined other).tapeCount = m.tapeCount :=
  hm.tapeCount_build_eq rfl

/-- The symbols of a union are those of both machines. -/
theorem mem_alphabet_joined (hm : m.WellFormed) (ho : other.WellFormed) {x : Symbol} :
    x ∈ (m.joined other).alphabet ↔ x ∈ m.alphabet ∨ x ∈ other.alphabet := by
  refine mem_alphabet_build_of_parts hm ho (fun _ => SortedSet.mem_union) fun t ht y hy => ?_
  rcases mem_transitions_joined.1 ht with ht | ⟨s, hs, rfl⟩ | rfl | rfl
  · exact .inr (.inl ⟨t, ht, hy⟩)
  · exact .inr (.inr ⟨s, hs, hy⟩)
  · exact .inl (List.eq_of_mem_replicate hy)
  · exact .inl (List.eq_of_mem_replicate hy)

/-- A union reads with the width of the wider machine. -/
theorem width_joined (hm : m.WellFormed) (ho : other.WellFormed) :
    (m.joined other).width = max m.width other.width :=
  width_eq_max fun _ => mem_alphabet_joined hm ho

/-- The union of well-formed machines with equally many tapes is one that a definition describes, so
all that holds of built machines holds of it. -/
theorem isBuilt_joined (hm : m.WellFormed) (ho : other.WellFormed)
    (ht : m.tapeCount = other.tapeCount) : (m.joined other).IsBuilt := by
  refine hm.isBuilt_build_of_fits rfl fun t hmem => ?_
  simp only [List.mem_append, List.mem_map, List.mem_cons, List.not_mem_nil, or_false,
    or_assoc] at hmem
  rcases hmem with hmem | ⟨s, hs, rfl⟩ | rfl | rfl
  · exact hm.fits t hmem
  · rw [ht]
    exact ho.fits s hs
  · exact hm.fits_epsilonTransition _ _
  · exact hm.fits_epsilonTransition _ _

/-! ## Both machines are part of their union -/

/-- The first machine is part of a union under its own names: no transition of the union but its own
leaves its states, so it computes there as it does alone. -/
theorem embedding_left (hm : m.WellFormed) (ho : other.WellFormed)
    (hw : other.width ≤ m.width) : Embedding m (m.joined other) id where
  width_eq := by
    rw [width_joined hm ho]
    omega
  target_mem := hm.target_mem
  map_mem t ht := mem_transitions_joined.2 (.inl ht)
  -- A transition of the union from an old state is an old one: the others leave a renamed state or
  -- the new one.
  of_mem q hq t ht hsource := by
    rcases mem_transitions_joined.1 ht with ht | ⟨s, hs, rfl⟩ | rfl | rfl
    · exact ⟨t, ht, hsource, rfl⟩
    · have hq' : (m.apart other).rename s.source = q := hsource
      exact absurd (hq' ▸ hq) (rename_apart_notMem (ho.source_mem s hs))
    · have hq' : m.unionInitial other = q := hsource
      exact absurd (hq' ▸ hq) (unionInitial_notMem m other)
    · have hq' : m.unionInitial other = q := hsource
      exact absurd (hq' ▸ hq) (unionInitial_notMem m other)
  final_iff q hq := by
    rw [mem_finals_joined]
    constructor
    · rintro (h | ⟨p, hp, hpq⟩)
      · exact h
      · have hpq' : (m.apart other).rename p = q := hpq
        exact absurd (hpq' ▸ hq) (rename_apart_notMem (ho.final_mem p hp))
    · exact Or.inl

/-- The second machine is part of a union under its new names, which tell its states apart and are
none of the first machine, so it computes there as it does alone. -/
theorem embedding_right (hm : m.WellFormed) (ho : other.WellFormed)
    (hw : m.width ≤ other.width) :
    Embedding other (m.joined other) (m.apart other).rename where
  width_eq := by
    rw [width_joined hm ho]
    omega
  target_mem := ho.target_mem
  map_mem t ht := mem_transitions_joined.2 (.inr (.inl ⟨t, ht, rfl⟩))
  -- A transition of the union from a renamed state is a renamed one, and renaming is injective.
  of_mem q hq t ht hsource := by
    rcases mem_transitions_joined.1 ht with ht | ⟨s, hs, rfl⟩ | rfl | rfl
    · exact absurd (hsource ▸ hm.source_mem t ht) (rename_apart_notMem hq)
    · exact ⟨s, hs, rename_apart_injective (ho.source_mem s hs) hq hsource, rfl⟩
    · exact absurd hsource (unionInitial_ne_rename hq)
    · exact absurd hsource (unionInitial_ne_rename hq)
  final_iff q hq := by
    rw [mem_finals_joined]
    constructor
    · rintro (h | ⟨p, hp, hpq⟩)
      · exact absurd (hm.final_mem _ h) (rename_apart_notMem hq)
      · rwa [← rename_apart_injective (ho.final_mem p hp) hq hpq]
    · exact fun h => .inr ⟨q, h, rfl⟩

/-! ## The first move -/

/-- The tapes of a union behind its first move. -/
def tapesAfterStart (m : Machine k) (inputs : List Word) : List Tape :=
  k.act (List.replicate m.tapeCount epsilon) (k.neutral m.tapeCount) (m.loadTapes inputs)

/-- From its start a union moves to the start of either machine and nowhere else, on the tapes as
they are loaded, since these two moves read nothing. -/
theorem move_start_iff (hm : m.WellFormed) (ho : other.WellFormed) {inputs : List Word}
    {d : Configuration} :
    (m.joined other).Move ((m.joined other).start inputs) d ↔
      d = (m.joined other).configuration m.initial (m.tapesAfterStart inputs) ∨
      d = (m.joined other).configuration ((m.apart other).rename other.initial)
        (m.tapesAfterStart inputs) := by
  have htapes : (m.joined other).loadTapes inputs = m.loadTapes inputs :=
    loadTapes_congr (tapeCount_joined hm) rfl inputs
  have hread : ∀ width, matchesRead false (List.replicate m.tapeCount epsilon)
      (k.read width (m.loadTapes inputs)) = true := fun width =>
    matchesRead_epsilon (by rw [MachineKind.length_read, length_loadTapes])
  have hstart : (m.joined other).start inputs =
      (m.joined other).configuration (m.unionInitial other) (m.loadTapes inputs) := by
    unfold start
    rw [htapes]
    rfl
  rw [hstart]
  constructor
  · intro hd
    -- No transition of either machine leaves the new state.
    obtain ⟨width, -, -, hd, -⟩ := mem_step.1 hd
    obtain ⟨t, ht, hsource, -, rfl⟩ := mem_stepAt.1 hd
    rcases mem_transitions_joined.1 ht with ht | ⟨s, hs, rfl⟩ | rfl | rfl
    · have hinitial : t.source = m.unionInitial other := hsource
      exact absurd (hinitial ▸ hm.source_mem t ht) (unionInitial_notMem m other)
    · exact absurd hsource.symm (unionInitial_ne_rename (ho.source_mem s hs))
    · exact .inl rfl
    · exact .inr rfl
  · have hmove : ∀ target,
        m.epsilonTransition (m.unionInitial other) target ∈ (m.joined other).transitions →
        (m.joined other).Move
          ((m.joined other).configuration (m.unionInitial other) (m.loadTapes inputs))
          ((m.joined other).configuration target (m.tapesAfterStart inputs)) := by
      -- Reading nothing matches for every width, so the largest one decides.
      intro target htarget
      refine mem_step.2 ⟨(m.joined other).width, width_pos _, Nat.le_refl _, ?_, ?_⟩
      · exact mem_stepAt.2 ⟨_, htarget, rfl, hread _, rfl⟩
      · intro wider hlt hle
        omega
    rintro (rfl | rfl)
    · exact hmove _ (mem_transitions_joined.2 (.inr (.inr (.inl rfl))))
    · exact hmove _ (mem_transitions_joined.2 (.inr (.inr (.inr rfl))))

/-- A union does not accept at its start. -/
theorem accepted_start_joined (hm : m.WellFormed) (ho : other.WellFormed) (inputs : List Word) :
    ((m.joined other).start inputs).accepted = false := by
  have hfinal : (m.joined other).finals.contains (m.unionInitial other) = false := by
    rw [← Bool.not_eq_true, SortedSet.contains_iff, mem_finals_joined]
    rintro (h | ⟨p, hp, hpq⟩)
    · exact unionInitial_notMem m other (hm.final_mem _ h)
    · exact unionInitial_ne_rename (ho.final_mem p hp) hpq.symm
  show ((m.joined other).finals.contains (m.unionInitial other) && _) = false
  rw [hfinal, Bool.false_and]

/-- Behind its first move the computation of a union is one from the start of either machine. -/
theorem moves_start_succ_iff (hm : m.WellFormed) (ho : other.WellFormed) {inputs : List Word}
    {n : Nat} {d : Configuration} :
    Moves (m.joined other).Move (n + 1) ((m.joined other).start inputs) d ↔
      Moves (m.joined other).Move n
          ((m.joined other).configuration m.initial (m.tapesAfterStart inputs)) d ∨
        Moves (m.joined other).Move n
          ((m.joined other).configuration ((m.apart other).rename other.initial)
            (m.tapesAfterStart inputs)) d := by
  rw [Moves.succ_iff]
  constructor
  · rintro ⟨c, hc, hmoves⟩
    rcases (move_start_iff hm ho).1 hc with rfl | rfl
    · exact .inl hmoves
    · exact .inr hmoves
  · rintro (hmoves | hmoves)
    · exact ⟨_, (move_start_iff hm ho).2 (.inl rfl), hmoves⟩
    · exact ⟨_, (move_start_iff hm ho).2 (.inr rfl), hmoves⟩

/-! ## The verdict -/

section

variable (hm : m.WellFormed) (ho : other.WellFormed) (ht : m.tapeCount = other.tapeCount)
  (hw : m.width = other.width) (hb : m.bounded = k.bounded) (hb' : other.bounded = k.bounded)
  (inputs : List Word)
include hm ho ht hw hb hb'

/-- The starts of both machines, as their union shows them: each is the configuration of one
machine, on tapes that look like those that are loaded. -/
theorem shows_starts :
    Shows m id (m.start inputs)
        ((m.joined other).configuration m.initial (m.tapesAfterStart inputs)) ∧
      Shows other (m.apart other).rename (other.start inputs)
        ((m.joined other).configuration ((m.apart other).rename other.initial)
          (m.tapesAfterStart inputs)) := by
  have halike : k.Alike (m.loadTapes inputs) (m.tapesAfterStart inputs) := alike_neutral hb inputs
  have hload : other.loadTapes inputs = m.loadTapes inputs :=
    loadTapes_congr ht.symm (by rw [hb, hb']) inputs
  constructor
  · exact (embedding_left hm ho (by omega)).shows_configuration hm.initial_mem halike
  · refine (embedding_right hm ho (by omega)).shows_configuration ho.initial_mem ?_
    rw [hload]
    exact halike

/-- A union accepts within one move more than either machine: the first move leads to one of their
starts, and there the machine goes on as it does alone. -/
theorem acceptsWithin_joined_succ_iff (limit : Nat) :
    (m.joined other).AcceptsWithin (limit + 1) ((m.joined other).start inputs) ↔
      m.AcceptsWithin limit (m.start inputs) ∨
        other.AcceptsWithin limit (other.start inputs) := by
  obtain ⟨hleft, hright⟩ := shows_starts hm ho ht hw hb hb' inputs
  rw [(embedding_left hm ho (by omega)).acceptsWithin_iff hleft,
    (embedding_right hm ho (by omega)).acceptsWithin_iff hright]
  constructor
  · rintro ⟨n, hn, d, hmoves, hd⟩
    cases n with
    | zero =>
      -- The union does not accept before its first move.
      obtain rfl := Moves.zero_iff.1 hmoves
      rw [accepted_start_joined hm ho inputs] at hd
      simp at hd
    | succ n =>
      rcases (moves_start_succ_iff hm ho).1 hmoves with hmoves | hmoves
      · exact .inl ⟨n, by omega, d, hmoves, hd⟩
      · exact .inr ⟨n, by omega, d, hmoves, hd⟩
  · rintro (⟨n, hn, d, hmoves, hd⟩ | ⟨n, hn, d, hmoves, hd⟩)
    · exact ⟨n + 1, by omega, d, (moves_start_succ_iff hm ho).2 (.inl hmoves), hd⟩
    · exact ⟨n + 1, by omega, d, (moves_start_succ_iff hm ho).2 (.inr hmoves), hd⟩

/-- A union goes on for one move more than either machine. -/
theorem goesOn_joined_succ_iff (n : Nat) :
    (m.joined other).GoesOn (n + 1) ((m.joined other).start inputs) ↔
      m.GoesOn n (m.start inputs) ∨ other.GoesOn n (other.start inputs) := by
  obtain ⟨hleft, hright⟩ := shows_starts hm ho ht hw hb hb' inputs
  rw [(embedding_left hm ho (by omega)).goesOn_iff hleft,
    (embedding_right hm ho (by omega)).goesOn_iff hright]
  unfold GoesOn
  simp only [moves_start_succ_iff hm ho, exists_or]

end

/-- The verdict of a union, one layer later, is the three-valued "or" of the verdicts of both
machines: positive if one of them is, negative if both are, and missing otherwise. Whatever names of
states the machines share does not matter. -/
theorem union_testWithin_succ (m other : Machine k) (hm : m.IsBuilt) (ho : other.IsBuilt)
    (ht : m.tapeCount = other.tapeCount) (hw : m.width = other.width)
    (hb : m.bounded = k.bounded) (hb' : other.bounded = k.bounded) :
    ∃ both, m.union other = .ok both ∧ both.IsBuilt ∧
      ∀ inputs : List Word, inputs.length ≤ m.tapeCount → ∀ limit, ∃ first second verdict,
        m.testWithin inputs limit = .ok first ∧
        other.testWithin inputs limit = .ok second ∧
        both.testWithin inputs (limit + 1) = .ok verdict ∧
        (verdict = some true ↔ first = some true ∨ second = some true) ∧
        (verdict = some false ↔ first = some false ∧ second = some false) ∧
        (verdict = none ↔
          ¬ (first = some true ∨ second = some true) ∧
            ¬ (first = some false ∧ second = some false)) := by
  have hmw := hm.wellFormed
  have how := ho.wellFormed
  refine ⟨m.joined other, union_eq_ok ht, isBuilt_joined hmw how ht, fun inputs hlength limit => ?_⟩
  have hlength' : inputs.length ≤ (m.joined other).tapeCount := by rwa [tapeCount_joined hmw]
  -- The first move of the union goes into both machines, so it accepts and goes on one layer later
  -- than either of them.
  have haccept := acceptsWithin_joined_succ_iff hmw how ht hw hb hb' inputs limit
  have hgoes := goesOn_joined_succ_iff hmw how ht hw hb hb' inputs limit
  refine ⟨_, _, _, testWithin_eq hlength limit, testWithin_eq (ht ▸ hlength) limit,
    testWithin_eq hlength' (limit + 1), ?_, ?_, ?_⟩
  · rw [verdict_eq_true_iff, verdict_eq_true_iff, verdict_eq_true_iff, haccept]
  · rw [verdict_eq_false_iff, verdict_eq_false_iff, verdict_eq_false_iff, haccept, hgoes]
    tauto
  · rw [verdict_eq_none_iff, verdict_eq_true_iff, verdict_eq_true_iff, verdict_eq_false_iff,
      verdict_eq_false_iff, haccept, hgoes]
    tauto

/-- A Turing machine that runs over a word of letters "a" and writes a letter behind it. -/
def marking : Machine .turing :=
  build {
    transitions := [⟨"scan", [['a']], "scan", ⟨[epsilon], [.right]⟩⟩,
      ⟨"scan", [blank], "done", ⟨[['b']], [.left]⟩⟩]
    initial := "scan"
    finals := .single "done"
    bounded := false }

/-- A Turing machine that runs to the left for ever, from a state with the same name. -/
def escaping : Machine .turing :=
  build {
    transitions := [⟨"scan", [['b']], "scan", ⟨[epsilon], [.stay]⟩⟩,
      ⟨"scan", [epsilon], "scan", ⟨[epsilon], [.left]⟩⟩]
    initial := "scan"
    bounded := false }

/-- The union of the two accepts the empty tape three layers deep, one layer later than the first
machine, and is undecided on a word that only the second one goes on with. -/
theorem union_marking_escaping :
    marking.IsBuilt ∧ escaping.IsBuilt ∧ marking.tapeCount = escaping.tapeCount ∧
      marking.width = escaping.width ∧ marking.bounded = MachineKind.turing.bounded ∧
      escaping.bounded = MachineKind.turing.bounded ∧
      ∃ both, marking.union escaping = .ok both ∧
        both.testWithin [[]] 3 = .ok (some true) ∧ both.testWithin [['b']] 4 = .ok none := by
  have hmarking : marking.IsBuilt := isBuilt_build (by decide)
  have hescaping : escaping.IsBuilt := isBuilt_build (by decide)
  have hwidth : marking.width = escaping.width := by decide +kernel
  obtain ⟨both, hboth, -, hverdicts⟩ :=
    union_testWithin_succ marking escaping hmarking hescaping rfl hwidth rfl rfl
  -- The verdicts of both machines are evaluated; the theorem puts them together.
  have hfound : marking.testWithin [[]] 2 = .ok (some true) := by decide +kernel
  have hdies : marking.testWithin [['b']] 3 = .ok (some false) := by decide +kernel
  have hopen : escaping.testWithin [['b']] 3 = .ok none := by decide +kernel
  refine ⟨hmarking, hescaping, rfl, hwidth, rfl, rfl, both, hboth, ?_, ?_⟩
  · obtain ⟨first, second, verdict, hfirst, -, hverdict, htrue, -, -⟩ :=
      hverdicts [[]] (Nat.le_refl 1) 2
    rw [hfound] at hfirst
    have hpositive : first = some true := by injection hfirst with h; exact h.symm
    rw [hverdict, htrue.2 (.inl hpositive)]
  · obtain ⟨first, second, verdict, hfirst, hsecond, hverdict, -, -, hnone⟩ :=
      hverdicts [['b']] (Nat.le_refl 1) 3
    rw [hdies] at hfirst
    rw [hopen] at hsecond
    have hnegative : first = some false := by injection hfirst with h; exact h.symm
    have hmissing : second = none := by injection hsecond with h; exact h.symm
    rw [hverdict, hnone.2 (by simp [hnegative, hmissing])]

end Machine

end MachineLang

import MachineLang.Machine.Reach
import MachineLang.Proofs.Discovery
import MachineLang.Proofs.Paths

/-!
# Reachable states

The search for the states that can be reached from a state stops after as many steps as there are
transitions, and one more. No other states than the first one and the targets of the transitions can
be found, so nothing is missed (`mem_reachable_iff`). The closure of a state of a textbook automaton
holds the ends of the paths that read nothing (`IsTextbook.mem_closure_iff`).
-/

namespace MachineLang

namespace Machine

section

variable {k : MachineKind} {m : Machine k} {p q : State} {symbol : Option Symbol}

/-- The states that are one transition away are the targets of the transitions that count: all that
leave the state, or only those that read a given symbol on every tape. -/
theorem mem_neighbours_iff :
    q ∈ m.neighbours symbol p ↔
      ∃ t ∈ m.transitions, t.source = p ∧ t.target = q ∧
        ∀ x ∈ symbol, t.read = List.replicate m.tapeCount x := by
  -- A transition counts if it reads the symbol on every tape, or in any case if none is given.
  have hcounts : ∀ read : List Symbol,
      (symbol.all fun x => matchesRead true read (List.replicate m.tapeCount x)) = true ↔
        ∀ x ∈ symbol, read = List.replicate m.tapeCount x := by
    intro read
    cases symbol with
    | none => simp
    | some x => simp [matchesRead_literal_iff]
  unfold neighbours
  rw [List.mem_flatMap]
  constructor
  · rintro ⟨⟨read, targets⟩, hchoice, hq⟩
    dsimp only at hq
    split at hq
    · next hread =>
      obtain ⟨target, htarget, rfl⟩ := List.mem_map.1 hq
      exact ⟨⟨p, read, target.state, target.action⟩,
        mem_transitions_iff.2 ⟨targets, hchoice, htarget⟩, rfl, rfl, (hcounts read).1 hread⟩
    · simp at hq
  · rintro ⟨t, ht, rfl, rfl, hread⟩
    obtain ⟨targets, hchoice, htarget⟩ := mem_transitions_iff.1 ht
    refine ⟨(t.read, targets), hchoice, ?_⟩
    dsimp only
    rw [if_pos ((hcounts t.read).2 hread)]
    exact List.mem_map_of_mem htarget

/-- A state is reachable if some number of transitions that count leads there, since there are
enough steps to find all states of the machine. -/
theorem mem_reachable_iff :
    q ∈ m.reachable p symbol ↔
      Relation.ReflTransGen (fun p q => q ∈ m.neighbours symbol p) p q := by
  unfold reachable reachableInOrder
  rw [SortedSet.mem_ofList]
  have horigin : p ∈ p :: m.transitions.map Transition.target := List.mem_cons_self
  refine mem_discover_id_iff horigin (fun r q hq => ?_) ?_
  · obtain ⟨t, ht, -, rfl, -⟩ := mem_neighbours_iff.1 hq
    exact List.mem_cons_of_mem _ (List.mem_map_of_mem ht)
  · rw [List.length_cons, List.length_map]
    exact Nat.le_refl _

end

variable {m : Machine .finite} {p q r : State}

/-- A state of an automaton with one tape is one empty read away. -/
theorem mem_neighbours_epsilon_iff (h : m.tapeCount = 1) :
    q ∈ m.neighbours (some epsilon) p ↔ m.Reads p epsilon q := by
  rw [mem_neighbours_iff]
  -- With one tape, a pattern of empty words is the pattern of one empty word.
  constructor
  · rintro ⟨⟨source, read, target, action⟩, ht, rfl, rfl, hread⟩
    have hempty : read = List.replicate m.tapeCount epsilon := hread epsilon rfl
    rw [h] at hempty
    subst hempty
    exact ht
  · intro hread
    refine ⟨_, hread, rfl, rfl, fun x hx => ?_⟩
    obtain rfl : epsilon = x := by simpa using hx
    rw [h]
    rfl

/-- A path that reads nothing is made of transitions that read nothing, so it is one along the
neighbours for the empty symbol. -/
theorem path_nil_iff :
    m.Path p [] q ↔ Relation.ReflTransGen (fun p q => m.Reads p epsilon q) p q := by
  constructor
  · -- The empty word is not a term that the induction may vary, so it is named first.
    intro hpath
    generalize hword : [] = word at hpath
    induction hpath with
    | refl q => exact .refl
    | step hread _ ih =>
      obtain ⟨rfl, rfl⟩ := List.append_eq_nil_iff.1 hword.symm
      exact .head hread (ih rfl)
  · intro hpath
    induction hpath with
    | refl => exact .refl p
    | tail _ hread ih => exact ih.append (.single hread)

/-- The closure of a state of an automaton with one tape holds the ends of the paths that read
nothing. -/
theorem mem_closure_iff (h : m.tapeCount = 1) : q ∈ m.closure p ↔ m.Path p [] q := by
  unfold closure
  rw [mem_reachable_iff, path_nil_iff]
  simp only [mem_neighbours_epsilon_iff h]

/-- The closure of a state holds the ends of the paths that read nothing. -/
theorem IsTextbook.mem_closure_iff (h : m.IsTextbook) : q ∈ m.closure p ↔ m.Path p [] q :=
  Machine.mem_closure_iff h.tapeCount_eq

end Machine

end MachineLang

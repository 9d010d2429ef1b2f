import MachineLang.Machine.Analysis
import MachineLang.Proofs.Reach

/-!
# Findings about the graph of a machine

The states that are reported as unreachable are those to which no path of transitions leads from the
initial state, and the dead ones are those from which none leads to a final state
(`mem_unreachableStates_iff`, `mem_deadStates_iff`). A path of transitions takes no notice of the
tapes, and a move of a machine of any kind takes a transition (`leadsTo_of_moves`). So what the
graph excludes no computation does: none is ever in an unreachable state, and none accepts from a
dead state on (`unreachable_and_dead_states`).
-/

namespace MachineLang.Machine

variable {k : MachineKind} {m : Machine k} {p q : State} {c d : Configuration}

/-! ## Paths in the graph -/

/-- Some transition leads from one state to another. -/
def Linked (m : Machine k) (p q : State) : Prop := ∃ t ∈ m.transitions, t.source = p ∧ t.target = q

/-- A path of transitions leads from one state to another; every state leads to itself. -/
def LeadsTo (m : Machine k) (p q : State) : Prop := Relation.ReflTransGen m.Linked p q

/-- The states that are found from a state are those that it leads to. -/
theorem mem_reachable_none_iff : q ∈ m.reachable p none ↔ m.LeadsTo p q := by
  rw [mem_reachable_iff]
  unfold LeadsTo Linked
  simp only [mem_neighbours_iff, Option.not_mem_none, IsEmpty.forall_iff, implies_true, and_true]

/-- A list has exactly the states with a property, in increasing order. -/
structure Lists (P : State → Prop) (states : List State) : Prop where
  /-- Each state is smaller than those behind it. -/
  sorted : states.Pairwise fun p q => compare p q = .lt
  /-- The states are those with the property. -/
  mem_iff : ∀ q, q ∈ states ↔ P q

/-- The unreachable states are those to which nothing leads from the initial one. -/
theorem lists_unreachableStates (m : Machine k) :
    Lists (fun q => q ∈ m.states ∧ ¬ m.LeadsTo m.initial q) m.unreachableStates where
  sorted := (m.states.difference _).sorted
  mem_iff q := by
    unfold unreachableStates SortedSet.difference
    rw [SortedSet.mem_toList, SortedSet.mem_filter, ← mem_reachable_none_iff, Bool.not_eq_true',
      ← Bool.not_eq_true, SortedSet.contains_iff]

/-- The dead states are those that lead to no final one. -/
theorem lists_deadStates (m : Machine k) :
    Lists (fun q => q ∈ m.states ∧ ¬ ∃ f ∈ m.finals, m.LeadsTo q f) m.deadStates where
  sorted := m.states.sorted.filter _
  mem_iff q := by
    unfold deadStates
    rw [List.mem_filter, SortedSet.mem_toList, ← Bool.not_eq_false,
      SortedSet.isDisjoint_eq_false_iff]
    simp only [mem_reachable_none_iff, and_comm]

/-! ## What is reported -/

/-- The finding about unreachable states lists them, if there are any. -/
theorem unreachable_mem_analyze_iff {states : List State} :
    .unreachable states ∈ m.analyze ↔ states = m.unreachableStates ∧ states ≠ [] := by
  unfold analyze findingAbout
  simp only [List.mem_append, List.mem_ite_nil_left, List.mem_ite_nil_right, List.mem_singleton,
    reduceCtorEq, and_false, false_or, or_false, Finding.unreachable.injEq, List.isEmpty_iff]
  constructor
  · rintro ⟨hne, rfl⟩
    exact ⟨rfl, hne⟩
  · rintro ⟨rfl, hne⟩
    exact ⟨hne, rfl⟩

/-- The finding about dead states lists them, if there are any and the machine has final states. -/
theorem dead_mem_analyze_iff {states : List State} :
    .dead states ∈ m.analyze ↔ states = m.deadStates ∧ states ≠ [] ∧ ∃ f, f ∈ m.finals := by
  have hfinals : ¬ m.finals.isEmpty = true ↔ ∃ f, f ∈ m.finals := by
    rw [SortedSet.isEmpty_iff, not_forall_not]
  rw [← hfinals]
  unfold analyze findingAbout
  simp only [List.mem_append, List.mem_ite_nil_left, List.mem_ite_nil_right, List.mem_singleton,
    reduceCtorEq, and_false, false_or, or_false, Finding.dead.injEq, List.isEmpty_iff]
  constructor
  · rintro ⟨hfinal, hne, rfl⟩
    exact ⟨rfl, hne, hfinal⟩
  · rintro ⟨rfl, hne, hfinal⟩
    exact ⟨hfinal, hne, rfl⟩

/-! ## Runs -/

/-- A move takes a transition, so its states are linked in the graph. -/
theorem linked_of_move (h : m.Move c d) : m.Linked c.state d.state := by
  obtain ⟨width, -, -, hd, -⟩ := mem_step.1 h
  obtain ⟨t, ht, hsource, -, rfl⟩ := mem_stepAt.1 hd
  exact ⟨t, ht, hsource, rfl⟩

/-- Moves follow a path of transitions. -/
theorem leadsTo_of_moves {n : Nat} (h : Moves m.Move n c d) : m.LeadsTo c.state d.state := by
  induction h with
  | refl c => exact .refl
  | step hmove _ ih => exact .head (linked_of_move hmove) ih

/-- A machine accepts in final states alone. -/
theorem mem_finals_of_accepted {tapes : List Tape} (h : (m.configuration q tapes).accepted = true) :
    q ∈ m.finals :=
  SortedSet.contains_iff.1 (Bool.and_eq_true_iff.1 h).1

/-- What a move reaches shows whether the machine accepts there. -/
theorem eq_configuration_of_move (h : m.Move c d) : d = m.configuration d.state d.tapes := by
  obtain ⟨width, -, -, hd, -⟩ := mem_step.1 h
  obtain ⟨t, -, -, -, rfl⟩ := mem_stepAt.1 hd
  rfl

/-- What moves reach shows whether the machine accepts there. -/
theorem eq_configuration_of_moves {n : Nat} (h : Moves m.Move n c d) (hn : 0 < n) :
    d = m.configuration d.state d.tapes := by
  induction h with
  | refl c => exact absurd hn (Nat.lt_irrefl 0)
  | @step n a b d hmove hmoves ih =>
    cases hmoves with
    | refl => exact eq_configuration_of_move hmove
    | step => exact ih (Nat.succ_pos _)

/-- Every configuration of a computation is in a state to which the initial one leads. -/
theorem leadsTo_of_mem_layers {inputs : List Word} {count : Nat}
    {layers : List (List Configuration)} (h : m.layers inputs count = .ok layers) :
    ∀ layer ∈ layers, ∀ c ∈ layer, m.LeadsTo m.initial c.state := by
  refine forall_mem_layers (P := fun layer => ∀ c ∈ layer, m.LeadsTo m.initial c.state) h
    (fun c hc d hd => ?_) fun layer hlayer d hd => ?_
  · obtain rfl := List.mem_singleton.1 hd
    unfold initialConfiguration at hc
    split at hc
    · cases hc
    · cases hc
      exact .refl
  · obtain ⟨c, hc, -, hmove⟩ := mem_nextLayer.1 hd
    exact (hlayer c hc).tail (linked_of_move hmove)

/-- The analysis of the graph. The states that cannot be reached and those that lead to no final
state are listed in order, and reported if there are any; the latter only if there are final states.
No computation is ever in a state that cannot be reached, and from a state that leads to no final
state on the machine never accepts. -/
theorem unreachable_and_dead_states (m : Machine k) : ∃ unreachable dead : List State,
    Lists (fun q => q ∈ m.states ∧ ¬ m.LeadsTo m.initial q) unreachable ∧
    Lists (fun q => q ∈ m.states ∧ ¬ ∃ f ∈ m.finals, m.LeadsTo q f) dead ∧
    (∀ states, .unreachable states ∈ m.analyze ↔ states = unreachable ∧ states ≠ []) ∧
    (∀ states, .dead states ∈ m.analyze ↔ states = dead ∧ states ≠ [] ∧ ∃ f, f ∈ m.finals) ∧
    (∀ inputs count layers, m.layers inputs count = .ok layers →
      ∀ layer ∈ layers, ∀ c ∈ layer, c.state ∉ unreachable) ∧
    ∀ c d n, c.state ∈ dead → Moves m.Move n c d →
      (m.configuration d.state d.tapes).accepted = false ∧ (0 < n → d.accepted = false) := by
  refine ⟨m.unreachableStates, m.deadStates, m.lists_unreachableStates, m.lists_deadStates,
    fun _ => unreachable_mem_analyze_iff, fun _ => dead_mem_analyze_iff,
      fun inputs count layers h layer hlayer c hc hmem => ?_,
    fun c d n hdead hmoves => ?_⟩
  · exact ((m.lists_unreachableStates.mem_iff c.state).1 hmem).2
      (leadsTo_of_mem_layers h layer hlayer c hc)
  · -- An accepting configuration is in a final state, which a dead state does not lead to.
    have hno : (m.configuration d.state d.tapes).accepted = false := by
      rw [← Bool.not_eq_true]
      intro haccepted
      exact ((m.lists_deadStates.mem_iff c.state).1 hdead).2
        ⟨d.state, mem_finals_of_accepted haccepted, leadsTo_of_moves hmoves⟩
    refine ⟨hno, fun hn => ?_⟩
    rw [eq_configuration_of_moves hmoves hn]
    exact hno

/-- A pushdown automaton with a trap, and with a state that nothing leads to. -/
def trapping : Machine .pushdown :=
  build {
    transitions := [⟨"start", [['a'], []], "start", StackAction.mk [['A']]⟩,
      ⟨"start", [['b'], ['A']], "done", StackAction.mk [[]]⟩,
      ⟨"start", [['c'], []], "trap", StackAction.mk [[]]⟩,
      ⟨"trap", [[], []], "trap", StackAction.mk [['A']]⟩,
      ⟨"far", [['a'], []], "done", StackAction.mk [[]]⟩]
    initial := "start"
    finals := .single "done"
    tapes := ["input", "stack"]
    bounded := true }

/-- Both are reported, no computation is ever in the far state, and the automaton accepts nothing
from the trap on. -/
theorem findings_trapping :
    trapping.analyze = [.unreachable ["far"], .dead ["trap"]] ∧
      (∀ layer ∈ trapping.layersFrom 4 [trapping.start [['a', 'c']]],
        ∀ c ∈ layer, c.state ≠ "far") ∧
      ∀ tapes d n, Moves trapping.Move (n + 1) (trapping.configuration "trap" tapes) d →
        d.accepted = false := by
  obtain ⟨unreachable, dead, -, -, hunreachable, hdead, hlayers, hmoves⟩ :=
    unreachable_and_dead_states trapping
  have hanalyze : trapping.analyze = [.unreachable ["far"], .dead ["trap"]] := by decide +kernel
  obtain ⟨rfl, -⟩ := (hunreachable ["far"]).1 (by simp [hanalyze])
  obtain ⟨rfl, -⟩ := (hdead ["trap"]).1 (by simp [hanalyze])
  refine ⟨hanalyze, fun layer hlayer c hc heq => ?_, fun tapes d n h => ?_⟩
  · exact hlayers [['a', 'c']] 4 _ rfl layer hlayer c hc (heq ▸ List.mem_singleton_self _)
  · exact (hmoves _ d (n + 1) (List.mem_singleton_self _) h).2 (Nat.succ_pos n)

end MachineLang.Machine

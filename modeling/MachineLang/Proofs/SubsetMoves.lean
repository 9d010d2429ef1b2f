import MachineLang.Proofs.Grouping
import MachineLang.Proofs.Subset

/-!
# The moves of a deterministic automaton

If no state has a comma in its name, each state of the automaton of the subset construction stands
for one set of states (`existsUnique_isSubset`), and all sets that it stands for have been followed.
For each symbol that a transition from a member of such a set reads, the automaton has one
transition from the set, to all states in which the members can end by reading the symbol and then
nothing. Only the blank is no symbol that is followed: it is in no alphabet, so the moves that read
it are lost (`determinize_moves`, `determinize_loses_blank`).
-/

namespace MachineLang.Machine

variable {m : Machine .finite} {s t : SortedSet State} {p q : State} {x : Symbol}

/-- The transitions of an automaton with one tape that leave a state and read a symbol. -/
def movesOn (m : Machine .finite) (p : State) (x : Symbol) : List (Transition .finite) :=
  m.transitions.filter fun u => u.source = p ∧ u.read = [x]

/-- A list without repetitions that has one member is that member. -/
theorem eq_singleton_of_mem_iff {α : Type} {l : List α} {a : α} (hl : l.Nodup)
    (h : ∀ b, b ∈ l ↔ b = a) : l = [a] :=
  List.perm_singleton.1 ((List.perm_ext_iff_of_nodup hl (List.nodup_singleton a)).2 fun b =>
    (h b).trans List.mem_singleton.symm)

/-- The transitions of the deterministic automaton lead from a found set to what follows it. -/
theorem mem_transitions_determinize_iff (h : m.tapeCount = 1) {u : Transition .finite} :
    u ∈ m.determinize.transitions ↔
    ∃ s ∈ m.subsets, ∃ x next, (x, next) ∈ m.successorSets s ∧
      u = ⟨compositeName s, [x], compositeName next, ()⟩ := by
  unfold determinize
  rw [mem_transitions_subsetMachine_iff, h]
  rfl

section

variable (hm : m.WellFormed) (h : m.tapeCount = 1)
include hm h

/-- Every state of the deterministic automaton is the name of a set that was found. -/
theorem exists_mem_subsets_of_mem_states (hp : p ∈ m.determinize.states) :
    ∃ s ∈ m.subsets, compositeName s = p := by
  rcases mem_states_build.1 hp with rfl | hempty | hfinal | ⟨u, hu, hend⟩
  · exact ⟨_, m.closure_mem_subsets, rfl⟩
  · exact absurd hempty List.not_mem_nil
  · obtain ⟨s, hs, -, hname⟩ := mem_finals_subsetMachine_iff.1 hfinal
    exact ⟨s, hs, hname⟩
  · obtain ⟨s, hs, x, next, hnext, rfl⟩ :=
      mem_transitions_subsetMachine_iff.1 (mem_transitions_build.2 hu)
    rcases hend with rfl | rfl
    · exact ⟨s, hs, rfl⟩
    · exact exists_mem_subsets_of_next hm h hs hnext

/-- What the deterministic automaton reads is in the alphabet, and is read from some member of the
set that it leaves. -/
theorem read_of_mem_transitions_determinize {u : Transition .finite}
    (hu : u ∈ m.determinize.transitions) :
    ∃ s ∈ m.subsets, ∃ x, x ≠ epsilon ∧ x ≠ blank ∧ u.source = compositeName s ∧ u.read = [x] ∧
      ∃ q ∈ s, ∃ r, m.Reads q x r := by
  obtain ⟨s, hs, x, next, hnext, rfl⟩ := (mem_transitions_determinize_iff h).1 hu
  obtain ⟨halphabet, rfl, hne⟩ := mem_successorSets_iff.1 hnext
  obtain ⟨hepsilon, hblank⟩ := hm.alphabet_ne x halphabet
  refine ⟨s, hs, x, hepsilon, hblank, rfl, rfl, ?_⟩
  rw [← Bool.not_eq_true, SortedSet.isEmpty_iff, not_forall_not] at hne
  obtain ⟨p, hp⟩ := hne
  obtain ⟨q, hq, r, hread, -⟩ := (mem_successorSet_iff h).1 hp
  exact ⟨q, hq, r, hread⟩

/-- From a found set one transition leads on for each symbol of the alphabet that is read from a
member. -/
theorem movesOn_determinize (hs : s ∈ m.subsets) (hx : x ∈ m.alphabet)
    (hread : ∃ q ∈ s, ∃ r, m.Reads q x r) :
    m.determinize.movesOn (compositeName s) x =
      [⟨compositeName s, [x], compositeName (m.successorSet s x), ()⟩] := by
  -- A member can read the symbol, so the set behind it is not empty and has a transition.
  have hne : (m.successorSet s x).isEmpty = false := by
    obtain ⟨q, hq, r, hread⟩ := hread
    rw [← Bool.not_eq_true, SortedSet.isEmpty_iff, not_forall_not]
    exact ⟨r, (mem_successorSet_iff h).2 ⟨q, hq, r, hread, .refl r⟩⟩
  have hbuilt : m.determinize.IsBuilt := isBuilt_subsetMachine hm
  unfold movesOn
  refine eq_singleton_of_mem_iff (hbuilt.tidy.nodup_transitions.filter _) fun u => ?_
  rw [List.mem_filter, decide_eq_true_iff, mem_transitions_determinize_iff h]
  constructor
  · rintro ⟨⟨s', hs', y, next, hnext, rfl⟩, hsource, hy⟩
    obtain rfl := eq_of_mem_subsets hs' hs hsource
    obtain rfl : y = x := List.singleton_inj.1 hy
    rw [(mem_successorSets_iff.1 hnext).2.1]
  · rintro rfl
    exact ⟨⟨s, hs, x, _, mem_successorSets_iff.2 ⟨hx, rfl, hne⟩, rfl⟩, rfl, rfl⟩

/-- The deterministic automaton has no transition on the blank. -/
theorem movesOn_determinize_blank (p : State) : m.determinize.movesOn p blank = [] := by
  refine List.filter_eq_nil_iff.2 fun u hu => ?_
  obtain ⟨-, -, x, -, hblank, -, hread, -⟩ := read_of_mem_transitions_determinize hm h hu
  rw [decide_eq_true_iff, hread]
  rintro ⟨-, hx⟩
  exact hblank (List.singleton_inj.1 hx)

variable (hcomma : ∀ q ∈ m.states, ',' ∉ q.toList)
include hcomma

omit hm h in
/-- Sets of states whose names have no commas are told apart by their names. -/
theorem IsSubset.eq_of_compositeName (hs : m.IsSubset s) (ht : m.IsSubset t)
    (hname : compositeName s = compositeName t) : s = t :=
  compositeName_injective hs.1 ht.1 (fun q hq => hcomma q (hs.2 q hq))
    (fun q hq => hcomma q (ht.2 q hq)) hname

/-- A set whose name is a state of the deterministic automaton was found. -/
theorem IsSubset.mem_subsets (hs : m.IsSubset s) (hstate : compositeName s ∈ m.determinize.states) :
    s ∈ m.subsets := by
  obtain ⟨t, ht, hname⟩ := exists_mem_subsets_of_mem_states hm h hstate
  rwa [hs.eq_of_compositeName hcomma (isSubset_of_mem_subsets hm h ht) hname.symm]

/-- Each state of the deterministic automaton stands for one set. -/
theorem existsUnique_isSubset (hp : p ∈ m.determinize.states) :
    ∃! s, m.IsSubset s ∧ compositeName s = p := by
  obtain ⟨s, hs, rfl⟩ := exists_mem_subsets_of_mem_states hm h hp
  have hsubset := isSubset_of_mem_subsets hm h hs
  exact ⟨s, ⟨hsubset, rfl⟩, fun t ht => ht.1.eq_of_compositeName hcomma hsubset ht.2⟩

end

/-- The moves of the deterministic automaton of one with one tape and without commas in names. Each
state stands for one set of states; for each symbol that is not empty and is read from a member of
the set there is exactly one transition, to all states in which members can end by reading it and
then nothing, unless the symbol is the blank: then there is none. There are no other transitions. -/
theorem determinize_moves (m : Machine .finite) (hbuilt : m.IsBuilt) (h : m.tapeCount = 1)
    (hcomma : ∀ q ∈ m.states, ',' ∉ q.toList) :
    (∀ p ∈ m.determinize.states, ∃! s, m.IsSubset s ∧ compositeName s = p) ∧
    (∀ s, m.IsSubset s → compositeName s ∈ m.determinize.states → ∀ x ≠ epsilon,
      (∃ q ∈ s, ∃ r, m.Reads q x r) →
      ∃ t, m.IsSubset t ∧ (∀ p, p ∈ t ↔ ∃ q ∈ s, ∃ r, m.Reads q x r ∧ m.Path r [] p) ∧
        m.determinize.movesOn (compositeName s) x =
          if x = blank then [] else [⟨compositeName s, [x], compositeName t, ()⟩]) ∧
    ∀ u ∈ m.determinize.transitions, ∃ s, m.IsSubset s ∧ u.source = compositeName s ∧
      ∃ x, x ≠ epsilon ∧ x ≠ blank ∧ u.read = [x] ∧ ∃ q ∈ s, ∃ r, m.Reads q x r := by
  have hm := hbuilt.wellFormed
  refine ⟨fun p hp => existsUnique_isSubset hm h hcomma hp, fun s hs hstate x hx hread => ?_,
    fun u hu => ?_⟩
  · have hmem : ∀ p, p ∈ m.successorSet s x ↔ ∃ q ∈ s, ∃ r, m.Reads q x r ∧ m.Path r [] p :=
      fun p => mem_successorSet_iff h
    -- The set of successors is one that a state can stand for, and the transition leads to its
    -- state.
    refine ⟨m.successorSet s x, ⟨?_, fun p hp => ?_⟩, hmem, ?_⟩
    · obtain ⟨q, hq, r, hread⟩ := hread
      rw [← Bool.not_eq_true, SortedSet.isEmpty_iff, not_forall_not]
      exact ⟨r, (hmem r).2 ⟨q, hq, r, hread, .refl r⟩⟩
    · obtain ⟨q, -, r, hread, hpath⟩ := (hmem p).1 hp
      exact hpath.mem_states hm (hm.target_mem ⟨q, [x], r, ()⟩ hread)
    · split_ifs with hblank
      · rw [hblank]
        exact movesOn_determinize_blank hm h _
      · refine movesOn_determinize hm h (hs.mem_subsets hm h hcomma hstate) ?_ hread
        obtain ⟨q, -, r, hread⟩ := hread
        rcases hm.read_mem _ hread x List.mem_cons_self with hempty | hblank' | halphabet
        · exact absurd hempty hx
        · exact absurd hblank' hblank
        · exact halphabet
  · obtain ⟨s, hs, x, hepsilon, hblank, hsource, hread, hmember⟩ :=
      read_of_mem_transitions_determinize hm h hu
    exact ⟨s, isSubset_of_mem_subsets hm h hs, hsource, x, hepsilon, hblank, hread, hmember⟩

/-- An automaton that reads two characters at a time, and then a blank. -/
def skimming : Machine .finite :=
  build {
    transitions :=
      [⟨"p", [['a', 'b']], "q", ()⟩, ⟨"p", [epsilon], "r", ()⟩, ⟨"r", [['a', 'b']], "r", ()⟩,
      ⟨"q", [blank], "p", ()⟩]
    initial := "p"
    finals := .single "q"
    bounded := true }

/-- From the set of "p" and "r" the deterministic automaton reads both characters, and goes to "q"
and "r". -/
theorem determinize_moves_skimming :
    skimming.IsBuilt ∧ skimming.tapeCount = 1 ∧ (∀ q ∈ skimming.states, ',' ∉ q.toList) ∧
      ∃ t, (∀ p, p ∈ t ↔ p = "q" ∨ p = "r") ∧
        skimming.determinize.movesOn "p,r" ['a', 'b'] =
          [⟨"p,r", [['a', 'b']], compositeName t, ()⟩] := by
  have hbuilt : skimming.IsBuilt := isBuilt_build (by decide)
  have htapes : skimming.tapeCount = 1 := rfl
  have hcomma : ∀ q ∈ skimming.states, ',' ∉ q.toList := by
    intro q hq
    have hstates : skimming.states.toList = ["p", "q", "r"] := by decide +kernel
    rw [← SortedSet.mem_toList, hstates] at hq
    simp only [List.mem_cons, List.not_mem_nil, or_false] at hq
    rcases hq with rfl | rfl | rfl <;> decide
  obtain ⟨-, hmoves, -⟩ := determinize_moves skimming hbuilt htapes hcomma
  have hsubset : skimming.IsSubset (.ofList ["p", "r"]) := by
    refine ⟨rfl, fun q hq => ?_⟩
    rw [SortedSet.mem_ofList] at hq
    rcases List.mem_pair.1 hq with rfl | rfl <;> exact SortedSet.contains_iff.1 (by decide +kernel)
  have hstate : compositeName (.ofList ["p", "r"]) ∈ skimming.determinize.states :=
    SortedSet.contains_iff.1 (by decide +kernel)
  have hread : skimming.Reads "p" ['a', 'b'] "q" := mem_transitions_build.2 List.mem_cons_self
  obtain ⟨t, -, ht, hmove⟩ := hmoves (.ofList ["p", "r"]) hsubset hstate ['a', 'b'] (by decide)
    ⟨"p", SortedSet.mem_ofList.2 List.mem_cons_self, "q", hread⟩
  -- The target of the theorem has the same elements as the set that is computed.
  have hset : t = skimming.successorSet (.ofList ["p", "r"]) ['a', 'b'] :=
    SortedSet.ext fun p => (ht p).trans (mem_successorSet_iff htapes).symm
  have hlist : (skimming.successorSet (.ofList ["p", "r"]) ['a', 'b']).toList = ["q", "r"] := by
    decide +kernel
  refine ⟨hbuilt, htapes, hcomma, t, fun p => ?_, hmove⟩
  rw [hset, ← SortedSet.mem_toList, hlist]
  simp

/-- An automaton that reads a blank. -/
def pausing : Machine .finite :=
  build {
    transitions := [⟨"p", [blank], "q", ()⟩]
    initial := "p"
    finals := .single "q"
    bounded := true }

/-- The initial state of the deterministic automaton stands for the set of "p", from which the blank
is read, and has no transition on the blank. So the automaton rejects a word that the original
accepts. -/
theorem determinize_loses_blank :
    pausing.IsBuilt ∧ pausing.tapeCount = 1 ∧ (∀ q ∈ pausing.states, ',' ∉ q.toList) ∧
      pausing.IsSubset (.single "p") ∧ compositeName (.single "p") ∈ pausing.determinize.states ∧
      pausing.Reads "p" blank "q" ∧ pausing.determinize.movesOn (compositeName (.single "p"))
        blank = [] ∧
      pausing.testWithin [[' ']] 2 = .ok (some true) ∧
      pausing.determinize.testWithin [[' ']] 2 = .ok (some false) := by
  refine ⟨isBuilt_build (by decide), rfl, fun q hq => ?_, ⟨rfl, fun q hq => ?_⟩,
    SortedSet.contains_iff.1 (by decide +kernel), mem_transitions_build.2 List.mem_cons_self,
    by decide +kernel, by decide +kernel, by decide +kernel⟩
  · have hstates : pausing.states.toList = ["p", "q"] := by decide +kernel
    rw [← SortedSet.mem_toList, hstates] at hq
    rcases List.mem_pair.1 hq with rfl | rfl <;> decide
  · obtain rfl := List.mem_singleton.1 hq
    exact SortedSet.contains_iff.1 (by decide +kernel)

end MachineLang.Machine

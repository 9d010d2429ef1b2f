import MachineLang.Machine.Subset
import MachineLang.Proofs.Names
import MachineLang.Proofs.Reach
import Mathlib.Data.List.Sublists

/-!
# The words of a subset construction

The set of states that a word leads to holds the ends of the paths that read the word
(`IsTextbook.mem_follow_closure_iff`), so which words are accepted is a question about that set. The
automaton of the subset construction does not move between sets but between their names, and where
two sets share a name it goes on from the one that was found first. So it accepts the words that it
should exactly if sets that share a name are not told apart by any word
(`accepts_subsetMachine_iff`). That is so in particular if no state has a comma in its name
(`clashesAgree_of_commaFree`).
-/

namespace MachineLang.Machine

variable {m : Machine .finite} {accepting : SortedSet State → Bool} {s t : SortedSet State}
  {p q r : State} {c : Char} {w : Word} {x : Symbol}

/-! ## Sets that words lead to -/

/-- Some transition reads a blank, which the sets do not follow. -/
def ReadsBlank (m : Machine .finite) : Prop := ∃ t ∈ m.transitions, blank ∈ t.read

/-- The set of states in which a set of states can end by reading a word. -/
def follow (m : Machine .finite) (s : SortedSet State) (w : Word) : SortedSet State :=
  w.foldl (fun s c => m.successorSet s [c]) s

/-- A set of states has what its members lead to without reading. -/
def IsClosed (m : Machine .finite) (s : SortedSet State) : Prop :=
  ∀ q ∈ s, ∀ p, m.Path q [] p → p ∈ s

/-- A word is followed character by character. -/
@[simp] theorem follow_cons : m.follow s (c :: w) = m.follow (m.successorSet s [c]) w := rfl

/-- Two words one behind the other are followed one behind the other. -/
theorem follow_append {v : Word} : m.follow s (v ++ w) = m.follow (m.follow s v) w :=
  List.foldl_append

/-- The set behind a symbol holds the ends of a transition that reads it and then nothing, if there
is one tape. -/
theorem mem_successorSet_iff (h : m.tapeCount = 1) :
    p ∈ m.successorSet s x ↔ ∃ q ∈ s, ∃ r, m.Reads q x r ∧ m.Path r [] p := by
  have hpattern : List.replicate m.tapeCount x = [x] := by rw [h]; rfl
  unfold successorSet
  rw [SortedSet.mem_ofList, List.mem_flatMap, hpattern]
  constructor
  · rintro ⟨q, hq, hp⟩
    obtain ⟨⟨read, targets⟩, hchoice, hp⟩ := List.mem_flatMap.1 hp
    dsimp only at hp
    split at hp
    · next hread =>
      obtain rfl := matchesRead_literal_iff.1 hread
      obtain ⟨target, htarget, hp⟩ := List.mem_flatMap.1 hp
      have ht : ⟨q, [x], target.state, target.action⟩ ∈ m.transitions :=
        mem_transitions_iff.2 ⟨targets, hchoice, htarget⟩
      exact ⟨q, hq, target.state, ht, (mem_closure_iff h).1 hp⟩
    · simp at hp
  · -- Backwards, the transition is one of the state and is chosen by its symbol.
    rintro ⟨q, hq, r, hread, hpath⟩
    obtain ⟨targets, hchoice, htarget⟩ := mem_transitions_iff.1 hread
    refine ⟨q, hq, List.mem_flatMap.2 ⟨([x], targets), hchoice, ?_⟩⟩
    dsimp only
    rw [if_pos (matchesRead_literal_iff.2 rfl)]
    exact List.mem_flatMap.2 ⟨⟨r, ()⟩, htarget, (mem_closure_iff h).2 hpath⟩

namespace IsTextbook

/-- The set behind a symbol holds the ends of a transition that reads it and then nothing. -/
theorem mem_successorSet_iff (h : m.IsTextbook) :
    p ∈ m.successorSet s x ↔ ∃ q ∈ s, ∃ r, m.Reads q x r ∧ m.Path r [] p :=
  Machine.mem_successorSet_iff h.tapeCount_eq

/-- The closure of a state is closed. -/
theorem isClosed_closure (h : m.IsTextbook) (q : State) : m.IsClosed (m.closure q) := by
  intro p hp r hr
  rw [h.mem_closure_iff] at hp ⊢
  exact hp.append hr

/-- The set behind a symbol is closed. -/
theorem isClosed_successorSet (h : m.IsTextbook) (s : SortedSet State) (x : Symbol) :
    m.IsClosed (m.successorSet s x) := by
  intro p hp r hr
  obtain ⟨q, hq, q', hread, hpath⟩ := h.mem_successorSet_iff.1 hp
  exact h.mem_successorSet_iff.2 ⟨q, hq, q', hread, hpath.append hr⟩

/-- The set that a word leads to holds the ends of the paths that read the word. -/
theorem mem_follow_iff (h : m.IsTextbook) (hs : m.IsClosed s) :
    p ∈ m.follow s w ↔ ∃ q ∈ s, m.Path q w p := by
  -- The induction is on the word, for all closed sets: the set behind a character is closed again.
  induction w generalizing s with
  | nil =>
    show p ∈ s ↔ _
    constructor
    · exact fun hp => ⟨p, hp, .refl p⟩
    · rintro ⟨q, hq, hpath⟩
      exact hs q hq p hpath
  | cons c w ih =>
    rw [follow_cons, ih (h.isClosed_successorSet s [c])]
    constructor
    · rintro ⟨r, hr, hrest⟩
      obtain ⟨q, hq, q', hread, hempty⟩ := h.mem_successorSet_iff.1 hr
      exact ⟨q, hq, (Path.single hread).append (hempty.append hrest)⟩
    · rintro ⟨q, hq, hpath⟩
      obtain ⟨r, r', hempty, hread, hrest⟩ := h.path_cons_iff.1 hpath
      exact ⟨r', h.mem_successorSet_iff.2 ⟨r, hs q hq r hempty, r', hread, .refl r'⟩, hrest⟩

/-- The set that a word leads to from the initial state holds the ends of its paths. -/
theorem mem_follow_closure_iff (h : m.IsTextbook) :
    p ∈ m.follow (m.closure m.initial) w ↔ m.Path m.initial w p := by
  rw [h.mem_follow_iff (h.isClosed_closure m.initial)]
  constructor
  · rintro ⟨q, hq, hpath⟩
    exact (h.mem_closure_iff.1 hq).append hpath
  · exact fun hpath => ⟨m.initial, h.mem_closure_iff.2 (.refl _), hpath⟩

/-- Nothing follows the set without members. -/
theorem isEmpty_follow (h : m.IsTextbook) (hs : s.isEmpty = true) :
    (m.follow s w).isEmpty = true := by
  rw [SortedSet.isEmpty_iff] at hs ⊢
  intro p hp
  have hclosed : m.IsClosed s := fun q hq => absurd hq (hs q)
  obtain ⟨q, hq, -⟩ := (h.mem_follow_iff hclosed).1 hp
  exact hs q hq

end IsTextbook

/-! ## Sets that are found -/

/-- The sets that follow a set are those behind the symbols of the alphabet, if they have
members. -/
theorem mem_successorSets_iff :
    (x, t) ∈ m.successorSets s ↔
      x ∈ m.alphabet ∧ t = m.successorSet s x ∧ t.isEmpty = false := by
  unfold successorSets
  rw [List.mem_filter, List.mem_map]
  constructor
  · rintro ⟨⟨y, hy, heq⟩, hne⟩
    obtain ⟨rfl, rfl⟩ := Prod.mk.inj heq
    exact ⟨hy, rfl, by simpa using hne⟩
  · rintro ⟨hx, rfl, hne⟩
    exact ⟨⟨x, hx, rfl⟩, by simpa using hne⟩

/-- The first set is found: it is where the search begins. -/
theorem closure_mem_subsets (m : Machine .finite) : m.closure m.initial ∈ m.subsets := by
  unfold subsets discover
  exact mem_discoverFrom_of_mem_queue List.mem_cons_self

/-- A set of states of a machine that has members. -/
def IsSubset (m : Machine .finite) (s : SortedSet State) : Prop :=
  s.isEmpty = false ∧ ∀ q ∈ s, q ∈ m.states

/-- The closure of the initial state is a set of states with members, if there is one tape. -/
theorem isSubset_closure (hm : m.WellFormed) (h : m.tapeCount = 1) :
    m.IsSubset (m.closure m.initial) := by
  constructor
  · rw [← Bool.not_eq_true, SortedSet.isEmpty_iff]
    exact fun hno => hno m.initial ((mem_closure_iff h).2 (.refl _))
  · intro q hq
    exact ((mem_closure_iff h).1 hq).mem_states hm hm.initial_mem

/-- What follows a set is a set of states with members, if there is one tape. -/
theorem isSubset_of_mem_successorSets (hm : m.WellFormed) (h : m.tapeCount = 1)
    (ht : (x, t) ∈ m.successorSets s) :
    m.IsSubset t := by
  obtain ⟨-, rfl, hne⟩ := mem_successorSets_iff.1 ht
  refine ⟨hne, fun p hp => ?_⟩
  obtain ⟨q, -, r, hread, hpath⟩ := (mem_successorSet_iff h).1 hp
  exact hpath.mem_states hm (hm.target_mem ⟨q, [x], r, ()⟩ hread)

/-- All sets that are found are sets of states with members, if there is one tape. -/
theorem isSubset_of_mem_subsets (hm : m.WellFormed) (h : m.tapeCount = 1) (hs : s ∈ m.subsets) :
    m.IsSubset s := by
  refine discover_induction (P := m.IsSubset) ?_ ?_ s hs
  · intro t ht
    obtain rfl := List.mem_singleton.1 ht
    exact isSubset_closure hm h
  · intro s _ _ t ht _
    obtain ⟨⟨x, t⟩, hnext, rfl⟩ := List.mem_map.1 ht
    exact isSubset_of_mem_successorSets hm h hnext

/-- There are no more names of sets of states than sets are expanded, so a set with the name of any
that follows a found one is found. -/
theorem exists_mem_subsets_of_next (hm : m.WellFormed) (h : m.tapeCount = 1) (hs : s ∈ m.subsets)
    (ht : (x, t) ∈ m.successorSets s) :
    ∃ found ∈ m.subsets, compositeName found = compositeName t := by
  -- The names of sets are the joined parts of the list of states.
  refine exists_mem_discover_of_next m.IsSubset
    ((m.states.toList.sublists).map (String.intercalate ",")) ?_ ?_ ?_ ?_ hs
    (List.mem_map.2 ⟨(x, t), ht, rfl⟩)
  · intro t ht
    obtain rfl := List.mem_singleton.1 ht
    exact isSubset_closure hm h
  · intro s _ t ht
    obtain ⟨⟨x, t⟩, hnext, rfl⟩ := List.mem_map.1 ht
    exact isSubset_of_mem_successorSets hm h hnext
  · intro s hs
    exact List.mem_map_of_mem (List.mem_sublists.2 (SortedSet.toList_sublist hs.2))
  · rw [List.length_map, List.length_sublists]
    exact Nat.le_succ _

namespace IsTextbook

/-- What follows a set is a set of states with members. -/
theorem isSubset_of_mem_successorSets (h : m.IsTextbook) (ht : (x, t) ∈ m.successorSets s) :
    m.IsSubset t :=
  Machine.isSubset_of_mem_successorSets h.wellFormed h.tapeCount_eq ht

/-- All sets that are found are sets of states with members. -/
theorem isSubset_of_mem_subsets (h : m.IsTextbook) (hs : s ∈ m.subsets) : m.IsSubset s :=
  Machine.isSubset_of_mem_subsets h.wellFormed h.tapeCount_eq hs

/-- A set with the name of any that follows a found one is found. -/
theorem exists_mem_subsets_of_next (h : m.IsTextbook) (hs : s ∈ m.subsets)
    (ht : (x, t) ∈ m.successorSets s) :
    ∃ found ∈ m.subsets, compositeName found = compositeName t :=
  Machine.exists_mem_subsets_of_next h.wellFormed h.tapeCount_eq hs ht

end IsTextbook

/-! ## The automaton of the sets -/

/-- The automaton moves from the name of a found set to the names of those that follow it. -/
theorem mem_transitions_subsetMachine_iff {t : Transition .finite} :
    t ∈ (m.subsetMachine accepting).transitions ↔
      ∃ s ∈ m.subsets, ∃ x next, (x, next) ∈ m.successorSets s ∧
        t = ⟨compositeName s, List.replicate m.tapeCount x, compositeName next, ()⟩ := by
  unfold subsetMachine
  rw [mem_transitions_build, List.mem_flatMap]
  unfold subsetTransitions
  constructor
  · rintro ⟨s, hs, ht⟩
    obtain ⟨⟨x, next⟩, hnext, rfl⟩ := List.mem_map.1 ht
    exact ⟨s, hs, x, next, hnext, rfl⟩
  · rintro ⟨s, hs, x, next, hnext, rfl⟩
    exact ⟨s, hs, List.mem_map.2 ⟨(x, next), hnext, rfl⟩⟩

/-- The automaton accepts in the names of the found sets that pass the test. -/
theorem mem_finals_subsetMachine_iff :
    q ∈ (m.subsetMachine accepting).finals ↔
      ∃ s ∈ m.subsets, accepting s = true ∧ compositeName s = q := by
  unfold subsetMachine build
  dsimp only
  rw [SortedSet.mem_ofList, List.mem_map]
  simp only [List.mem_filter, and_assoc]

/-- Two found sets with the same name are the same. -/
theorem eq_of_mem_subsets (hs : s ∈ m.subsets) (ht : t ∈ m.subsets)
    (h : compositeName s = compositeName t) : s = t :=
  eq_of_mem_discover hs ht h

/-- The automaton accepts in the name of a found set if the set passes the test. -/
theorem compositeName_mem_finals_iff (hs : s ∈ m.subsets) :
    compositeName s ∈ (m.subsetMachine accepting).finals ↔ accepting s = true := by
  rw [mem_finals_subsetMachine_iff]
  constructor
  · rintro ⟨t, ht, hacc, hname⟩
    rwa [← eq_of_mem_subsets ht hs hname]
  · exact fun hacc => ⟨s, hs, hacc, rfl⟩

/-- The automaton of the sets of a well-formed automaton is one that a definition describes. -/
theorem isBuilt_subsetMachine (hm : m.WellFormed) : (m.subsetMachine accepting).IsBuilt := by
  refine hm.isBuilt_build_of_fits rfl fun t ht => ?_
  obtain ⟨s, -, x, next, -, rfl⟩ :=
    mem_transitions_subsetMachine_iff.1 (mem_transitions_build.2 ht)
  unfold fits
  rw [List.length_replicate, beq_self_eq_true]
  rfl

namespace IsTextbook

/-- The automaton reads a symbol between the names of a found set and of one that follows it. -/
theorem reads_subsetMachine_iff (h : m.IsTextbook) :
    (m.subsetMachine accepting).Reads p x q ↔
      ∃ s ∈ m.subsets, ∃ t, (x, t) ∈ m.successorSets s ∧
        p = compositeName s ∧ q = compositeName t := by
  unfold Reads
  rw [mem_transitions_subsetMachine_iff]
  constructor
  · -- A pattern for one tape is a list with one symbol.
    rintro ⟨s, hs, y, t, hnext, heq⟩
    injection heq with hp hx hq _
    rw [h.tapeCount_eq] at hx
    obtain rfl : x = y := List.singleton_inj.1 hx
    exact ⟨s, hs, t, hnext, hp, hq⟩
  · rintro ⟨s, hs, t, hnext, rfl, rfl⟩
    refine ⟨s, hs, x, t, hnext, ?_⟩
    rw [h.tapeCount_eq]
    rfl

/-- The automaton of the sets of a textbook automaton is one again: it has one tape, and each of its
transitions reads a symbol of the alphabet. -/
theorem subsetMachine (h : m.IsTextbook) : (m.subsetMachine accepting).IsTextbook := by
  have hcount : (m.subsetMachine accepting).tapeCount = 1 := by
    rw [← h.tapeCount_eq]
    exact h.wellFormed.tapeCount_build_eq rfl
  -- The symbols are those of the automaton and those read between the sets, none longer than one
  -- character.
  have hlength : ∀ x ∈ (m.subsetMachine accepting).alphabet, x.length ≤ 1 := by
    intro x hx
    refine h.width_eq ▸ length_le_width (m := m) ?_
    rcases (mem_alphabet_build.1 hx).1 with hx | ⟨t, ht, hx⟩
    · exact hx
    · obtain ⟨s, -, y, next, hnext, rfl⟩ :=
        mem_transitions_subsetMachine_iff.1 (mem_transitions_build.2 ht)
      rw [List.eq_of_mem_replicate hx]
      exact (mem_successorSets_iff.1 hnext).1
  have hle : (m.subsetMachine accepting).width ≤ 1 := width_le_iff.2 ⟨Nat.le_refl 1, hlength⟩
  have hpos := (m.subsetMachine accepting).width_pos
  exact ⟨isBuilt_subsetMachine h.wellFormed, hcount, h.bounded, by omega⟩

/-- The automaton of the sets has no transition that reads nothing. -/
theorem readsAlways_subsetMachine (h : m.IsTextbook) :
    (m.subsetMachine accepting).ReadsAlways := by
  intro p q hread
  obtain ⟨s, -, t, hnext, -, -⟩ := h.reads_subsetMachine_iff.1 hread
  exact (h.wellFormed.alphabet_ne _ (mem_successorSets_iff.1 hnext).1).1 rfl

/-- The automaton of the sets does not read blanks. -/
theorem not_readsBlank_subsetMachine (h : m.IsTextbook) :
    ¬ (m.subsetMachine accepting).ReadsBlank := by
  rintro ⟨t, ht, hblank⟩
  obtain ⟨s, -, x, next, hnext, rfl⟩ := mem_transitions_subsetMachine_iff.1 ht
  have hx : x ≠ blank := (h.wellFormed.alphabet_ne x (mem_successorSets_iff.1 hnext).1).2
  exact hx (List.eq_of_mem_replicate hblank).symm

/-- The automaton of the sets has one way to go on for each symbol. -/
theorem reads_subsetMachine_unique (h : m.IsTextbook)
    (hq : (m.subsetMachine accepting).Reads p x q)
    (hr : (m.subsetMachine accepting).Reads p x r) : q = r := by
  obtain ⟨s, hs, t, hnext, hp, rfl⟩ := h.reads_subsetMachine_iff.1 hq
  obtain ⟨s', hs', t', hnext', hp', rfl⟩ := h.reads_subsetMachine_iff.1 hr
  obtain rfl := eq_of_mem_subsets hs hs' (hp.symm.trans hp')
  rw [(mem_successorSets_iff.1 hnext).2.1, (mem_successorSets_iff.1 hnext').2.1]

end IsTextbook

/-! ## The words that it accepts -/

/-- A path along a word leads from a state to a final one. -/
def AcceptsFrom (m : Machine .finite) (q : State) (w : Word) : Prop :=
  ∃ p ∈ m.finals, m.Path q w p

/-- Whenever the name of a set that follows a found one is the name of another found set, no word
tells the two sets apart. -/
def ClashesAgree (m : Machine .finite) (accepting : SortedSet State → Bool) : Prop :=
  ∀ s ∈ m.subsets, ∀ x next, (x, next) ∈ m.successorSets s →
    ∀ t ∈ m.subsets, compositeName t = compositeName next →
      ∀ w, accepting (m.follow t w) = accepting (m.follow next w)

namespace IsTextbook

/-- The empty word is accepted from the name of a found set if the set passes the test. -/
theorem acceptsFrom_nil_iff (h : m.IsTextbook) (hs : s ∈ m.subsets) :
    (m.subsetMachine accepting).AcceptsFrom (compositeName s) [] ↔ accepting s = true := by
  have hfinal : compositeName s ∈ (m.subsetMachine accepting).finals ↔ accepting s = true :=
    compositeName_mem_finals_iff hs
  rw [← hfinal]
  unfold AcceptsFrom
  constructor
  · rintro ⟨p, hp, hpath⟩
    rcases hpath.cases_head with ⟨rfl, -⟩ | ⟨x, q, v, hread, -, hword⟩
    · exact hp
    · obtain ⟨rfl, -⟩ := List.append_eq_nil_iff.1 hword.symm
      exact absurd hread (h.readsAlways_subsetMachine _ _)
  · exact fun hp => ⟨_, hp, .refl _⟩

/-- A word is accepted from the name of a found set if its rest is accepted from the name of the set
behind its first character. -/
theorem acceptsFrom_cons_iff (h : m.IsTextbook) (hs : s ∈ m.subsets) :
    (m.subsetMachine accepting).AcceptsFrom (compositeName s) (c :: w) ↔
      ∃ next, ([c], next) ∈ m.successorSets s ∧
        (m.subsetMachine accepting).AcceptsFrom (compositeName next) w := by
  have hwhole : (m.subsetMachine accepting).IsTextbook := h.subsetMachine
  unfold AcceptsFrom
  constructor
  · rintro ⟨p, hp, hpath⟩
    -- The sets are joined by transitions that read one character, so the first one reads the first
    -- character.
    rcases hpath.cases_head with ⟨-, hword⟩ | ⟨x, q, v, hread, hrest, hword⟩
    · simp at hword
    · obtain rfl | ⟨d, rfl⟩ := hwhole.read_cases hread
      · exact absurd hread (h.readsAlways_subsetMachine _ _)
      · obtain ⟨rfl, rfl⟩ := List.cons.inj hword
        obtain ⟨s', hs', next, hnext, hname, rfl⟩ := h.reads_subsetMachine_iff.1 hread
        obtain rfl := eq_of_mem_subsets hs hs' hname
        exact ⟨next, hnext, p, hp, hrest⟩
  · rintro ⟨next, hnext, p, hp, hpath⟩
    have hread : (m.subsetMachine accepting).Reads (compositeName s) [c] (compositeName next) :=
      h.reads_subsetMachine_iff.2 ⟨s, hs, next, hnext, rfl, rfl⟩
    exact ⟨p, hp, (Path.single hread).append hpath⟩

/-- A symbol of the alphabet is one character. -/
theorem exists_eq_singleton (h : m.IsTextbook) (hx : x ∈ m.alphabet) : ∃ c, x = [c] := by
  have hle : x.length ≤ 1 := h.width_eq ▸ length_le_width hx
  have hne : x ≠ epsilon := (h.wellFormed.alphabet_ne x hx).1
  match x, hle with
  | [], _ => exact absurd rfl hne
  | [c], _ => exact ⟨c, rfl⟩

/-- From the name of a found set a character leads to the name of the set that follows it. -/
theorem acceptsFrom_cons_of_mem (h : m.IsTextbook) (hs : s ∈ m.subsets)
    (ht : ([c], t) ∈ m.successorSets s) :
    (m.subsetMachine accepting).AcceptsFrom (compositeName s) (c :: w) ↔
      (m.subsetMachine accepting).AcceptsFrom (compositeName t) w := by
  rw [h.acceptsFrom_cons_iff hs]
  constructor
  · rintro ⟨next, hnext, hrest⟩
    rwa [(mem_successorSets_iff.1 ht).2.1, ← (mem_successorSets_iff.1 hnext).2.1]
  · exact fun hrest => ⟨t, ht, hrest⟩

/-- Every found set is the one that some word leads to, and the automaton gets to its name by the
same word. -/
theorem exists_word_of_mem_subsets (h : m.IsTextbook) (hs : s ∈ m.subsets) :
    ∃ v, s = m.follow (m.closure m.initial) v ∧
      ∀ w, (m.subsetMachine accepting).AcceptsFrom (compositeName s) w ↔
        (m.subsetMachine accepting).Accepts (v ++ w) := by
  refine discover_induction (P := fun s => ∃ v, s = m.follow (m.closure m.initial) v ∧
    ∀ w, (m.subsetMachine accepting).AcceptsFrom (compositeName s) w ↔
      (m.subsetMachine accepting).Accepts (v ++ w)) ?_ ?_ s hs
  · intro t ht
    obtain rfl := List.mem_singleton.1 ht
    exact ⟨[], rfl, fun w => h.subsetMachine.accepts_iff_path.symm⟩
  · -- The word that leads to the found set is made longer by the character that finds the next one.
    rintro s hs ⟨v, hv, haccepts⟩ t ht -
    obtain ⟨⟨x, t⟩, hnext, rfl⟩ := List.mem_map.1 ht
    obtain ⟨hx, hset, -⟩ := mem_successorSets_iff.1 hnext
    obtain ⟨c, rfl⟩ := h.exists_eq_singleton hx
    refine ⟨v ++ [c], ?_, fun w => ?_⟩
    · rw [follow_append, ← hv]
      exact hset
    · rw [List.append_assoc, ← haccepts]
      exact (h.acceptsFrom_cons_of_mem hs hnext).symm

/-- A character that no set behind it is found for leads to the set without members. -/
theorem isEmpty_successorSet (h : m.IsTextbook) (hb : ¬ m.ReadsBlank)
    (hno : ∀ next, ([c], next) ∉ m.successorSets s) :
    (m.successorSet s [c]).isEmpty = true := by
  by_contra hne
  rw [Bool.not_eq_true] at hne
  obtain ⟨p, hp⟩ : ∃ p, p ∈ m.successorSet s [c] := by
    by_contra hall
    rw [← Bool.not_eq_true, SortedSet.isEmpty_iff] at hne
    exact hne fun p hp => hall ⟨p, hp⟩
  obtain ⟨q, -, r, hread, -⟩ := h.mem_successorSet_iff.1 hp
  -- The character is read by a transition, and it is not the blank, so it is in the alphabet.
  rcases h.wellFormed.read_mem _ hread [c] List.mem_cons_self with hc | hc | hc
  · simp [epsilon] at hc
  · exact hb ⟨_, hread, by rw [← hc]; exact List.mem_cons_self⟩
  · exact hno _ (mem_successorSets_iff.2 ⟨hc, rfl, hne⟩)

variable (haccepting : ∀ s : SortedSet State, s.isEmpty = true → accepting s = false)
include haccepting

/-- If clashes agree, a word is accepted from the name of a found set if the set that it leads to
passes the test. -/
theorem acceptsFrom_iff_of_clashesAgree (h : m.IsTextbook) (hb : ¬ m.ReadsBlank)
    (hagree : m.ClashesAgree accepting) (hs : s ∈ m.subsets) :
    (m.subsetMachine accepting).AcceptsFrom (compositeName s) w ↔
      accepting (m.follow s w) = true := by
  induction w generalizing s with
  | nil => exact h.acceptsFrom_nil_iff hs
  | cons c w ih =>
    rw [h.acceptsFrom_cons_iff hs, follow_cons]
    constructor
    · -- The automaton goes on from the found set of the same name, which agrees with the next one.
      rintro ⟨next, hnext, hrest⟩
      obtain ⟨t, ht, hname⟩ := h.exists_mem_subsets_of_next hs hnext
      rw [← hname, ih ht, hagree s hs [c] next hnext t ht hname] at hrest
      rwa [← (mem_successorSets_iff.1 hnext).2.1]
    · intro hacc
      -- A character without a next set leads to the set without members, which does not pass.
      have hfound : ∃ next, ([c], next) ∈ m.successorSets s := by
        by_contra hno
        have hempty := h.isEmpty_successorSet hb fun next hnext => hno ⟨next, hnext⟩
        rw [haccepting _ (h.isEmpty_follow hempty)] at hacc
        simp at hacc
      obtain ⟨next, hnext⟩ := hfound
      obtain ⟨t, ht, hname⟩ := h.exists_mem_subsets_of_next hs hnext
      refine ⟨next, hnext, ?_⟩
      rw [← hname, ih ht, hagree s hs [c] next hnext t ht hname,
        (mem_successorSets_iff.1 hnext).2.1]
      exact hacc

omit haccepting in
/-- If the automaton accepts the words that lead to sets that pass the test, it does so from the
name of every found set. -/
theorem acceptsFrom_iff_of_accepts_iff (h : m.IsTextbook)
    (hall : ∀ w, (m.subsetMachine accepting).Accepts w ↔
      accepting (m.follow (m.closure m.initial) w) = true)
    (hs : s ∈ m.subsets) :
    (m.subsetMachine accepting).AcceptsFrom (compositeName s) w ↔
      accepting (m.follow s w) = true := by
  obtain ⟨v, hv, haccepts⟩ : ∃ v, s = m.follow (m.closure m.initial) v ∧
      ∀ w, (m.subsetMachine accepting).AcceptsFrom (compositeName s) w ↔
        (m.subsetMachine accepting).Accepts (v ++ w) := h.exists_word_of_mem_subsets hs
  rw [haccepts, hall, follow_append, ← hv]

/-- The automaton accepts exactly the words that lead to sets that pass the test if and only if
clashes agree. -/
theorem accepts_subsetMachine_iff (h : m.IsTextbook) (hb : ¬ m.ReadsBlank) :
    (∀ w, (m.subsetMachine accepting).Accepts w ↔
        accepting (m.follow (m.closure m.initial) w) = true) ↔
      m.ClashesAgree accepting := by
  constructor
  · intro hall s hs x next hnext t ht hname w
    obtain ⟨c, rfl⟩ := h.exists_eq_singleton (mem_successorSets_iff.1 hnext).1
    rw [Bool.eq_iff_iff]
    -- Behind the shared name the automaton cannot tell which of the sets it stands for.
    calc accepting (m.follow t w) = true
        ↔ (m.subsetMachine accepting).AcceptsFrom (compositeName t) w :=
          (h.acceptsFrom_iff_of_accepts_iff hall ht).symm
      _ ↔ (m.subsetMachine accepting).AcceptsFrom (compositeName next) w := by rw [hname]
      _ ↔ (m.subsetMachine accepting).AcceptsFrom (compositeName s) (c :: w) :=
          (h.acceptsFrom_cons_of_mem hs hnext).symm
      _ ↔ accepting (m.follow s (c :: w)) = true := h.acceptsFrom_iff_of_accepts_iff hall hs
      _ ↔ accepting (m.follow next w) = true := by
          rw [follow_cons, (mem_successorSets_iff.1 hnext).2.1]
  · intro hagree w
    have hfrom := h.acceptsFrom_iff_of_clashesAgree haccepting hb hagree (w := w)
      m.closure_mem_subsets
    rw [← hfrom]
    exact h.subsetMachine.accepts_iff_path

end IsTextbook

/-- Clashes agree if no state has a comma in its name: there are none. -/
theorem IsTextbook.clashesAgree_of_commaFree (h : m.IsTextbook)
    (hcomma : ∀ q ∈ m.states, ',' ∉ q.toList) : m.ClashesAgree accepting := by
  intro s _ x next hnext t ht hname w
  obtain ⟨hne, hmem⟩ := h.isSubset_of_mem_subsets ht
  obtain ⟨hne', hmem'⟩ := h.isSubset_of_mem_successorSets hnext
  rw [compositeName_injective hne hne' (fun q hq => hcomma q (hmem q hq))
    (fun q hq => hcomma q (hmem' q hq)) hname]

end MachineLang.Machine

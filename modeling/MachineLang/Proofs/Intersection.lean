import MachineLang.Proofs.Determinize
import MachineLang.Proofs.Union

/-!
# The words of an intersection

An intersection is the subset construction on the union of both automata, and a set passes the test
if it has a final state of either one. The set that a word leads to in the union passes exactly if
both automata accept the word (`meets_follow_iff`). So the intersection is right exactly if sets
that share a name are not told apart by any word (`intersection_accepts_common_words_iff`); it is if
no state has a comma in its name, and it is not always if one has
(`intersection_misses_common_word`).
-/

namespace MachineLang.Machine

variable {a b : Machine .finite} {p q r : State} {w : Word} {x : Symbol}

/-- Whether a set of states of the union of two automata has a final state of either one. -/
def meets (a b : Machine .finite) (s : SortedSet State) : Bool :=
  !s.isDisjoint a.finals &&
    !s.isDisjoint (SortedSet.ofList (b.finals.toList.map (a.apart b).rename))

/-- Automata with equal numbers of tapes have an intersection: the subset construction on their
union. -/
theorem intersection_eq_ok (ht : a.tapeCount = b.tapeCount) :
    a.intersection b = .ok ((a.joined b).subsetMachine (a.meets b)) := by
  unfold intersection sameTapes
  rw [if_pos ht]
  rfl

/-- A set passes the test if it has a final state of the first automaton and the new name of one of
the second. -/
theorem meets_iff {s : SortedSet State} :
    a.meets b s = true ↔
      (∃ p ∈ a.finals, p ∈ s) ∧ ∃ p ∈ b.finals, (a.apart b).rename p ∈ s := by
  unfold meets
  rw [Bool.and_eq_true, Bool.not_eq_true', Bool.not_eq_true', SortedSet.isDisjoint_eq_false_iff,
    SortedSet.isDisjoint_eq_false_iff]
  simp only [SortedSet.mem_ofList, List.mem_map, SortedSet.mem_toList]
  constructor
  · rintro ⟨⟨p, hp, hfinal⟩, _, hs, q, hq, rfl⟩
    exact ⟨⟨p, hfinal, hp⟩, q, hq, hs⟩
  · rintro ⟨⟨p, hfinal, hp⟩, q, hq, hs⟩
    exact ⟨⟨p, hp, hfinal⟩, _, hs, q, hq, rfl⟩

/-- The set without members does not pass the test. -/
theorem meets_of_isEmpty {s : SortedSet State} (hs : s.isEmpty = true) : a.meets b s = false := by
  rw [SortedSet.isEmpty_iff] at hs
  rw [← Bool.not_eq_true, meets_iff]
  rintro ⟨⟨p, -, hp⟩, -⟩
  exact hs p hp

/-! ## The union of two textbook automata -/

namespace IsTextbook

/-- The union of two textbook automata is one. -/
theorem joined (ha : a.IsTextbook) (hb : b.IsTextbook) : (a.joined b).IsTextbook where
  built := isBuilt_joined ha.wellFormed hb.wellFormed (by rw [ha.tapeCount_eq, hb.tapeCount_eq])
  tapeCount_eq := by rw [tapeCount_joined ha.wellFormed, ha.tapeCount_eq]
  bounded := ha.bounded
  width_eq := by
    rw [width_joined ha.wellFormed hb.wellFormed, ha.width_eq, hb.width_eq]
    rfl

/-- From its initial state the union goes to that of either automaton without reading. -/
theorem reads_unionInitial_iff (ha : a.IsTextbook) (hb : b.IsTextbook) :
    (a.joined b).Reads (a.unionInitial b) x q ↔
      x = epsilon ∧ (q = a.initial ∨ q = (a.apart b).rename b.initial) := by
  unfold Reads
  rw [mem_transitions_joined, ha.hasOneTape.eq_epsilonTransition_iff,
    ha.hasOneTape.eq_epsilonTransition_iff]
  constructor
  · -- The initial state of the union is new, so no transition of either part leaves it.
    rintro (ht | ⟨s, hs, heq⟩ | ⟨-, rfl, rfl⟩ | ⟨-, rfl, rfl⟩)
    · exact absurd (ha.wellFormed.source_mem _ ht) (unionInitial_notMem a b)
    · injection heq with hsource _ _ _
      exact absurd hsource (unionInitial_ne_rename (hb.wellFormed.source_mem s hs))
    · exact ⟨rfl, .inl rfl⟩
    · exact ⟨rfl, .inr rfl⟩
  · rintro ⟨rfl, rfl | rfl⟩
    · exact .inr (.inr (.inl ⟨rfl, rfl, rfl⟩))
    · exact .inr (.inr (.inr ⟨rfl, rfl, rfl⟩))

/-- A path of the union stays at the initial state or is one of either automaton behind it. -/
theorem path_joined_iff (ha : a.IsTextbook) (hb : b.IsTextbook) :
    (a.joined b).Path (a.unionInitial b) w r ↔
      (r = a.unionInitial b ∧ w = []) ∨ a.Path a.initial w r ∨
        ∃ q, b.Path b.initial w q ∧ r = (a.apart b).rename q := by
  have hwidth : a.width = b.width := by rw [ha.width_eq, hb.width_eq]
  have hleft : ∀ {v : Word}, (a.joined b).Path a.initial v r ↔ a.Path a.initial v r := by
    intro v
    have hpath := (embedding_left ha.wellFormed hb.wellFormed (by omega)).path_iff (w := v) (r := r)
      ha.wellFormed.initial_mem
    simpa using hpath
  have hright : ∀ {v : Word}, (a.joined b).Path ((a.apart b).rename b.initial) v r ↔
      ∃ q, b.Path b.initial v q ∧ r = (a.apart b).rename q :=
    (embedding_right ha.wellFormed hb.wellFormed (by omega)).path_iff hb.wellFormed.initial_mem
  constructor
  · intro hpath
    -- Behind its first transition the path is one of a part, which has no way out.
    rcases hpath.cases_head with ⟨rfl, rfl⟩ | ⟨x, q, v, hread, hrest, rfl⟩
    · exact .inl ⟨rfl, rfl⟩
    · obtain ⟨rfl, rfl | rfl⟩ := (ha.reads_unionInitial_iff hb).1 hread
      · exact .inr (.inl (hleft.1 hrest))
      · exact .inr (.inr (hright.1 hrest))
  · rintro (⟨rfl, rfl⟩ | hpath | hpath)
    · exact .refl _
    · exact .step ((ha.reads_unionInitial_iff hb).2 ⟨rfl, .inl rfl⟩) (hleft.2 hpath)
    · exact .step ((ha.reads_unionInitial_iff hb).2 ⟨rfl, .inr rfl⟩) (hright.2 hpath)

/-- A state of the first automaton is reached in the union by the paths of the first automaton. -/
theorem path_joined_left_iff (ha : a.IsTextbook) (hb : b.IsTextbook) (hp : p ∈ a.states) :
    (a.joined b).Path (a.unionInitial b) w p ↔ a.Path a.initial w p := by
  rw [ha.path_joined_iff hb]
  constructor
  · rintro (⟨rfl, -⟩ | hpath | ⟨q, hpath, rfl⟩)
    · exact absurd hp (unionInitial_notMem a b)
    · exact hpath
    · have hq := hpath.mem_states hb.wellFormed hb.wellFormed.initial_mem
      exact absurd hp (rename_apart_notMem hq)
  · exact fun hpath => .inr (.inl hpath)

/-- The new name of a state of the second automaton is reached in the union by the paths of the
second automaton. -/
theorem path_joined_right_iff (ha : a.IsTextbook) (hb : b.IsTextbook) (hp : p ∈ b.states) :
    (a.joined b).Path (a.unionInitial b) w ((a.apart b).rename p) ↔ b.Path b.initial w p := by
  rw [ha.path_joined_iff hb]
  constructor
  · rintro (⟨hinitial, -⟩ | hpath | ⟨q, hpath, hname⟩)
    · exact absurd hinitial.symm (unionInitial_ne_rename hp)
    · have hmem := hpath.mem_states ha.wellFormed ha.wellFormed.initial_mem
      exact absurd hmem (rename_apart_notMem hp)
    · have hq := hpath.mem_states hb.wellFormed hb.wellFormed.initial_mem
      rwa [rename_apart_injective hp hq hname]
  · exact fun hpath => .inr (.inr ⟨p, hpath, rfl⟩)

/-- The set that a word leads to in the union passes the test exactly if both automata accept the
word. -/
theorem meets_follow_iff (ha : a.IsTextbook) (hb : b.IsTextbook) :
    a.meets b ((a.joined b).follow ((a.joined b).closure (a.joined b).initial) w) = true ↔
      a.Accepts w ∧ b.Accepts w := by
  have hfollow : ∀ p, p ∈ (a.joined b).follow ((a.joined b).closure (a.joined b).initial) w ↔
      (a.joined b).Path (a.unionInitial b) w p :=
    fun p => (ha.joined hb).mem_follow_closure_iff
  rw [meets_iff, ha.accepts_iff_path, hb.accepts_iff_path]
  simp only [hfollow]
  refine and_congr ?_ ?_
  · refine exists_congr fun p => and_congr_right fun hp => ?_
    exact ha.path_joined_left_iff hb (ha.wellFormed.final_mem p hp)
  · refine exists_congr fun p => and_congr_right fun hp => ?_
    exact ha.path_joined_right_iff hb (hb.wellFormed.final_mem p hp)

end IsTextbook

/-- If neither automaton reads a blank, the union does not. -/
theorem not_readsBlank_joined (ha : ¬ a.ReadsBlank) (hb : ¬ b.ReadsBlank) :
    ¬ (a.joined b).ReadsBlank := by
  rintro ⟨t, ht, hread⟩
  rcases mem_transitions_joined.1 ht with ht | ⟨s, hs, rfl⟩ | rfl | rfl
  · exact ha ⟨t, ht, hread⟩
  · exact hb ⟨s, hs, hread⟩
  · have hblank : blank = epsilon := List.eq_of_mem_replicate hread
    simp [blank, epsilon] at hblank
  · have hblank : blank = epsilon := List.eq_of_mem_replicate hread
    simp [blank, epsilon] at hblank

/-- If no state of either automaton has a comma in its name, no state of the union has. -/
theorem comma_notMem_joined (ha : a.WellFormed) (hb : b.WellFormed)
    (hca : ∀ q ∈ a.states, ',' ∉ q.toList) (hcb : ∀ q ∈ b.states, ',' ∉ q.toList) :
    ∀ q ∈ (a.joined b).states, ',' ∉ q.toList := by
  -- New names have no characters but old ones and digits.
  have hdigit : (','.isDigit = true) = False := by decide
  have hrename : ∀ q ∈ b.states, ',' ∉ ((a.apart b).rename q).toList := by
    intro q hq hmem
    rcases mem_of_mem_rename_apart hq hmem with hmem | hmem
    · exact hcb q hq hmem
    · rwa [hdigit] at hmem
  have hinitial : ',' ∉ (a.unionInitial b).toList := by
    intro hmem
    rcases mem_of_mem_freshName hmem with hmem | hmem
    · exact hca _ ha.initial_mem hmem
    · rwa [hdigit] at hmem
  intro q hq
  rcases (mem_states_joined ha hb).1 hq with rfl | hq | ⟨p, hp, rfl⟩
  · exact hinitial
  · exact hca q hq
  · exact hrename p hp

/-- The intersection of two textbook automata that read no blanks accepts exactly the words that
both accept if and only if no word tells sets of states apart that get the same name. It does in
particular if no state has a comma in its name. -/
theorem intersection_accepts_common_words_iff (a b : Machine .finite) (ha : a.IsTextbook)
    (hb : b.IsTextbook) (hab : ¬ a.ReadsBlank) (hbb : ¬ b.ReadsBlank) :
    ∃ both, a.intersection b = .ok both ∧ both.IsBuilt ∧
      ((∀ w : Word, (∃ limit, both.testWithin [w] limit = .ok (some true)) ↔
          (∃ limit, a.testWithin [w] limit = .ok (some true)) ∧
            ∃ limit, b.testWithin [w] limit = .ok (some true)) ↔
        (a.joined b).ClashesAgree (a.meets b)) ∧
      ((∀ q ∈ a.states, ',' ∉ q.toList) → (∀ q ∈ b.states, ',' ∉ q.toList) →
        (a.joined b).ClashesAgree (a.meets b)) := by
  have hjoined := ha.joined hb
  have hempty : ∀ s : SortedSet State, s.isEmpty = true → a.meets b s = false :=
    fun s hs => meets_of_isEmpty hs
  have hwords := hjoined.accepts_subsetMachine_iff hempty (not_readsBlank_joined hab hbb)
  simp only [ha.meets_follow_iff hb] at hwords
  refine ⟨_, intersection_eq_ok (by rw [ha.tapeCount_eq, hb.tapeCount_eq]),
    hjoined.subsetMachine.built, hwords, fun hca hcb => ?_⟩
  exact hjoined.clashesAgree_of_commaFree
    (comma_notMem_joined ha.wellFormed hb.wellFormed hca hcb)

/-- The automaton that may wait and itself have the same words in common as it has alone, although
all their states share names. -/
theorem intersection_waiting :
    waiting.IsTextbook ∧ ¬ waiting.ReadsBlank ∧
      ∃ both, waiting.intersection waiting = .ok both ∧
        ∀ w : Word, (∃ limit, both.testWithin [w] limit = .ok (some true)) ↔
          ∃ limit, waiting.testWithin [w] limit = .ok (some true) := by
  obtain ⟨both, hboth, -, hexact, hcomma⟩ := intersection_accepts_common_words_iff waiting waiting
    isTextbook_waiting isTextbook_waiting not_readsBlank_waiting not_readsBlank_waiting
  have hwords := hexact.2 (hcomma comma_notMem_waiting comma_notMem_waiting)
  refine ⟨isTextbook_waiting, not_readsBlank_waiting, both, hboth, fun w => ?_⟩
  rw [hwords, and_self]

/-- An automaton that goes to one state by one letter and to two by another. -/
def branching : Machine .finite :=
  build {
    transitions := [⟨"x", [['a']], "p", ()⟩, ⟨"x", [['b']], "p", ()⟩, ⟨"x", [['b']], "q", ()⟩]
    initial := "x"
    finals := .single "q"
    bounded := true }

/-- An automaton that branches by the other letter. -/
def guessing : Machine .finite :=
  build {
    transitions := [⟨"y", [['a']], "q", ()⟩, ⟨"y", [['a']], "r", ()⟩, ⟨"y", [['b']], "r", ()⟩]
    initial := "y"
    finals := .single "r"
    bounded := true }

/-- The deterministic automaton of the first one has a state "p,q". In its intersection with the
second one the sets of "p,q" and "r" and of "p", "q" and "r" get the same name, and the word "b" is
lost, which both automata accept. -/
theorem intersection_misses_common_word :
    branching.determinize.IsTextbook ∧ guessing.IsTextbook ∧
      ¬ branching.determinize.ReadsBlank ∧ ¬ guessing.ReadsBlank ∧
      ∃ both, branching.determinize.intersection guessing = .ok both ∧
        ((∃ limit, branching.determinize.testWithin [['b']] limit = .ok (some true)) ∧
          ∃ limit, guessing.testWithin [['b']] limit = .ok (some true)) ∧
        ¬ ∃ limit, both.testWithin [['b']] limit = .ok (some true) := by
  have hbranching : branching.IsTextbook :=
    ⟨isBuilt_build (by decide), rfl, rfl, by decide +kernel⟩
  have hguessing : guessing.IsTextbook :=
    ⟨isBuilt_build (by decide), rfl, rfl, by decide +kernel⟩
  have hleft : branching.determinize.IsTextbook := hbranching.subsetMachine
  have hblank : ¬ guessing.ReadsBlank := by
    rintro ⟨t, ht, hread⟩
    rcases List.mem_cons.1 (mem_transitions_build.1 ht) with rfl | ht
    · simp [blank, blankChar] at hread
    · rcases List.mem_pair.1 ht with rfl | rfl <;> simp [blank, blankChar] at hread
  -- The search has come to its end after two layers, so no limit helps.
  have hfalse : ((branching.determinize.joined guessing).subsetMachine
      (branching.determinize.meets guessing)).testWithin [['b']] 2 = .ok (some false) := by
    decide +kernel
  refine ⟨hleft, hguessing, hbranching.not_readsBlank_subsetMachine, hblank, _,
    intersection_eq_ok (by rw [hleft.tapeCount_eq, hguessing.tapeCount_eq]), ⟨?_, ?_⟩, ?_⟩
  · exact ⟨2, by decide +kernel⟩
  · exact ⟨2, by decide +kernel⟩
  · exact (hleft.joined hguessing).subsetMachine.not_accepts_of_false hfalse

end MachineLang.Machine

import MachineLang.Proofs.Ambiguity
import MachineLang.Proofs.Subset

/-!
# Deterministic automata for the same words

Building a machine lists no target twice (`tidy_build`), so a textbook automaton that always reads
and has one target for each state and symbol passes the test for deterministic automata
(`IsTextbook.isStrictlyDeterministic_of_unique`). The automaton of the subset construction is one.
If no state has a comma in its name, it accepts the same words, and it decides each of them in one
layer more than the word has characters (`determinize_decides_same_words`).
-/

namespace MachineLang

/-- Two different characters cannot both be read. -/
theorem overlap_singleton_eq_false {x y : Symbol} (hx : x ≠ epsilon) (hy : y ≠ epsilon)
    (hxy : x ≠ y) : overlap [x] [y] = false := by
  unfold overlap
  simp [hx, hy, hxy]

namespace Machine

variable {m : Machine .finite} {accepting : SortedSet State → Bool} {p q : State} {w : Word}

/-! ## Deterministic automata -/

namespace IsTextbook

/-- What is listed for a pattern of a textbook automaton: one symbol, at least one target and none
twice. -/
theorem choice_spec (h : m.IsTextbook) {byRead : Choices .finite}
    (hbyRead : (p, byRead) ∈ m.choices.entries) {read : List Symbol}
    {targets : List (Target .finite)} (htargets : (read, targets) ∈ byRead.entries) :
    targets.Nodup ∧ targets ≠ [] ∧ ∃ x, read = [x] ∧ ∀ target ∈ targets,
      m.Reads p x target.state := by
  rw [SortedMap.mem_entries_iff] at hbyRead htargets
  obtain ⟨d, hd⟩ := h.built
  obtain ⟨rfl, -⟩ := of_new_eq_ok hd
  obtain ⟨hne, hnodup⟩ := tidy_build d p byRead hbyRead read targets htargets
  have hmem : ∀ target ∈ targets, (⟨p, read, target.state, target.action⟩ : Transition .finite) ∈
      (build d).transitions := fun target htarget =>
    mem_transitions_iff_holds.2 ⟨byRead, targets, hbyRead, htargets, htarget⟩
  -- There is a target, hence a transition, and that is what shows that the pattern is a single
  -- symbol.
  obtain ⟨first, hfirst⟩ := List.exists_mem_of_ne_nil _ hne
  obtain ⟨x, hx, -⟩ := h.exists_read (hmem first hfirst)
  dsimp only at hx
  subst hx
  exact ⟨hnodup, hne, x, rfl, hmem⟩

/-- A pattern of a textbook automaton that always reads is one symbol that is not empty. -/
theorem pattern_spec (h : m.IsTextbook) (hreads : m.ReadsAlways) {byRead : Choices .finite}
    (hbyRead : (p, byRead) ∈ m.choices.entries) {read : List Symbol} (hread : read ∈ byRead.keys) :
    ∃ x, read = [x] ∧ x ≠ epsilon := by
  obtain ⟨⟨_, targets⟩, htargets, rfl⟩ := List.mem_map.1 hread
  obtain ⟨-, hne, x, rfl, hmem⟩ := h.choice_spec hbyRead htargets
  obtain ⟨target, htarget⟩ := List.exists_mem_of_ne_nil _ hne
  refine ⟨x, rfl, ?_⟩
  rintro rfl
  exact hreads _ _ (hmem target htarget)

/-- With one target for each state and symbol, the choices of a state list no more than one target
for what is read. Two of them would be equal, and no target is listed twice. -/
theorem length_targets_le (h : m.IsTextbook)
    (hunique : ∀ p x q r, m.Reads p x q → m.Reads p x r → q = r) {byRead : Choices .finite}
    (hbyRead : (p, byRead) ∈ m.choices.entries) {read : List Symbol}
    {targets : List (Target .finite)} (htargets : (read, targets) ∈ byRead.entries) :
    targets.length ≤ 1 := by
  obtain ⟨hnodup, -, x, -, hmem⟩ := h.choice_spec hbyRead htargets
  match targets, hnodup, hmem with
  | [], _, _ => exact Nat.zero_le 1
  | [_], _, _ => exact Nat.le_refl 1
  | first :: second :: rest, hnodup, hmem =>
    -- Both targets are the same state, so the second one would be listed twice.
    have hstate : first.state = second.state :=
      hunique p x _ _ (hmem first (by simp)) (hmem second (by simp))
    have heq : first = second := by
      cases first
      cases second
      exact congrArg (fun state => (⟨state, ()⟩ : Target .finite)) hstate
    subst heq
    simp at hnodup

/-- With one target for each state and symbol, and if every transition reads, there is one way to go
on. -/
theorem isAmbiguous_eq_false (h : m.IsTextbook) (hreads : m.ReadsAlways)
    (hunique : ∀ p x q r, m.Reads p x q → m.Reads p x r → q = r) {byRead : Choices .finite}
    (hbyRead : (p, byRead) ∈ m.choices.entries) : isAmbiguous byRead = false := by
  -- The patterns are keys of a map, so they are different.
  have hkeys : byRead.keys.Pairwise (· ≠ ·) := by
    refine List.pairwise_map.2 (byRead.sorted.imp fun {e e'} hlt heq => ?_)
    rw [heq] at hlt
    simp at hlt
  unfold isAmbiguous
  rw [Bool.or_eq_false_iff]
  constructor
  · rw [List.any_eq_false]
    rintro ⟨read, targets⟩ htargets
    rw [decide_eq_true_iff, Nat.not_lt]
    exact h.length_targets_le hunique hbyRead htargets
  · refine anyOverlap_eq_false_iff.2 (hkeys.imp_of_mem fun {read read'} hr hr' hne => ?_)
    obtain ⟨x, rfl, hx⟩ := h.pattern_spec hreads hbyRead hr
    obtain ⟨y, rfl, hy⟩ := h.pattern_spec hreads hbyRead hr'
    exact overlap_singleton_eq_false hx hy fun hxy => hne (by rw [hxy])

/-- A textbook automaton that always reads and has one target for each state and symbol is
deterministic. -/
theorem isStrictlyDeterministic_of_unique (h : m.IsTextbook) (hreads : m.ReadsAlways)
    (hunique : ∀ p x q r, m.Reads p x q → m.Reads p x r → q = r) :
    m.isStrictlyDeterministic = true := by
  unfold isStrictlyDeterministic isDeterministic nonDeterministicStates
  rw [Bool.and_eq_true]
  constructor
  · rw [List.isEmpty_iff, List.map_eq_nil_iff, List.filter_eq_nil_iff]
    rintro ⟨p, byRead⟩ hbyRead
    rw [h.isAmbiguous_eq_false hreads hunique hbyRead]
    exact Bool.false_ne_true
  · rw [List.all_eq_true]
    rintro ⟨p, byRead⟩ hbyRead
    rw [List.all_eq_true]
    intro read hread
    obtain ⟨x, rfl, hx⟩ := h.pattern_spec hreads hbyRead hread
    simp [hx]

/-- The automaton of a subset construction is deterministic. -/
theorem isStrictlyDeterministic_subsetMachine (h : m.IsTextbook) :
    (m.subsetMachine accepting).isStrictlyDeterministic = true :=
  h.subsetMachine.isStrictlyDeterministic_of_unique h.readsAlways_subsetMachine
    fun _ _ _ _ hq hr => h.reads_subsetMachine_unique hq hr

/-! ## The words of a deterministic automaton -/

/-- A word leads to a set with a final state exactly if it is accepted. -/
theorem isDisjoint_follow_iff (h : m.IsTextbook) :
    (!(m.follow (m.closure m.initial) w).isDisjoint m.finals) = true ↔ m.Accepts w := by
  rw [Bool.not_eq_true', SortedSet.isDisjoint_eq_false_iff, h.accepts_iff_path]
  constructor
  · rintro ⟨q, hq, hfinal⟩
    exact ⟨q, hfinal, h.mem_follow_closure_iff.1 hq⟩
  · rintro ⟨q, hfinal, hpath⟩
    exact ⟨q, h.mem_follow_closure_iff.2 hpath, hfinal⟩

/-- The deterministic automaton accepts the same words, if there are no commas in names. -/
theorem accepts_determinize_iff (h : m.IsTextbook) (hb : ¬ m.ReadsBlank)
    (hcomma : ∀ q ∈ m.states, ',' ∉ q.toList) : m.determinize.Accepts w ↔ m.Accepts w := by
  have hempty : ∀ s : SortedSet State, s.isEmpty = true → (!s.isDisjoint m.finals) = false := by
    intro s hs
    rw [SortedSet.isEmpty_iff] at hs
    rw [Bool.not_eq_false', ← Bool.not_eq_false, SortedSet.isDisjoint_eq_false_iff]
    rintro ⟨q, hq, -⟩
    exact hs q hq
  have hwords := (h.accepts_subsetMachine_iff hempty hb).2 (h.clashesAgree_of_commaFree hcomma) w
  rw [← h.isDisjoint_follow_iff]
  exact hwords

end IsTextbook

/-- The subset construction makes a deterministic automaton that decides every word in one layer
more than the word has characters: positively if the original accepts the word in any number of
layers, and negatively if it does not, be it that it rejects the word or that it never decides. -/
theorem determinize_decides_same_words (m : Machine .finite) (h : m.IsTextbook)
    (hb : ¬ m.ReadsBlank) (hcomma : ∀ q ∈ m.states, ',' ∉ q.toList) :
    m.determinize.IsBuilt ∧ m.determinize.isStrictlyDeterministic = true ∧
      ∀ w : Word,
        ((∃ limit, m.testWithin [w] limit = .ok (some true)) →
          m.determinize.testWithin [w] (w.length + 1) = .ok (some true)) ∧
        ((¬ ∃ limit, m.testWithin [w] limit = .ok (some true)) →
          m.determinize.testWithin [w] (w.length + 1) = .ok (some false)) := by
  have hwhole : m.determinize.IsTextbook := h.subsetMachine
  refine ⟨hwhole.built, h.isStrictlyDeterministic_subsetMachine, fun w => ?_⟩
  obtain ⟨hyes, hno⟩ := hwhole.testWithin_of_readsAlways h.readsAlways_subsetMachine w
  rw [h.accepts_determinize_iff hb hcomma] at hyes hno
  exact ⟨hyes, hno⟩

/-- The automaton that may wait reads no blank. -/
theorem not_readsBlank_waiting : ¬ waiting.ReadsBlank := by
  rintro ⟨t, ht, hread⟩
  rcases List.mem_pair.1 (mem_transitions_build.1 ht) with rfl | rfl
  · simp [blank, epsilon] at hread
  · simp [blank, blankChar] at hread

/-- No state of the automaton that may wait has a comma in its name. -/
theorem comma_notMem_waiting : ∀ q ∈ waiting.states, ',' ∉ q.toList := by
  intro q hq
  have hstates : waiting.states.toList = ["done", "wait"] := by decide +kernel
  rw [← SortedSet.mem_toList, hstates] at hq
  rcases List.mem_pair.1 hq with rfl | rfl <;> decide

/-- The deterministic automaton decides at once what the automaton that may wait never decides.
Within two layers it accepts one word and rejects another, about which the waiting one stays
undecided at every limit. -/
theorem determinize_decides_waiting :
    waiting.IsTextbook ∧ ¬ waiting.ReadsBlank ∧ (∀ q ∈ waiting.states, ',' ∉ q.toList) ∧
      waiting.determinize.isStrictlyDeterministic = true ∧
      waiting.determinize.testWithin [['a']] 2 = .ok (some true) ∧
      waiting.determinize.testWithin [['b']] 2 = .ok (some false) ∧
      ∀ limit, waiting.testWithin [['b']] limit = .ok none := by
  obtain ⟨-, hdeterministic, hwords⟩ := determinize_decides_same_words waiting isTextbook_waiting
    not_readsBlank_waiting comma_notMem_waiting
  have hfalse : waiting.determinize.testWithin [['b']] 2 = .ok (some false) := by decide +kernel
  have hno : ¬ waiting.Accepts ['b'] := by
    intro haccepts
    have htrue : waiting.determinize.testWithin [['b']] 2 = .ok (some true) :=
      (hwords ['b']).1 haccepts
    rw [hfalse] at htrue
    simp at htrue
  have hyes : waiting.Accepts ['a'] := ⟨2, by decide +kernel⟩
  refine ⟨isTextbook_waiting, not_readsBlank_waiting, comma_notMem_waiting, hdeterministic,
    (hwords ['a']).1 hyes, hfalse, fun limit => ?_⟩
  -- Waiting is a move from the start to itself, so there are paths of every length.
  have hmove : waiting.Move (waiting.reading "wait" [] ['b']) (waiting.reading "wait" [] ['b']) :=
    isTextbook_waiting.move_reading_iff.2 ⟨epsilon, "wait", ['b'],
      mem_transitions_build.2 List.mem_cons_self, rfl, rfl⟩
  have hmoves : ∀ n, Moves waiting.Move n (waiting.reading "wait" [] ['b'])
      (waiting.reading "wait" [] ['b']) := by
    intro n
    induction n with
    | zero => exact .refl _
    | succ n ih => exact .step hmove ih
  have hnone : waiting.verdictFrom limit [waiting.reading waiting.initial [] ['b']] = none := by
    refine verdict_eq_none_iff.2 ⟨?_, _, hmoves limit⟩
    rintro ⟨n, -, d, hpath, hd⟩
    exact hno (isTextbook_waiting.accepts_iff_moves.2 ⟨n, d, hpath, hd⟩)
  rw [isTextbook_waiting.testWithin_eq_verdict, hnone]

end Machine

end MachineLang

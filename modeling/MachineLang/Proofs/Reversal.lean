import MachineLang.Machine.Regular
import MachineLang.Proofs.LongestReads
import MachineLang.Proofs.Names

/-!
# The words of a reversed automaton

A reversed automaton has every transition turned around and every symbol reversed, so its paths are
those of the automaton backwards (`path_reverse_iff`), and a word labels one from the initial state
to a final one if the reversed word does in the automaton. But a step takes the longest reads that
match, and backwards others are the longest. So the reversed automaton accepts the right words
exactly if both lose the same ones to longer reads (`reverse_accepts_iff_same_losses`). None are
lost if the symbols that are read from a state, and those that are read into a state, do not get in
each other's way; in general a word may be lost in one direction only (`reverse_accepts_lost_word`).
-/

namespace MachineLang.Machine

variable {m : Machine .finite} {p q r : State} {w : Word} {x : Symbol}

/-- Of two different symbols that are read into the same state none ends the other, except that one
may be empty if the other is as long as the longest symbol. -/
def EntersFreely (m : Machine .finite) : Prop :=
  ∀ p x q y r, m.Reads q x p → m.Reads r y p → x <:+ y →
    x = y ∨ (x = epsilon ∧ y.length = m.width)

/-! ## The reversed automaton as a whole -/

/-- The transitions of a reversed automaton are those of the automaton, turned around, and the ones
that leave the new state. -/
theorem mem_transitions_reverse {t : Transition .finite} :
    t ∈ m.reverse.transitions ↔
      (∃ s ∈ m.transitions, t = reverseTransition s) ∨
        ∃ f ∈ m.finals, t = m.epsilonTransition m.freshState f := by
  unfold reverse
  rw [mem_transitions_build]
  simp only [List.mem_append, List.mem_map, SortedSet.mem_toList, eq_comm (b := t)]
  rfl

/-- The former initial state is the only final one. -/
theorem mem_finals_reverse : q ∈ m.reverse.finals ↔ q = m.initial := List.mem_singleton

/-- The symbols of a reversed automaton are those of the automaton, reversed. The transitions that
lead from the new initial state read nothing and add none. -/
theorem mem_alphabet_reverse (hm : m.WellFormed) :
    x ∈ m.reverse.alphabet ↔ x.reverse ∈ m.alphabet := by
  have hadds : ∀ y : Symbol, y ∈ SortedSet.ofList (m.alphabet.toList.map List.reverse) ↔
      y.reverse ∈ m.alphabet := by
    intro y
    simp only [SortedSet.mem_ofList, List.mem_map, SortedSet.mem_toList]
    constructor
    · rintro ⟨z, hz, rfl⟩
      rwa [List.reverse_reverse]
    · exact fun hy => ⟨y.reverse, hy, List.reverse_reverse y⟩
  -- A transition reads a reversed symbol, or nothing on the way to a former final state.
  have hread : ∀ t ∈ m.reverse.transitions, ∀ y ∈ t.read,
      y = epsilon ∨ y = blank ∨ y.reverse ∈ m.alphabet := by
    intro t ht y hy
    rcases mem_transitions_reverse.1 ht with ⟨s, hs, rfl⟩ | ⟨f, -, rfl⟩
    · obtain ⟨z, hz, rfl⟩ := List.mem_map.1 hy
      rw [List.reverse_reverse]
      rcases hm.read_mem s hs z hz with rfl | rfl | hz
      · exact .inl rfl
      · exact .inr (.inl rfl)
      · exact .inr (.inr hz)
    · exact .inl (List.eq_of_mem_replicate hy)
  unfold reverse at hread ⊢
  simp only [mem_transitions_build] at hread
  rw [mem_alphabet_build_of_read, hadds]
  · simpa only [hadds] using hread
  · -- The empty symbol and the blank are the same backwards, so reversing adds neither.
    intro y hy
    obtain ⟨hne, hneb⟩ := hm.alphabet_ne _ ((hadds y).1 hy)
    constructor
    · rintro rfl
      exact hne rfl
    · rintro rfl
      exact hneb rfl

/-- A reversed automaton reads with the same width. -/
theorem width_reverse (hm : m.WellFormed) : m.reverse.width = m.width := by
  refine width_congr fun n => ?_
  simp only [mem_alphabet_reverse hm]
  constructor
  · intro h x hx
    rw [← List.length_reverse]
    exact h x.reverse (by rwa [List.reverse_reverse])
  · intro h x hx
    rw [← List.length_reverse]
    exact h x.reverse hx

/-- A reversed well-formed automaton is one that a definition describes. -/
theorem isBuilt_reverse (hm : m.WellFormed) : m.reverse.IsBuilt := by
  refine hm.isBuilt_build_of_fits rfl fun t hmem => ?_
  simp only [List.mem_append, List.mem_map, SortedSet.mem_toList] at hmem
  rcases hmem with ⟨s, hs, rfl⟩ | ⟨f, -, rfl⟩
  · have hfits := hm.fits s hs
    unfold fits reverseTransition at *
    rwa [List.length_map]
  · exact hm.fits_epsilonTransition _ _

namespace HasOneTape

/-- A reversed automaton has one tape if the automaton has. -/
theorem reverse (h : m.HasOneTape) : m.reverse.HasOneTape where
  built := isBuilt_reverse h.wellFormed
  tapeCount_eq := by
    have hcount : m.reverse.tapeCount = m.tapeCount := h.wellFormed.tapeCount_build_eq rfl
    rw [hcount, h.tapeCount_eq]
  bounded := h.bounded

/-! ## Paths backwards -/

/-- A transition of a reversed automaton is one of the automaton, turned around, or leaves the new
state for a final one. -/
theorem reads_reverse_iff (h : m.HasOneTape) :
    m.reverse.Reads p x q ↔
      m.Reads q x.reverse p ∨ (x = epsilon ∧ p = m.freshState ∧ q ∈ m.finals) := by
  unfold Reads
  rw [mem_transitions_reverse]
  simp only [h.eq_epsilonTransition_iff]
  constructor
  · rintro (⟨s, hs, heq⟩ | ⟨f, hf, rfl, rfl, rfl⟩)
    · -- The word that is read is turned around along with the transition.
      obtain ⟨y, hy, hread⟩ := h.exists_read hs
      unfold reverseTransition at heq
      rw [hy] at heq
      injection heq with hsource hx htarget _
      obtain rfl : x = y.reverse := List.singleton_inj.1 hx
      rw [List.reverse_reverse, hsource, htarget]
      exact .inl hread
    · exact .inr ⟨rfl, rfl, hf⟩
  · rintro (ht | ⟨rfl, rfl, hf⟩)
    · refine .inl ⟨_, ht, ?_⟩
      unfold reverseTransition
      simp only [List.map_cons, List.map_nil, List.reverse_reverse]
    · exact .inr ⟨q, hf, rfl, rfl, rfl⟩

/-- The paths of a reversed automaton from a state of the automaton are those to this state,
backwards. -/
theorem path_reverse_iff (h : m.HasOneTape) (hp : p ∈ m.states) :
    m.reverse.Path p w r ↔ m.Path r w.reverse p := by
  constructor
  · intro hpath
    -- The induction is on the path; its first transition is the last one of the path backwards.
    induction hpath with
    | refl q => exact .refl q
    | @step p q r x w hread _ ih =>
      rcases h.reads_reverse_iff.1 hread with hback | ⟨-, rfl, -⟩
      · have hfirst : m.Path r w.reverse q := ih (h.wellFormed.source_mem _ hback)
        rw [List.reverse_append]
        exact hfirst.append (.single hback)
      · exact absurd hp m.freshState_notMem
  · intro hpath
    generalize hv : w.reverse = v at hpath
    induction hpath generalizing w with
    | refl q =>
      obtain rfl := List.reverse_eq_nil_iff.1 hv
      exact .refl q
    | @step r q p x v hread _ ih =>
      have hturned : m.reverse.Reads q x.reverse r := by
        rw [h.reads_reverse_iff, List.reverse_reverse]
        exact .inl hread
      have hrest : m.reverse.Path p v.reverse q := ih hp (List.reverse_reverse v)
      have hw : w = v.reverse ++ x.reverse := by
        rw [← List.reverse_append, ← hv, List.reverse_reverse]
      rw [hw]
      exact hrest.append (.single hturned)

/-- A path of the reversed automaton from its initial state to its final one reads a word if a path
of the automaton from its initial state to a final one reads the reversed word. -/
theorem exists_path_reverse_iff (h : m.HasOneTape) :
    (∃ q ∈ m.reverse.finals, m.reverse.Path m.reverse.initial w q) ↔
      ∃ f ∈ m.finals, m.Path m.initial w.reverse f := by
  have hinitial : m.reverse.initial = m.freshState := rfl
  constructor
  · rintro ⟨q, hq, hpath⟩
    obtain rfl := mem_finals_reverse.1 hq
    rw [hinitial] at hpath
    -- The new state is not the former initial one, so the path leaves it for a final state.
    rcases hpath.cases_head with ⟨hfresh, -⟩ | ⟨x, f, v, hread, hrest, rfl⟩
    · exact absurd (hfresh ▸ h.wellFormed.initial_mem) m.freshState_notMem
    · rcases h.reads_reverse_iff.1 hread with hback | ⟨rfl, -, hf⟩
      · exact absurd (h.wellFormed.target_mem _ hback) m.freshState_notMem
      · exact ⟨f, hf, (h.path_reverse_iff (h.wellFormed.final_mem f hf)).1 hrest⟩
  · rintro ⟨f, hf, hpath⟩
    refine ⟨m.initial, mem_finals_reverse.2 rfl, ?_⟩
    have hinto : m.reverse.Reads m.freshState epsilon f :=
      h.reads_reverse_iff.2 (.inr ⟨rfl, rfl, hf⟩)
    exact .step hinto ((h.path_reverse_iff (h.wellFormed.final_mem f hf)).2 hpath)

/-! ## Words that are lost -/

/-- Symbols of at most one character do not get in each other's way at the end either. -/
theorem entersFreely_of_width_eq_one (h : m.HasOneTape) (hw : m.width = 1) : m.EntersFreely := by
  intro p x q y r _ hy hends
  have hlength : y.length ≤ m.width := h.wellFormed.length_read_le hy (List.mem_singleton_self y)
  rcases Nat.lt_or_ge x.length y.length with hlt | hge
  · exact .inr ⟨List.length_eq_zero_iff.1 (by omega), by omega⟩
  · exact .inl (hends.eq_of_length_le hge)

/-- A reversed automaton reads freely if the automaton enters its states freely. -/
theorem readsFreely_reverse (h : m.HasOneTape) (hfree : m.EntersFreely) :
    m.reverse.ReadsFreely := by
  intro p x q y r hx hy hprefix
  rw [width_reverse h.wellFormed]
  -- From the new state only the empty symbol is read, and no other state is like that.
  rcases h.reads_reverse_iff.1 hx with hback | ⟨rfl, rfl, -⟩
  · rcases h.reads_reverse_iff.1 hy with hback' | ⟨-, rfl, -⟩
    · rcases hfree p _ q _ r hback hback' (List.reverse_suffix.2 hprefix) with heq | ⟨hempty, hlong⟩
      · exact .inl (List.reverse_inj.1 heq)
      · refine .inr ⟨List.reverse_eq_nil_iff.1 hempty, ?_⟩
        rw [← hlong, List.length_reverse]
    · exact absurd (h.wellFormed.target_mem _ hback) m.freshState_notMem
  · rcases h.reads_reverse_iff.1 hy with hback | ⟨rfl, -, -⟩
    · exact absurd (h.wellFormed.target_mem _ hback) m.freshState_notMem
    · exact .inl rfl

/-- A reversed automaton is right about a word if and only if both lose it or neither does. -/
theorem accepts_reverse_iff (h : m.HasOneTape) :
    (m.reverse.Accepts w ↔ m.Accepts w.reverse) ↔ (m.reverse.Loses w ↔ m.Loses w.reverse) := by
  have hpaths : (∃ q ∈ m.reverse.finals, m.reverse.Path m.reverse.initial w q) ↔
      ∃ f ∈ m.finals, m.Path m.initial w.reverse f := h.exists_path_reverse_iff
  unfold Loses
  constructor
  · intro hright
    rw [hpaths, hright]
  · intro hlosses
    -- An accepted word labels a path, so if the other automaton rejects it, that one loses it.
    constructor
    · intro hback
      by_contra hno
      have hreads := hpaths.1 (h.reverse.exists_path_of_accepts hback)
      exact (hlosses.2 ⟨hreads, hno⟩).2 hback
    · intro hforth
      by_contra hno
      have hreads := hpaths.2 (h.exists_path_of_accepts hforth)
      exact (hlosses.1 ⟨hreads, hno⟩).2 hforth

end HasOneTape

/-- A path of the reversed automaton reads a word exactly if a path of the automaton reads the
reversed word. The reversed automaton accepts a word exactly if the automaton accepts the reversed
word, if and only if both or neither of them lose it to longer reads. This is so for every word if
the symbols that are read from a state and those that are read into a state do not get in each
other's way; in particular, if no symbol is longer than one character. -/
theorem reverse_accepts_iff_same_losses (m : Machine .finite) (h : m.HasOneTape) :
    m.reverse.IsBuilt ∧
    (∀ w : Word, (∃ q ∈ m.reverse.finals, m.reverse.Path m.reverse.initial w q) ↔
      ∃ q ∈ m.finals, m.Path m.initial w.reverse q) ∧
    (∀ w : Word, ((∃ limit, m.reverse.testWithin [w] limit = .ok (some true)) ↔
        ∃ limit, m.testWithin [w.reverse] limit = .ok (some true)) ↔
      (m.reverse.Loses w ↔ m.Loses w.reverse)) ∧
    (m.ReadsFreely → m.EntersFreely → ∀ w : Word,
      (∃ limit, m.reverse.testWithin [w] limit = .ok (some true)) ↔
        ∃ limit, m.testWithin [w.reverse] limit = .ok (some true)) ∧
    (m.width = 1 → m.ReadsFreely ∧ m.EntersFreely) := by
  refine ⟨h.reverse.built, fun w => h.exists_path_reverse_iff, fun w => h.accepts_reverse_iff,
    ?_, ?_⟩
  · intro hreads henters w
    have hback : ¬ m.reverse.Loses w := h.reverse.not_loses (h.readsFreely_reverse henters) w
    have hforth : ¬ m.Loses w.reverse := h.not_loses hreads w.reverse
    exact h.accepts_reverse_iff.2 (iff_of_false hback hforth)
  · exact fun hw => ⟨h.readsFreely_of_width_eq_one hw, h.entersFreely_of_width_eq_one hw⟩

/-- An automaton for any number of words "abc", one behind the other, but at least one. -/
def spelling : Machine .finite :=
  build {
    transitions := [⟨"spell", [['a', 'b', 'c']], "spelt", ()⟩, ⟨"spelt", [epsilon], "spell", ()⟩]
    initial := "spell"
    finals := .single "spelt"
    bounded := true }

/-- The reversed automaton accepts "cbacba", but not "abc": nothing gets in the way of the only
symbol, which is as long as the longest one. -/
theorem reverse_spelling :
    spelling.HasOneTape ∧ spelling.ReadsFreely ∧ spelling.EntersFreely ∧
      (∃ limit, spelling.reverse.testWithin [['c', 'b', 'a', 'c', 'b', 'a']] limit =
        .ok (some true)) ∧
      ¬ ∃ limit, spelling.reverse.testWithin [['a', 'b', 'c']] limit = .ok (some true) := by
  have hspelling : spelling.HasOneTape := ⟨isBuilt_build (by decide), rfl, rfl⟩
  have hcases : ∀ {p x q}, spelling.Reads p x q →
      p = "spell" ∧ x = ['a', 'b', 'c'] ∧ q = "spelt" ∨ p = "spelt" ∧ x = [] ∧ q = "spell" := by
    intro p x q hread
    rcases List.mem_pair.1 (mem_transitions_build.1 hread) with heq | heq
    · injection heq with hp hx hq _
      exact .inl ⟨hp, List.singleton_inj.1 hx, hq⟩
    · injection heq with hp hx hq _
      exact .inr ⟨hp, List.singleton_inj.1 hx, hq⟩
  -- Two different transitions never leave the same state, nor enter the same one.
  have hreads : spelling.ReadsFreely := by
    intro p x q y r hx hy _
    rcases hcases hx with ⟨rfl, rfl, rfl⟩ | ⟨rfl, rfl, rfl⟩ <;>
      rcases hcases hy with ⟨hp, rfl, rfl⟩ | ⟨hp, rfl, rfl⟩ <;> simp at hp ⊢
  have henters : spelling.EntersFreely := by
    intro p x q y r hx hy _
    rcases hcases hx with ⟨rfl, rfl, rfl⟩ | ⟨rfl, rfl, rfl⟩ <;>
      rcases hcases hy with ⟨rfl, rfl, hp⟩ | ⟨rfl, rfl, hp⟩ <;> simp at hp ⊢
  obtain ⟨-, -, -, hfree, -⟩ := reverse_accepts_iff_same_losses spelling hspelling
  have hwords := hfree hreads henters
  refine ⟨hspelling, hreads, henters, ?_, ?_⟩
  · rw [hwords]
    exact ⟨4, by decide +kernel⟩
  · rw [hwords]
    have hdies : spelling.testWithin [['c', 'b', 'a']] 1 = .ok (some false) := by decide +kernel
    exact hspelling.not_accepts_of_false hdies

/-- An automaton that goes the wrong way by "ab" and to its final state by "a" and "b". -/
def straying : Machine .finite :=
  build {
    transitions := [⟨"start", [['a', 'b']], "lost", ()⟩, ⟨"start", [['a']], "half", ()⟩,
      ⟨"half", [['b']], "home", ()⟩]
    initial := "start"
    finals := .single "home"
    bounded := true }

/-- The automaton reads "ab" at once and rejects it. Backwards "b" comes first and no longer read
matches, so the reversed automaton accepts "ba". -/
theorem reverse_accepts_lost_word :
    straying.HasOneTape ∧
      (∃ limit, straying.reverse.testWithin [['b', 'a']] limit = .ok (some true)) ∧
      ¬ ∃ limit, straying.testWithin [['b', 'a'].reverse] limit = .ok (some true) := by
  have hstraying : straying.HasOneTape := ⟨isBuilt_build (by decide), rfl, rfl⟩
  have hdies : straying.testWithin [['b', 'a'].reverse] 2 = .ok (some false) := by decide +kernel
  exact ⟨hstraying, ⟨4, by decide +kernel⟩, hstraying.not_accepts_of_false hdies⟩

end MachineLang.Machine

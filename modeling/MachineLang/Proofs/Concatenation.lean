import MachineLang.Machine.Regular
import MachineLang.Proofs.Names
import MachineLang.Proofs.Paths
import Mathlib.Data.List.Infix

/-!
# The words of a concatenation

A concatenation holds the transitions of both automata, those of the second one under names that the
first one does not use, and bridges that read nothing from the final states of the first one to the
initial state of the second one (`reads_chained_iff`). There is no way back over a bridge, so a path
that leaves the first automaton is a path to one of its final states and a path of the second
automaton behind it (`path_chained_iff`). Only the second automaton has final states, so the
concatenation accepts the words that are one of the first automaton and one of the second behind it
(`concatenate_accepts_iff_append`).
-/

namespace MachineLang.Machine

variable {a b : Machine .finite} {p q r : State} {w : Word} {x : Symbol}

/-- The concatenation of two automata with equal numbers of tapes. -/
def chained (a b : Machine .finite) : Machine .finite := a.concatenateRenamed b (a.apart b)

/-- Automata with equal numbers of tapes have a concatenation. -/
theorem concatenate_eq_ok (ht : a.tapeCount = b.tapeCount) :
    a.concatenate b = .ok (a.chained b) := by
  unfold concatenate sameTapes
  rw [if_pos ht]
  rfl

/-! ## The concatenation as a whole -/

/-- The transitions of a concatenation are those of both automata and the bridges between them. -/
theorem mem_transitions_chained {t : Transition .finite} :
    t ∈ (a.chained b).transitions ↔
      t ∈ a.transitions ∨
      (∃ s ∈ b.transitions, t = mapTransition (a.apart b).rename s) ∨
      ∃ f ∈ a.finals, t = a.epsilonTransition f ((a.apart b).rename b.initial) := by
  unfold chained concatenateRenamed
  rw [mem_transitions_build]
  simp only [List.mem_append, List.mem_map, SortedSet.mem_toList, or_assoc, eq_comm (b := t)]
  rfl

/-- The final states of a concatenation are those of the second automaton. -/
theorem mem_finals_chained :
    q ∈ (a.chained b).finals ↔ ∃ f ∈ b.finals, (a.apart b).rename f = q := by
  unfold chained concatenateRenamed build
  simp only [SortedSet.mem_ofList, List.mem_map, SortedSet.mem_toList]

/-- The symbols of a concatenation are those of both automata. -/
theorem mem_alphabet_chained (ha : a.WellFormed) (hb : b.WellFormed) :
    x ∈ (a.chained b).alphabet ↔ x ∈ a.alphabet ∨ x ∈ b.alphabet := by
  refine mem_alphabet_build_of_parts ha hb (fun _ => SortedSet.mem_union) fun t ht y hy => ?_
  rcases mem_transitions_chained.1 ht with ht | ⟨s, hs, rfl⟩ | ⟨f, -, rfl⟩
  · exact .inr (.inl ⟨t, ht, hy⟩)
  · exact .inr (.inr ⟨s, hs, hy⟩)
  · exact .inl (List.eq_of_mem_replicate hy)

/-- The concatenation of well-formed automata is one that a definition describes. -/
theorem isBuilt_chained (ha : a.WellFormed) (hb : b.WellFormed)
    (ht : a.tapeCount = b.tapeCount) : (a.chained b).IsBuilt := by
  refine ha.isBuilt_build_of_fits rfl fun t hmem => ?_
  simp only [List.mem_append, List.mem_map, SortedSet.mem_toList, or_assoc] at hmem
  rcases hmem with hmem | ⟨s, hs, rfl⟩ | ⟨f, -, rfl⟩
  · exact ha.fits t hmem
  · rw [ht]
    exact hb.fits s hs
  · exact ha.fits_epsilonTransition _ _

/-- The second automaton is part of a concatenation under its new names. No other transition leaves
a renamed state, since those of the first automaton and the bridges leave states that the new names
avoid. -/
theorem embedding_chained (ha : a.WellFormed) (hb : b.WellFormed) (hw : a.width ≤ b.width) :
    Embedding b (a.chained b) (a.apart b).rename where
  width_eq := by
    rw [width_eq_max fun _ => mem_alphabet_chained ha hb]
    omega
  target_mem := hb.target_mem
  map_mem t ht := mem_transitions_chained.2 (.inr (.inl ⟨t, ht, rfl⟩))
  -- A transition that leaves a renamed state is neither one of the first automaton nor a bridge:
  -- both start in a state of the first, which the new names avoid.
  of_mem q hq t ht hsource := by
    rcases mem_transitions_chained.1 ht with ht | ⟨s, hs, rfl⟩ | ⟨f, hf, rfl⟩
    · exact absurd (hsource ▸ ha.source_mem t ht) (rename_apart_notMem hq)
    · exact ⟨s, hs, rename_apart_injective (hb.source_mem s hs) hq hsource, rfl⟩
    · have hf' : f = (a.apart b).rename q := hsource
      exact absurd (hf' ▸ ha.final_mem f hf) (rename_apart_notMem hq)
  final_iff q hq := by
    rw [mem_finals_chained]
    constructor
    · rintro ⟨f, hf, hname⟩
      rwa [← rename_apart_injective (hb.final_mem f hf) hq hname]
    · exact fun h => ⟨q, h, rfl⟩

namespace IsTextbook

/-- The concatenation of two textbook automata is one. -/
theorem chained (ha : a.IsTextbook) (hb : b.IsTextbook) : (a.chained b).IsTextbook where
  built := isBuilt_chained ha.wellFormed hb.wellFormed (by rw [ha.tapeCount_eq, hb.tapeCount_eq])
  tapeCount_eq := by
    have hcount : (a.chained b).tapeCount = a.tapeCount := ha.wellFormed.tapeCount_build_eq rfl
    rw [hcount, ha.tapeCount_eq]
  bounded := ha.bounded
  width_eq := by
    rw [width_eq_max fun _ => mem_alphabet_chained ha.wellFormed hb.wellFormed, ha.width_eq,
      hb.width_eq]
    rfl

/-! ## Paths over the bridge -/

/-- A transition that leaves a state of the first automaton is one of the first automaton or a
bridge. -/
theorem reads_chained_iff (ha : a.IsTextbook) (hb : b.IsTextbook) (hp : p ∈ a.states) :
    (a.chained b).Reads p x q ↔
      a.Reads p x q ∨ (p ∈ a.finals ∧ x = epsilon ∧ q = (a.apart b).rename b.initial) := by
  unfold Reads
  rw [mem_transitions_chained]
  simp only [ha.hasOneTape.eq_epsilonTransition_iff]
  constructor
  · -- A renamed transition of the second automaton cannot leave a state of the first.
    rintro (ht | ⟨s, hs, heq⟩ | ⟨f, hf, rfl, rfl, rfl⟩)
    · exact .inl ht
    · injection heq with hsource _ _ _
      have hsource' : p = (a.apart b).rename s.source := hsource
      exact absurd (hsource' ▸ hp) (rename_apart_notMem (hb.wellFormed.source_mem s hs))
    · exact .inr ⟨hf, rfl, rfl⟩
  · rintro (ht | ⟨hf, rfl, rfl⟩)
    · exact .inl ht
    · exact .inr (.inr ⟨p, hf, rfl, rfl, rfl⟩)

/-- A path from a state of the first automaton stays in it, or it goes on from one of its final
states as a path of the second automaton. -/
theorem path_chained_iff (ha : a.IsTextbook) (hb : b.IsTextbook) (hp : p ∈ a.states) :
    (a.chained b).Path p w r ↔
      a.Path p w r ∨ ∃ u v f s, w = u ++ v ∧ f ∈ a.finals ∧ a.Path p u f ∧
        b.Path b.initial v s ∧ r = (a.apart b).rename s := by
  have hwidth : a.width ≤ b.width := by rw [ha.width_eq, hb.width_eq]
  have hsecond : ∀ {v : Word} {r : State},
      (a.chained b).Path ((a.apart b).rename b.initial) v r ↔
        ∃ s, b.Path b.initial v s ∧ r = (a.apart b).rename s :=
    (embedding_chained ha.wellFormed hb.wellFormed hwidth).path_iff hb.wellFormed.initial_mem
  have hown : ∀ t ∈ a.transitions, t ∈ (a.chained b).transitions :=
    fun t ht => mem_transitions_chained.2 (.inl ht)
  constructor
  · intro hpath
    -- The induction is on the path; behind a bridge it is a path of the second automaton.
    induction hpath with
    | refl q => exact .inl (.refl q)
    | @step p q r x w hread hpath ih =>
      rcases (ha.reads_chained_iff hb hp).1 hread with hread | ⟨hf, rfl, rfl⟩
      · rcases ih (ha.wellFormed.target_mem _ hread) with hrest | ⟨u, v, f, s, rfl, hf, hu, hv, rfl⟩
        · exact .inl (.step hread hrest)
        · refine .inr ⟨x ++ u, v, f, s, ?_, hf, .step hread hu, hv, rfl⟩
          rw [List.append_assoc]
      · obtain ⟨s, hv, rfl⟩ := hsecond.1 hpath
        exact .inr ⟨[], w, p, s, rfl, hf, .refl p, hv, rfl⟩
  · rintro (hpath | ⟨u, v, f, s, rfl, hf, hu, hv, rfl⟩)
    · exact hpath.mono hown
    · have hbridge : (a.chained b).Reads f epsilon ((a.apart b).rename b.initial) :=
        (ha.reads_chained_iff hb (ha.wellFormed.final_mem f hf)).2 (.inr ⟨hf, rfl, rfl⟩)
      have hrest : (a.chained b).Path f ([] ++ v) ((a.apart b).rename s) :=
        .step hbridge (hsecond.2 ⟨s, hv, rfl⟩)
      exact (hu.mono hown).append hrest

/-- A concatenation accepts a word if it is one of the first automaton and one of the second behind
it. -/
theorem accepts_chained_iff (ha : a.IsTextbook) (hb : b.IsTextbook) :
    (a.chained b).Accepts w ↔ ∃ u v, w = u ++ v ∧ a.Accepts u ∧ b.Accepts v := by
  have hinitial : a.initial ∈ a.states := ha.wellFormed.initial_mem
  simp only [(ha.chained hb).accepts_iff_path, ha.accepts_iff_path, hb.accepts_iff_path]
  constructor
  · rintro ⟨q, hq, hpath⟩
    obtain ⟨g, hg, rfl⟩ := mem_finals_chained.1 hq
    have hgs : g ∈ b.states := hb.wellFormed.final_mem g hg
    rcases (ha.path_chained_iff hb hinitial).1 hpath with hfirst |
      ⟨u, v, f, s, rfl, hf, hu, hv, hname⟩
    · -- The final state would be one of the first automaton.
      exact absurd (hfirst.mem_states ha.wellFormed hinitial) (rename_apart_notMem hgs)
    · have hs : s ∈ b.states := hv.mem_states hb.wellFormed hb.wellFormed.initial_mem
      obtain rfl := rename_apart_injective hgs hs hname
      exact ⟨u, v, rfl, ⟨f, hf, hu⟩, g, hg, hv⟩
  · rintro ⟨u, v, rfl, ⟨f, hf, hu⟩, g, hg, hv⟩
    exact ⟨_, mem_finals_chained.2 ⟨g, hg, rfl⟩,
      (ha.path_chained_iff hb hinitial).2 (.inr ⟨u, v, f, g, rfl, hf, hu, hv, rfl⟩)⟩

end IsTextbook

/-- The concatenation of two textbook automata accepts exactly the words that are a word of the
first one and a word of the second one behind it, whatever names of states the automata share. -/
theorem concatenate_accepts_iff_append (a b : Machine .finite) (ha : a.IsTextbook)
    (hb : b.IsTextbook) :
    ∃ both, a.concatenate b = .ok both ∧ both.IsBuilt ∧
      ∀ w : Word, (∃ limit, both.testWithin [w] limit = .ok (some true)) ↔
        ∃ u v, w = u ++ v ∧ (∃ limit, a.testWithin [u] limit = .ok (some true)) ∧
          ∃ limit, b.testWithin [v] limit = .ok (some true) := by
  have htapes : a.tapeCount = b.tapeCount := by rw [ha.tapeCount_eq, hb.tapeCount_eq]
  exact ⟨a.chained b, concatenate_eq_ok htapes, (ha.chained hb).built,
    fun w => ha.accepts_chained_iff hb⟩

/-- An automaton for the word "b". Its states have the same names as those of the automaton that may
wait. -/
def knocking : Machine .finite :=
  build {
    transitions := [⟨"wait", [['b']], "done", ()⟩]
    initial := "wait"
    finals := .single "done"
    bounded := true }

/-- Knocking and then waiting accepts "ba", but not "ab", which does not begin with a word of the
first automaton. -/
theorem concatenate_knocking_waiting :
    knocking.IsTextbook ∧ waiting.IsTextbook ∧
      ∃ both, knocking.concatenate waiting = .ok both ∧
        (∃ limit, both.testWithin [['b', 'a']] limit = .ok (some true)) ∧
        ¬ ∃ limit, both.testWithin [['a', 'b']] limit = .ok (some true) := by
  have hknocking : knocking.IsTextbook := ⟨isBuilt_build (by decide), rfl, rfl, by decide +kernel⟩
  obtain ⟨both, hboth, -, hwords⟩ :=
    concatenate_accepts_iff_append knocking waiting hknocking isTextbook_waiting
  refine ⟨hknocking, isTextbook_waiting, both, hboth, ?_, ?_⟩
  · rw [hwords]
    exact ⟨['b'], ['a'], rfl, ⟨2, by decide +kernel⟩, ⟨2, by decide +kernel⟩⟩
  · rw [hwords]
    rintro ⟨u, v, hword, hu, -⟩
    -- The automaton dies out on every beginning of the word.
    have hdies : ∀ u ∈ ['a', 'b'].inits, knocking.testWithin [u] 3 = .ok (some false) := by
      decide +kernel
    exact hknocking.not_accepts_of_false (hdies u ((List.mem_inits u _).2 ⟨v, hword.symm⟩)) hu

end MachineLang.Machine

import MachineLang.Machine.Regular
import MachineLang.Proofs.Names
import MachineLang.Proofs.Paths
import Mathlib.Data.List.Infix

/-!
# The words of an iteration

The star of an automaton has a new state in which it begins, from which it goes into the automaton,
and to which it comes back from every final state, all without reading (`reads_star_iff`). So a path
from the new state back to it goes through the automaton some number of times, and reads a word of
the automaton each time (`acceptsParts_of_path`, `path_of_acceptsParts`). The new state is final,
and a final state of the automaton is one transition in front of it, so the star accepts exactly the
words that are made of words of the automaton (`star_accepts_iff_flatten`).
-/

namespace MachineLang.Machine

variable {m : Machine .finite} {p q r : State} {u w : Word} {x : Symbol}

/-- A word is made of words that the automaton accepts, one behind the other. -/
def AcceptsParts (m : Machine .finite) (w : Word) : Prop :=
  ∃ words : List Word, words.flatten = w ∧ ∀ u ∈ words, m.Accepts u

/-- No words make the empty word. -/
theorem acceptsParts_nil (m : Machine .finite) : m.AcceptsParts [] :=
  ⟨[], rfl, List.forall_mem_nil _⟩

/-- A word of the automaton in front of others makes a longer word. -/
theorem AcceptsParts.cons (hu : m.Accepts u) (hw : m.AcceptsParts w) : m.AcceptsParts (u ++ w) := by
  obtain ⟨words, rfl, hwords⟩ := hw
  exact ⟨u :: words, rfl, List.forall_mem_cons.2 ⟨hu, hwords⟩⟩

/-! ## The star as a whole -/

/-- The transitions of a star are those of the automaton, the one that leaves the new state and
those that come back to it. -/
theorem mem_transitions_star {t : Transition .finite} :
    t ∈ m.star.transitions ↔
      t ∈ m.transitions ∨ t = m.epsilonTransition m.freshState m.initial ∨
        ∃ f ∈ m.finals, t = m.epsilonTransition f m.freshState := by
  unfold star
  rw [mem_transitions_build]
  simp only [List.mem_append, List.mem_map, List.mem_singleton, SortedSet.mem_toList, or_assoc,
    eq_comm (b := t)]
  rfl

/-- The final states of a star are those of the automaton and the new state. -/
theorem mem_finals_star : q ∈ m.star.finals ↔ q = m.freshState ∨ q ∈ m.finals :=
  SortedSet.mem_insert

/-- A star has the symbols of the automaton. -/
theorem mem_alphabet_star (hm : m.WellFormed) : x ∈ m.star.alphabet ↔ x ∈ m.alphabet := by
  have hparts : x ∈ m.star.alphabet ↔ x ∈ m.alphabet ∨ x ∈ m.alphabet := by
    refine mem_alphabet_build_of_parts hm hm (fun _ => or_self_iff.symm) fun t ht y hy => ?_
    rcases mem_transitions_star.1 ht with ht | rfl | ⟨f, -, rfl⟩
    · exact .inr (.inl ⟨t, ht, hy⟩)
    · exact .inl (List.eq_of_mem_replicate hy)
    · exact .inl (List.eq_of_mem_replicate hy)
  rw [hparts, or_self_iff]

/-- The star of a well-formed automaton is one that a definition describes. -/
theorem isBuilt_star (hm : m.WellFormed) : m.star.IsBuilt := by
  refine hm.isBuilt_build_of_fits rfl fun t hmem => ?_
  simp only [List.mem_append, List.mem_map, List.mem_singleton, SortedSet.mem_toList,
    or_assoc] at hmem
  rcases hmem with hmem | rfl | ⟨f, -, rfl⟩
  · exact hm.fits t hmem
  · exact hm.fits_epsilonTransition _ _
  · exact hm.fits_epsilonTransition _ _

namespace IsTextbook

/-- The star of a textbook automaton is one. -/
theorem star (h : m.IsTextbook) : m.star.IsTextbook where
  built := isBuilt_star h.wellFormed
  tapeCount_eq := by
    have hcount : m.star.tapeCount = m.tapeCount := h.wellFormed.tapeCount_build_eq rfl
    rw [hcount, h.tapeCount_eq]
  bounded := h.bounded
  width_eq := by
    have hwidth : m.star.width = m.width :=
      width_congr fun n => by simp only [mem_alphabet_star h.wellFormed]
    rw [hwidth, h.width_eq]

/-! ## Paths through the new state -/

/-- A transition of a star is one of the automaton, leaves the new state for the initial one, or
comes back from a final state. -/
theorem reads_star_iff (h : m.IsTextbook) :
    m.star.Reads p x q ↔
      m.Reads p x q ∨ (x = epsilon ∧ p = m.freshState ∧ q = m.initial) ∨
        (x = epsilon ∧ p ∈ m.finals ∧ q = m.freshState) := by
  unfold Reads
  rw [mem_transitions_star]
  simp only [h.hasOneTape.eq_epsilonTransition_iff]
  -- The two kinds of added transitions read nothing, and differ in whether they leave or enter the
  -- new state.
  constructor
  · rintro (ht | ⟨rfl, rfl, rfl⟩ | ⟨f, hf, rfl, rfl, rfl⟩)
    · exact .inl ht
    · exact .inr (.inl ⟨rfl, rfl, rfl⟩)
    · exact .inr (.inr ⟨rfl, hf, rfl⟩)
  · rintro (ht | ⟨rfl, rfl, rfl⟩ | ⟨rfl, hf, rfl⟩)
    · exact .inl ht
    · exact .inr (.inl ⟨rfl, rfl, rfl⟩)
    · exact .inr (.inr ⟨p, hf, rfl, rfl, rfl⟩)

/-- A path of a star to one of its final states reads words of the automaton if it begins in the new
state. If it begins in another one, it first reads the rest of such a word. -/
theorem acceptsParts_of_path (h : m.IsTextbook) (hpath : m.star.Path p w r)
    (hr : r ∈ m.star.finals) :
    (p = m.freshState → m.AcceptsParts w) ∧
      (p ∈ m.states → ∃ u v, w = u ++ v ∧ (∃ f ∈ m.finals, m.Path p u f) ∧ m.AcceptsParts v) := by
  -- The induction is on the path, for both kinds of beginnings at once: they take turns.
  induction hpath with
  | refl q =>
    refine ⟨fun _ => m.acceptsParts_nil, fun hq => ?_⟩
    rcases mem_finals_star.1 hr with rfl | hfinal
    · exact absurd hq m.freshState_notMem
    · exact ⟨[], [], rfl, ⟨q, hfinal, .refl q⟩, m.acceptsParts_nil⟩
  | @step p q r x w hread _ ih =>
    obtain ⟨hnew, hown⟩ := ih hr
    rcases h.reads_star_iff.1 hread with hread | ⟨rfl, rfl, rfl⟩ | ⟨rfl, hf, rfl⟩
    · have hp : p ∈ m.states := h.wellFormed.source_mem _ hread
      refine ⟨fun hfresh => absurd (hfresh ▸ hp) m.freshState_notMem, fun _ => ?_⟩
      obtain ⟨u, v, rfl, ⟨f, hf, hpath⟩, hparts⟩ := hown (h.wellFormed.target_mem _ hread)
      refine ⟨x ++ u, v, ?_, ⟨f, hf, .step hread hpath⟩, hparts⟩
      rw [List.append_assoc]
    · -- From the new state the path goes into the automaton, so it reads a word and then others.
      refine ⟨fun _ => ?_, fun hfresh => absurd hfresh m.freshState_notMem⟩
      obtain ⟨u, v, rfl, hword, hparts⟩ := hown h.wellFormed.initial_mem
      have hparts' : m.AcceptsParts (u ++ v) := .cons (h.accepts_iff_path.2 hword) hparts
      exact hparts'
    · -- A word of the automaton ends here, and the rest is read from the new state.
      have hp : p ∈ m.states := h.wellFormed.final_mem p hf
      refine ⟨fun hfresh => absurd (hfresh ▸ hp) m.freshState_notMem, fun _ => ?_⟩
      exact ⟨[], w, rfl, ⟨p, hf, .refl p⟩, hnew rfl⟩

/-- Words of the automaton are read one behind the other by a path of its star from the new state
back to it. -/
theorem path_of_acceptsParts (h : m.IsTextbook) (hw : m.AcceptsParts w) :
    m.star.Path m.freshState w m.freshState := by
  obtain ⟨words, rfl, hwords⟩ := hw
  induction words with
  | nil => exact .refl _
  | cons u words ih =>
    obtain ⟨hu, hwords⟩ := List.forall_mem_cons.1 hwords
    obtain ⟨f, hf, hpath⟩ := h.accepts_iff_path.1 hu
    -- Each part is a round trip: from the new state into the automaton, through it, and back.
    have hinto : m.star.Path m.freshState epsilon m.initial :=
      .single (h.reads_star_iff.2 (.inr (.inl ⟨rfl, rfl, rfl⟩)))
    have hthrough : m.star.Path m.initial u f :=
      hpath.mono fun t ht => mem_transitions_star.2 (.inl ht)
    have hback : m.star.Path f epsilon m.freshState :=
      .single (h.reads_star_iff.2 (.inr (.inr ⟨rfl, hf, rfl⟩)))
    exact hinto.append (hthrough.append (hback.append (ih hwords)))

/-- A star accepts the words that are made of words of the automaton. -/
theorem accepts_star_iff (h : m.IsTextbook) : m.star.Accepts w ↔ m.AcceptsParts w := by
  rw [h.star.accepts_iff_path]
  constructor
  · rintro ⟨q, hq, hpath⟩
    exact (h.acceptsParts_of_path hpath hq).1 rfl
  · intro hw
    exact ⟨m.freshState, mem_finals_star.2 (.inl rfl), h.path_of_acceptsParts hw⟩

end IsTextbook

/-- The star of a textbook automaton accepts exactly the words that are made of any number of words
of the automaton, one behind the other. -/
theorem star_accepts_iff_flatten (m : Machine .finite) (h : m.IsTextbook) :
    m.star.IsBuilt ∧
      ∀ w : Word, (∃ limit, m.star.testWithin [w] limit = .ok (some true)) ↔
        ∃ words : List Word, words.flatten = w ∧
          ∀ u ∈ words, ∃ limit, m.testWithin [u] limit = .ok (some true) :=
  ⟨h.star.built, fun _ => h.accepts_star_iff⟩

/-- An automaton for letters "a" with a letter "b" behind them; it comes back to its initial
state. -/
def counting : Machine .finite :=
  build {
    transitions := [⟨"count", [['a']], "count", ()⟩, ⟨"count", [['b']], "done", ()⟩]
    initial := "count"
    finals := .single "done"
    bounded := true }

/-- The star of the automaton accepts the empty word and "abb", which is made of "ab" and "b". It
does not accept "a", although that leads back to the initial state. -/
theorem star_counting :
    counting.IsTextbook ∧
      (∃ limit, counting.star.testWithin [[]] limit = .ok (some true)) ∧
      (∃ limit, counting.star.testWithin [['a', 'b', 'b']] limit = .ok (some true)) ∧
      ¬ ∃ limit, counting.star.testWithin [['a']] limit = .ok (some true) := by
  have hcounting : counting.IsTextbook := ⟨isBuilt_build (by decide), rfl, rfl, by decide +kernel⟩
  obtain ⟨-, hwords⟩ := star_accepts_iff_flatten counting hcounting
  refine ⟨hcounting, ?_, ?_, ?_⟩
  · rw [hwords]
    exact counting.acceptsParts_nil
  · rw [hwords]
    have hfirst : counting.Accepts ['a', 'b'] := ⟨3, by decide +kernel⟩
    have hsecond : counting.Accepts ['b'] := ⟨2, by decide +kernel⟩
    exact ⟨[['a', 'b'], ['b']], rfl, by simpa using ⟨hfirst, hsecond⟩⟩
  · rw [hwords]
    rintro ⟨words, hflatten, hall⟩
    cases words with
    | nil => simp at hflatten
    | cons u words =>
      -- The automaton dies out on every beginning of the word, and so on the first part.
      have hdies : ∀ u ∈ ['a'].inits, counting.testWithin [u] 2 = .ok (some false) := by
        decide +kernel
      have hbegins : u <+: ['a'] := ⟨words.flatten, hflatten⟩
      exact hcounting.not_accepts_of_false (hdies u ((List.mem_inits u _).2 hbegins))
        (hall u List.mem_cons_self)

end MachineLang.Machine

import MachineLang.Machine.Regular
import MachineLang.Proofs.Definitions
import MachineLang.Proofs.Determinize

/-!
# Complements of total deterministic automata

A textbook automaton that passes the test for deterministic automata always reads
(`readsAlways_of_isStrictlyDeterministic`) and has one target for each state and symbol
(`reads_unique_of_isStrictlyDeterministic`), so a word has no more than one path from a state. If
every state has a transition for every symbol, a word over the alphabet has one
(`exists_path_of_total`). The complement has the same paths and the other final states, so it
accepts such a word exactly if the automaton does not; and both decide it in one layer more than it
has characters (`complement_inverts_total`).
-/

namespace MachineLang.Machine

variable {m : Machine .finite} {p q r : State} {w : Word} {x : Symbol}

/-- Every state has a transition for every symbol of the alphabet. -/
def IsTotal (m : Machine .finite) : Prop :=
  ∀ p ∈ m.states, ∀ x ∈ m.alphabet, ∃ q, m.Reads p x q

/-! ## What the test for deterministic automata says -/

/-- A deterministic automaton has no transition that reads nothing: strict determinism also asks
that no pattern of a state does. -/
theorem readsAlways_of_isStrictlyDeterministic (hdet : m.isStrictlyDeterministic = true) :
    m.ReadsAlways := by
  intro p q hread
  obtain ⟨byRead, targets, hbyRead, htargets, -⟩ := mem_transitions_iff_holds.1 hread
  unfold isStrictlyDeterministic at hdet
  rw [Bool.and_eq_true, List.all_eq_true] at hdet
  have hkeys := hdet.2 (p, byRead) (SortedMap.mem_entries_iff.2 hbyRead)
  rw [List.all_eq_true] at hkeys
  have hpattern := hkeys [epsilon]
    (List.mem_map.2 ⟨_, SortedMap.mem_entries_iff.2 htargets, rfl⟩)
  simp at hpattern

/-- A deterministic automaton has one target for each state and symbol, since none of the patterns
of a state lists more than one. -/
theorem reads_unique_of_isStrictlyDeterministic (hdet : m.isStrictlyDeterministic = true)
    (hq : m.Reads p x q) (hr : m.Reads p x r) : q = r := by
  obtain ⟨byRead, targets, hbyRead, htargets, hq⟩ := mem_transitions_iff_holds.1 hq
  obtain ⟨byRead', targets', hbyRead', htargets', hr⟩ := mem_transitions_iff_holds.1 hr
  obtain rfl : byRead = byRead' := Option.some.inj (hbyRead.symm.trans hbyRead')
  obtain rfl : targets = targets' := Option.some.inj (htargets.symm.trans htargets')
  unfold isStrictlyDeterministic isDeterministic nonDeterministicStates at hdet
  rw [Bool.and_eq_true, List.isEmpty_iff, List.map_eq_nil_iff, List.filter_eq_nil_iff] at hdet
  -- The state is not listed, so none of its patterns has two targets.
  have hclear := hdet.1 (p, byRead) (SortedMap.mem_entries_iff.2 hbyRead)
  unfold isAmbiguous at hclear
  rw [Bool.not_eq_true, Bool.or_eq_false_iff, List.any_eq_false] at hclear
  have hlength := hclear.1 ([x], targets) (SortedMap.mem_entries_iff.2 htargets)
  rw [decide_eq_true_iff, Nat.not_lt] at hlength
  obtain ⟨target, rfl⟩ : ∃ target, targets = [target] :=
    List.length_eq_one_iff.1 (Nat.le_antisymm hlength (List.length_pos_of_mem hq))
  have hsame := (List.mem_singleton.1 hq).trans (List.mem_singleton.1 hr).symm
  injection hsame

/-! ## The path of a word -/

namespace IsTextbook

/-- If every transition reads and each state has one target for a symbol, a word has no more than
one path from a state. -/
theorem path_unique (h : m.IsTextbook) (hreads : m.ReadsAlways)
    (hunique : ∀ p x q r, m.Reads p x q → m.Reads p x r → q = r)
    (hq : m.Path p w q) (hr : m.Path p w r) : q = r := by
  -- A path that reads nothing stays where it is.
  have hstay : ∀ {p q}, m.Path p [] q → p = q := by
    intro p q hpath
    rcases hpath.cases_head with ⟨heq, -⟩ | ⟨x, s, v, hread, -, hword⟩
    · exact heq
    · obtain rfl : x = epsilon := (List.append_eq_nil_iff.1 hword.symm).1
      exact absurd hread (hreads p s)
  induction w generalizing p with
  | nil => exact (hstay hq).symm.trans (hstay hr)
  | cons c w ih =>
    obtain ⟨s, s', hs, hread, hq⟩ := h.path_cons_iff.1 hq
    obtain ⟨t, t', ht, hread', hr⟩ := h.path_cons_iff.1 hr
    obtain rfl := hstay hs
    obtain rfl := hstay ht
    obtain rfl := hunique _ _ _ _ hread hread'
    exact ih hq hr

/-- If every state has a transition for every symbol, a word over the alphabet has a path from every
state. -/
theorem exists_path_of_total (h : m.IsTextbook) (htotal : m.IsTotal) (hp : p ∈ m.states)
    (hw : ∀ c ∈ w, [c] ∈ m.alphabet) : ∃ q, m.Path p w q := by
  induction w generalizing p with
  | nil => exact ⟨p, .refl p⟩
  | cons c w ih =>
    obtain ⟨hc, hw⟩ := List.forall_mem_cons.1 hw
    obtain ⟨s, hread⟩ := htotal p hp [c] hc
    obtain ⟨q, hpath⟩ := ih (h.wellFormed.target_mem _ hread) hw
    exact ⟨q, .step hread hpath⟩

/-! ## The complement -/

/-- The complement has the transitions of the automaton. -/
theorem mem_transitions_complement {t : Transition .finite} :
    t ∈ m.complement.transitions ↔ t ∈ m.transitions :=
  mem_transitions_build

/-- The complement has the paths of the automaton. -/
theorem path_complement_iff : m.complement.Path p w q ↔ m.Path p w q :=
  ⟨fun h => h.mono fun _ => mem_transitions_complement.1,
    fun h => h.mono fun _ => mem_transitions_complement.2⟩

/-- The final states of the complement are the other states. -/
theorem mem_finals_complement_iff :
    q ∈ m.complement.finals ↔ q ∈ m.states ∧ q ∉ m.finals := by
  show q ∈ m.states.difference m.finals ↔ _
  unfold SortedSet.difference
  rw [SortedSet.mem_filter, Bool.not_eq_true', ← Bool.not_eq_true, SortedSet.contains_iff]

/-- The complement of a textbook automaton is one: only the final states are exchanged, so reads and
tapes are what they were. -/
theorem complement (h : m.IsTextbook) : m.complement.IsTextbook where
  built := isBuilt_complement h.wellFormed
  tapeCount_eq := by
    have hcount : m.complement.tapeCount = m.tapeCount := h.wellFormed.tapeCount_build_eq rfl
    rw [hcount, h.tapeCount_eq]
  bounded := h.bounded
  width_eq := by
    have halphabet : ∀ x, x ∈ m.complement.alphabet ↔ x ∈ m.alphabet := fun x =>
      mem_alphabet_build_of_read h.wellFormed.read_mem h.wellFormed.alphabet_ne
    have hwidth : m.complement.width = m.width := width_congr fun n => by simp only [halphabet]
    rw [hwidth, h.width_eq]

/-- The complement of a total deterministic automaton accepts exactly the other words over the
alphabet. -/
theorem accepts_complement_iff (h : m.IsTextbook) (hdet : m.isStrictlyDeterministic = true)
    (htotal : m.IsTotal) (hw : ∀ c ∈ w, [c] ∈ m.alphabet) :
    m.complement.Accepts w ↔ ¬ m.Accepts w := by
  rw [h.accepts_iff_path, h.complement.accepts_iff_path]
  obtain ⟨r, hr⟩ := h.exists_path_of_total htotal h.wellFormed.initial_mem hw
  -- The word has one path, and both automata look at its end.
  have hend : ∀ q, m.Path m.initial w q ↔ q = r := fun q =>
    ⟨fun hq => h.path_unique (readsAlways_of_isStrictlyDeterministic hdet)
      (fun _ _ _ _ => reads_unique_of_isStrictlyDeterministic hdet) hq hr, fun hq => hq ▸ hr⟩
  have hmem : r ∈ m.states := hr.mem_states h.wellFormed h.wellFormed.initial_mem
  have hstart : m.complement.initial = m.initial := rfl
  simp only [hstart, path_complement_iff, hend, exists_eq_right, mem_finals_complement_iff, hmem,
    true_and]

end IsTextbook

/-- A total deterministic automaton and its complement decide every word over the alphabet in one
layer more than the word has characters, and one accepts exactly the words that the other
rejects. -/
theorem complement_inverts_total (m : Machine .finite) (h : m.IsTextbook)
    (hdet : m.isStrictlyDeterministic = true) (htotal : m.IsTotal) (w : Word)
    (hw : ∀ c ∈ w, [c] ∈ m.alphabet) :
    ∃ accepted : Bool, m.testWithin [w] (w.length + 1) = .ok (some accepted) ∧
      m.complement.testWithin [w] (w.length + 1) = .ok (some !accepted) := by
  have hreads := readsAlways_of_isStrictlyDeterministic hdet
  have hreads' : m.complement.ReadsAlways := fun p q hread =>
    hreads p q (IsTextbook.mem_transitions_complement.1 hread)
  obtain ⟨hyes, hno⟩ := h.testWithin_of_readsAlways hreads w
  obtain ⟨hyes', hno'⟩ := h.complement.testWithin_of_readsAlways hreads' w
  rw [h.accepts_complement_iff hdet htotal hw] at hyes' hno'
  by_cases haccepts : m.Accepts w
  · exact ⟨true, hyes haccepts, hno' (not_not_intro haccepts)⟩
  · exact ⟨false, hno haccepts, hyes' haccepts⟩

/-- An automaton for the words over "a" and "b" with an even number of "a". -/
def parity : Machine .finite :=
  build {
    transitions := [⟨"even", [['a']], "odd", ()⟩, ⟨"even", [['b']], "even", ()⟩,
      ⟨"odd", [['a']], "even", ()⟩, ⟨"odd", [['b']], "odd", ()⟩]
    initial := "even"
    finals := .single "even"
    bounded := true }

/-- The automaton reads two letters, which stand in its alphabet one by one. -/
theorem alphabet_parity : parity.alphabet.toList = [['a'], ['b']] := by decide +kernel

/-- The automaton has a transition from both states for both letters. -/
theorem isTotal_parity : parity.IsTotal := by
  intro p hp x hx
  have hstates : parity.states.toList = ["even", "odd"] := by decide +kernel
  rw [← SortedSet.mem_toList, hstates] at hp
  rw [← SortedSet.mem_toList, alphabet_parity] at hx
  rcases List.mem_pair.1 hp with rfl | rfl <;> rcases List.mem_pair.1 hx with rfl | rfl
  · exact ⟨"odd", mem_transitions_build.2 (by decide)⟩
  · exact ⟨"even", mem_transitions_build.2 (by decide)⟩
  · exact ⟨"even", mem_transitions_build.2 (by decide)⟩
  · exact ⟨"odd", mem_transitions_build.2 (by decide)⟩

/-- A word with one "a" is rejected by the automaton, so its complement accepts it, both within one
layer more than the word has characters. -/
theorem complement_inverts_parity :
    parity.IsTextbook ∧ parity.isStrictlyDeterministic = true ∧ parity.IsTotal ∧
      (∀ c ∈ ['b', 'a'], [c] ∈ parity.alphabet) ∧
      parity.testWithin [['b', 'a']] 3 = .ok (some false) ∧
      parity.complement.testWithin [['b', 'a']] 3 = .ok (some true) := by
  have htextbook : parity.IsTextbook := ⟨isBuilt_build (by decide), rfl, rfl, by decide +kernel⟩
  have hdet : parity.isStrictlyDeterministic = true := by decide +kernel
  have hword : ∀ c ∈ ['b', 'a'], [c] ∈ parity.alphabet := by
    intro c hc
    rw [← SortedSet.mem_toList, alphabet_parity]
    rcases List.mem_pair.1 hc with rfl | rfl <;> decide
  have hfalse : parity.testWithin [['b', 'a']] 3 = .ok (some false) := by decide +kernel
  obtain ⟨accepted, hown, hother⟩ :=
    complement_inverts_total parity htextbook hdet isTotal_parity ['b', 'a'] hword
  -- The theorem gives some answer for the automaton; the run shows that it is the rejection.
  obtain rfl : accepted = false := by
    rw [show (['b', 'a'] : Word).length + 1 = 3 from rfl, hfalse] at hown
    injection hown with hown
    exact (Option.some.inj hown).symm
  exact ⟨htextbook, hdet, isTotal_parity, hword, hfalse, hother⟩

end MachineLang.Machine

import MachineLang.Proofs.Loops
import MachineLang.Proofs.TapeView
import MachineLang.Proofs.Transitions
import MachineLang.Proofs.Verdict
import Mathlib.Algebra.Ring.Nat
import Mathlib.Data.List.Sections

/-!
# How far to search

A finite automaton with bounded tapes moves its heads to the right and writes nothing, so a
configuration is a state and a place for each head: there are no more of them than
`Machine.searchBound` (`length_searchSpace`), and a computation does not leave them
(`moves_mem_searchSpace`). Whatever can be accepted is therefore accepted within that many layers. A
computation that goes on for as many moves comes back to a configuration, and since its heads never
move back, it has read nothing in between. So without a cycle of transitions that read nothing, that
many layers always decide (`testWithin_searchBound`).
-/

namespace MachineLang

/-! ## Tapes that are only read -/

/-- The tapes that hold a word, with the head on one of the characters or behind them. -/
def standings (w : Word) : List Tape := (List.range (w.length + 1)).map (standing w)

variable {w : Word} {head width : Nat} {x : Symbol} {t : Tape}

/-- The head of a standing tape is at most behind the word. -/
theorem mem_standings_iff : t ∈ standings w ↔ ∃ head ≤ w.length, standing w head = t := by
  unfold standings
  simp only [List.mem_map, List.mem_range, Nat.lt_succ_iff]

/-- What matches a read from a standing tape is no longer than the word behind the head. -/
theorem add_length_le_of_read (hhead : head ≤ w.length)
    (hx : x = (standing w head).read width ∨ x = epsilon) : head + x.length ≤ w.length := by
  rcases hx with rfl | rfl
  · rw [read_standing, List.length_take, List.length_drop]
    omega
  · exact hhead

/-- Symbols that match what is read from standing tapes leave them standing, and the heads together
move by the lengths of the symbols. -/
theorem skip_standings {words : List Word} {tapes : List Tape}
    (h : List.Forall₂ (fun t w => t ∈ standings w) tapes words) {pattern : List Symbol}
    (hmatch : matchesRead false pattern (tapes.map fun t => t.read width) = true) :
    List.Forall₂ (fun t w => t ∈ standings w) (MachineKind.skip pattern tapes) words ∧
      ((MachineKind.skip pattern tapes).map Tape.head).sum =
        (tapes.map Tape.head).sum + (pattern.map List.length).sum := by
  -- The induction is on the tapes; each head moves by the length of its own symbol.
  induction h generalizing pattern with
  | nil =>
    cases pattern with
    | nil => exact ⟨.nil, rfl⟩
    | cons x pattern => simp [matchesRead] at hmatch
  | @cons t w tapes words ht htapes ih =>
    cases pattern with
    | nil => simp [matchesRead] at hmatch
    | cons x pattern =>
      obtain ⟨head, hhead, rfl⟩ := mem_standings_iff.1 ht
      rw [List.map_cons, matchesRead_cons_iff, matchesRead_singleton_iff] at hmatch
      obtain ⟨hx, hrest⟩ := hmatch
      have hle : head + x.length ≤ w.length := add_length_le_of_read hhead hx
      obtain ⟨hstanding, hsum⟩ := ih hrest
      unfold MachineKind.skip
      rw [shift_standing hle]
      refine ⟨.cons (mem_standings_iff.2 ⟨_, hle, rfl⟩) hstanding, ?_⟩
      rw [List.map_cons, List.map_cons, List.map_cons, List.sum_cons, List.sum_cons, List.sum_cons,
        hsum]
      unfold standing
      dsimp only
      omega

namespace Machine

variable {m : Machine .finite} {words : List Word} {c d : Configuration} {n : Nat}

/-! ## The configurations of a search -/

/-- The configurations of all states and of all places of the heads on some words. -/
def searchSpace (m : Machine .finite) (words : List Word) : List Configuration :=
  m.states.toList.flatMap fun q => (words.map standings).sections.map (m.configuration q)

/-- The number of states times the numbers of places that the heads have on the tapes. -/
def searchBound (m : Machine .finite) (inputs : List Word) : Nat :=
  m.states.toList.length * ((m.contents inputs).map fun w => w.length + 1).prod

/-- A state and standing tapes make a configuration of the search. -/
theorem mem_searchSpace_iff :
    c ∈ m.searchSpace words ↔ ∃ q ∈ m.states, ∃ tapes,
      List.Forall₂ (fun t w => t ∈ standings w) tapes words ∧ m.configuration q tapes = c := by
  unfold searchSpace
  simp only [List.mem_flatMap, List.mem_map, List.mem_sections, List.forall₂_map_right_iff,
    SortedSet.mem_toList]

/-- The tapes of a search are one of as many lists of tapes as their heads have places together. -/
theorem length_sections_standings (words : List Word) :
    (words.map standings).sections.length = (words.map fun w => w.length + 1).prod := by
  induction words with
  | nil => rfl
  | cons w words ih =>
    rw [List.map_cons, List.map_cons, List.prod_cons, List.sections, List.length_flatMap]
    -- Each list of tapes for the other words is continued by every tape for the first one.
    have hlength : ∀ tapes : List Tape,
        ((standings w).map fun t => t :: tapes).length = w.length + 1 := by
      intro tapes
      unfold standings
      rw [List.length_map, List.length_map, List.length_range]
    simp only [hlength, List.map_const', List.sum_replicate_nat, ih]
    exact Nat.mul_comm _ _

/-- The number of configurations of a search. -/
theorem length_searchSpace (m : Machine .finite) (words : List Word) :
    (m.searchSpace words).length =
      m.states.toList.length * (words.map fun w => w.length + 1).prod := by
  unfold searchSpace
  rw [List.length_flatMap]
  simp only [List.length_map, length_sections_standings, List.map_const',
    List.sum_replicate_nat]

/-! ## Progress -/

/-- The number of characters that the heads have passed. -/
def progress (c : Configuration) : Nat := (c.tapes.map Tape.head).sum

/-- A transition leads from one state to another without reading anything from any tape. -/
def Silent (m : Machine .finite) (p q : State) : Prop :=
  ∃ t ∈ m.transitions, t.source = p ∧ t.target = q ∧ ∀ x ∈ t.read, x = epsilon

/-- A move stays in the search space, and either it makes progress on some tape, or it makes none
and its transition reads nothing. -/
theorem move_mem_searchSpace (hm : m.WellFormed) (hc : c ∈ m.searchSpace words)
    (hmove : m.Move c d) :
    d ∈ m.searchSpace words ∧
      (progress c < progress d ∨ progress c = progress d ∧ m.Silent c.state d.state) := by
  obtain ⟨q, hq, tapes, htapes, rfl⟩ := mem_searchSpace_iff.1 hc
  obtain ⟨width, -, -, hd, -⟩ := mem_step.1 hmove
  obtain ⟨t, ht, hsource, hmatch, rfl⟩ := mem_stepAt.1 hd
  obtain ⟨hstanding, hsum⟩ := skip_standings htapes hmatch
  refine ⟨mem_searchSpace_iff.2 ⟨t.target, hm.target_mem t ht, _, hstanding, rfl⟩, ?_⟩
  set next := m.configuration t.target
    (MachineKind.finite.act t.read t.action (m.configuration q tapes).tapes)
  have hprogress : progress next =
      progress (m.configuration q tapes) + (t.read.map List.length).sum := hsum
  rcases Nat.eq_zero_or_pos (t.read.map List.length).sum with hzero | hpos
  · -- Symbols whose lengths sum up to nothing are all empty.
    refine .inr ⟨by omega, t, ht, hsource, rfl, fun x hx => ?_⟩
    have hlength : x.length = 0 :=
      List.sum_eq_zero_iff_forall_eq_nat.1 hzero x.length (List.mem_map_of_mem hx)
    exact List.length_eq_zero_iff.1 hlength
  · exact .inl (by omega)

/-- Moves stay in the search; they make progress, or none of their transitions reads anything. -/
theorem moves_mem_searchSpace (hm : m.WellFormed) (hc : c ∈ m.searchSpace words)
    (h : Moves m.Move n c d) :
    d ∈ m.searchSpace words ∧
      (progress c < progress d ∨ progress c = progress d ∧ Moves m.Silent n c.state d.state) := by
  induction h with
  | refl c => exact ⟨hc, .inr ⟨rfl, .refl c.state⟩⟩
  | step hmove _ ih =>
    obtain ⟨hb, hfirst⟩ := move_mem_searchSpace hm hc hmove
    obtain ⟨hd, hrest⟩ := ih hb
    refine ⟨hd, ?_⟩
    -- Progress is never lost, so without any of it all the transitions read nothing.
    rcases hfirst with hlt | ⟨heq, hsilent⟩
    · exact .inl (by omega)
    · rcases hrest with hlt | ⟨heq', hsilents⟩
      · exact .inl (by omega)
      · exact .inr ⟨by omega, .step hsilent hsilents⟩

/-- A loop of a search reads nothing. -/
theorem silent_of_loop (hm : m.WellFormed) (hc : c ∈ m.searchSpace words)
    (h : Moves m.Move n c c) : Moves m.Silent n c.state c.state := by
  rcases (moves_mem_searchSpace hm hc h).2 with hlt | ⟨-, hsilent⟩
  · omega
  · exact hsilent

/-! ## The bound -/

/-- A finite automaton with bounded tapes begins in its search space. -/
theorem start_mem_searchSpace (hm : m.WellFormed) (hb : m.bounded = true) (inputs : List Word) :
    m.start inputs ∈ m.searchSpace (m.contents inputs) := by
  refine mem_searchSpace_iff.2 ⟨m.initial, hm.initial_mem, m.loadTapes inputs, ?_, rfl⟩
  rw [loadTapes_eq_map, List.forall₂_map_left_iff, List.forall₂_same]
  intro w _
  rw [hb]
  exact mem_standings_iff.2 ⟨0, Nat.zero_le _, rfl⟩

/-- A computation of a finite automaton with bounded tapes does not leave its search space. -/
theorem mem_searchSpace_of_moves (hm : m.WellFormed) (hb : m.bounded = true) (inputs : List Word)
    (i : Nat) (p : Configuration) (h : Moves m.Move i (m.start inputs) p) :
    p ∈ m.searchSpace (m.contents inputs) :=
  (moves_mem_searchSpace hm (start_mem_searchSpace hm hb inputs) h).1

/-- Whatever is accepted at all is accepted within the bound. -/
theorem acceptsWithin_searchBound (hm : m.WellFormed) (hb : m.bounded = true) {inputs : List Word}
    (h : m.AcceptsWithin n (m.start inputs)) :
    m.AcceptsWithin (m.searchBound inputs) (m.start inputs) := by
  obtain ⟨i, -, d, hmoves, hd⟩ := h
  obtain ⟨j, hj, hshort⟩ := hmoves.exists_lt_length (mem_searchSpace_of_moves hm hb inputs)
  rw [length_searchSpace] at hj
  exact ⟨j, hj, d, hshort, hd⟩

/-- A computation that goes on as far as the bound runs through a cycle that reads nothing. -/
theorem exists_silent_cycle_of_goesOn (hm : m.WellFormed) (hb : m.bounded = true)
    {inputs : List Word} (h : m.GoesOn n (m.start inputs)) (hn : m.searchBound inputs ≤ n) :
    ∃ q around, Moves m.Silent (around + 1) q q := by
  obtain ⟨d, hmoves⟩ := h
  have hpoints := mem_searchSpace_of_moves hm hb inputs
  have hlength : (m.searchSpace (m.contents inputs)).length ≤ n := by
    rw [length_searchSpace]
    exact hn
  obtain ⟨p, before, around, -, hpos, -, hbefore, haround, -⟩ :=
    hmoves.isLooped_of_length_le hpoints hlength
  have hsilent := silent_of_loop hm (hpoints before p hbefore) haround
  refine ⟨p.state, around - 1, ?_⟩
  rwa [Nat.sub_add_cancel hpos]

/-- For a finite automaton with bounded tapes, the number of its states times the numbers of places
of the heads is a limit that misses nothing: what is accepted within any limit is accepted within
this one, and another verdict means that the inputs are never accepted. If no cycle of transitions
reads nothing from all tapes, there is a verdict from this limit on. -/
theorem testWithin_searchBound (m : Machine .finite) (hm : m.IsBuilt) (hb : m.bounded = true)
    (inputs : List Word) (h : inputs.length ≤ m.tapeCount) :
    (∃ verdict, m.testWithin inputs (m.searchBound inputs) = .ok verdict ∧
      ((∃ n, m.testWithin inputs n = .ok (some true)) → verdict = some true) ∧
      (verdict ≠ some true → ∀ n, m.testWithin inputs n ≠ .ok (some true))) ∧
    ((¬ ∃ q n, Moves m.Silent (n + 1) q q) → ∀ n, m.searchBound inputs ≤ n →
      ∃ verdict, m.testWithin inputs n = .ok (some verdict)) := by
  have hwf := hm.wellFormed
  -- An accepting path may be cut at repeated configurations, of which there are no more than the
  -- bound.
  have hcomplete : (∃ n, m.testWithin inputs n = .ok (some true)) →
      m.verdictFrom (m.searchBound inputs) [m.start inputs] = some true := by
    rintro ⟨n, hn⟩
    rw [testWithin_eq h] at hn
    have htrue : m.verdictFrom n [m.start inputs] = some true := by injection hn
    exact verdict_eq_true_iff.2 (acceptsWithin_searchBound hwf hb (verdict_eq_true_iff.1 htrue))
  refine ⟨⟨_, testWithin_eq h _, hcomplete, fun hne n hn => hne (hcomplete ⟨n, hn⟩)⟩, ?_⟩
  intro hcycle n hn
  rw [testWithin_eq h]
  cases hverdict : m.verdictFrom n [m.start inputs] with
  | some verdict => exact ⟨verdict, rfl⟩
  | none =>
    obtain ⟨-, hgoes⟩ := verdict_eq_none_iff.1 hverdict
    exact absurd (exists_silent_cycle_of_goesOn hwf hb hgoes hn) hcycle

/-- A finite automaton with two tapes that reads "ab" from the first one for every "c" of the
second. -/
def pairing : Machine .finite :=
  build {
    transitions :=
      [⟨"even", [['a', 'b'], epsilon], "odd", ()⟩, ⟨"odd", [epsilon, ['c']], "even", ()⟩]
    initial := "even"
    finals := .single "even"
    tapes := ["first", "second"]
    bounded := true }

/-- The automaton that may wait is undecided about "b" within its four configurations, so it never
accepts it. The automaton with two tapes has no cycle that reads nothing, so twelve layers decide
about "ab" and "c". -/
theorem searchBound_waiting_pairing :
    waiting.IsBuilt ∧ waiting.bounded = true ∧ [['b']].length ≤ waiting.tapeCount ∧
      waiting.searchBound [['b']] = 4 ∧
      (∀ n, waiting.testWithin [['b']] n ≠ .ok (some true)) ∧
      pairing.IsBuilt ∧ pairing.bounded = true ∧ [['a', 'b'], ['c']].length ≤ pairing.tapeCount ∧
      pairing.searchBound [['a', 'b'], ['c']] = 12 ∧
      (¬ ∃ q n, Moves pairing.Silent (n + 1) q q) ∧
      ∀ n, 12 ≤ n → ∃ verdict, pairing.testWithin [['a', 'b'], ['c']] n = .ok (some verdict) := by
  have hwaiting : waiting.IsBuilt := isBuilt_build (by decide)
  have hpairing : pairing.IsBuilt := isBuilt_build (by decide)
  have hfour : waiting.searchBound [['b']] = 4 := by decide +kernel
  have htwelve : pairing.searchBound [['a', 'b'], ['c']] = 12 := by decide +kernel
  have hcycle : ¬ ∃ q n, Moves pairing.Silent (n + 1) q q := by
    rintro ⟨q, n, hmoves⟩
    -- Already the first transition of a cycle would have to read nothing.
    obtain ⟨p, ⟨t, ht, -, -, hread⟩, -⟩ := Moves.succ_iff.1 hmoves
    rcases List.mem_pair.1 (mem_transitions_build.1 ht) with rfl | rfl
    · exact absurd (hread ['a', 'b'] (by simp)) (by simp [epsilon])
    · exact absurd (hread ['c'] (by simp)) (by simp [epsilon])
  obtain ⟨⟨verdict, hverdict, -, hnever⟩, -⟩ :=
    testWithin_searchBound waiting hwaiting rfl [['b']] (Nat.le_refl 1)
  have hundecided : waiting.testWithin [['b']] (waiting.searchBound [['b']]) = .ok none := by
    rw [hfour]
    decide +kernel
  have hmissing : verdict = none := by
    rw [hundecided] at hverdict
    injection hverdict with h
    exact h.symm
  obtain ⟨-, hdecided⟩ :=
    testWithin_searchBound pairing hpairing rfl [['a', 'b'], ['c']] (Nat.le_refl 2)
  rw [htwelve] at hdecided
  refine ⟨hwaiting, rfl, Nat.le_refl 1, hfour, hnever ?_, hpairing, rfl, Nat.le_refl 2, htwelve,
    hcycle, hdecided hcycle⟩
  rw [hmissing]
  simp

end Machine

end MachineLang

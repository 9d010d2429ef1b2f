import MachineLang.Proofs.Paths

/-!
# Longest reads

The symbols of an automaton with one tape may have any length, and a step tries the longest reads
first. So its computations follow paths (`HasOneTape.path_of_moves`), but not all of them: a longer
read that matches keeps the shorter ones from being tried. A word is lost if a path from the initial
state to a final one reads it and it is not accepted all the same (`Loses`). No word is lost if the
symbols that are read from a state do not get in each other's way (`ReadsFreely`,
`HasOneTape.not_loses`).
-/

namespace MachineLang.Machine

variable {m : Machine .finite} {p q : State} {w : Word} {x : Symbol} {before rest : Word}
  {width n : Nat} {d : Configuration}

/-- A path from the initial state to a final one reads the word, but the automaton does not accept
it. -/
def Loses (m : Machine .finite) (w : Word) : Prop :=
  (∃ q ∈ m.finals, m.Path m.initial w q) ∧ ¬ m.Accepts w

/-- Of two different symbols that are read from the same state none begins the other, except that
one may be empty if the other is as long as the longest symbol. -/
def ReadsFreely (m : Machine .finite) : Prop :=
  ∀ p x q y r, m.Reads p x q → m.Reads p y r → x <+: y →
    x = y ∨ (x = epsilon ∧ y.length = m.width)

namespace HasOneTape

/-! ## Computations are paths -/

/-- A successor for a width takes a transition that reads nothing or everything up to the width. -/
theorem mem_stepAt_reading_iff (h : m.HasOneTape) :
    d ∈ m.stepAt (m.reading p before rest) width ↔
      ∃ x q after, m.Reads p x q ∧ (x = rest.take width ∨ x = epsilon) ∧ rest = x ++ after ∧
        d = m.reading q (before ++ x) after := by
  rw [mem_stepAt, read_reading]
  constructor
  · rintro ⟨t, ht, rfl, hmatch, rfl⟩
    obtain ⟨x, hx, hread⟩ := h.exists_read ht
    rw [hx, matchesRead_singleton_iff] at hmatch
    -- Either way what is read stands at the front of the rest, so the rest splits behind it.
    have hprefix : x <+: rest := by
      rcases hmatch with rfl | rfl
      · exact List.take_prefix width rest
      · exact List.nil_prefix
    obtain ⟨after, rfl⟩ := hprefix
    refine ⟨x, t.target, after, hread, hmatch, rfl, ?_⟩
    rw [hx]
    exact configuration_skip before after
  · rintro ⟨x, q, after, hread, hmatch, rfl, rfl⟩
    exact ⟨_, hread, rfl, matchesRead_singleton_iff.2 hmatch,
      (configuration_skip before after).symm⟩

/-- A move takes a transition and what it reads. -/
theorem exists_read_of_move (h : m.HasOneTape) (hmove : m.Move (m.reading p before rest) d) :
    ∃ x q after, m.Reads p x q ∧ rest = x ++ after ∧ d = m.reading q (before ++ x) after := by
  obtain ⟨width, -, -, hd, -⟩ := mem_step.1 hmove
  obtain ⟨x, q, after, hread, -, hrest, hd⟩ := h.mem_stepAt_reading_iff.1 hd
  exact ⟨x, q, after, hread, hrest, hd⟩

/-- Moves follow a path: what they read is what the transitions of the path read. -/
theorem path_of_moves (h : m.HasOneTape) (hmoves : Moves m.Move n (m.reading p before rest) d) :
    ∃ v q after, m.Path p v q ∧ rest = v ++ after ∧ d = m.reading q (before ++ v) after := by
  -- The induction is on the moves; each of them moves a symbol from the rest to what was read.
  induction n generalizing p before rest with
  | zero =>
    obtain rfl := Moves.zero_iff.1 hmoves
    exact ⟨[], p, rest, .refl p, rfl, by rw [List.append_nil]⟩
  | succ n ih =>
    obtain ⟨b, hmove, hmoves⟩ := Moves.succ_iff.1 hmoves
    obtain ⟨x, q, after, hread, rfl, rfl⟩ := h.exists_read_of_move hmove
    obtain ⟨v, r, last, hpath, rfl, rfl⟩ := ih hmoves
    refine ⟨x ++ v, r, last, .step hread hpath, ?_, ?_⟩
    · rw [List.append_assoc]
    · rw [List.append_assoc]

/-- An accepted word is read by a path from the initial state to a final one. -/
theorem exists_path_of_accepts (h : m.HasOneTape) (hw : m.Accepts w) :
    ∃ q ∈ m.finals, m.Path m.initial w q := by
  obtain ⟨n, d, hmoves, hd⟩ := h.accepts_iff_moves.1 hw
  obtain ⟨v, q, after, hpath, rfl, rfl⟩ := h.path_of_moves hmoves
  obtain ⟨hq, rfl⟩ := accepted_reading_iff.1 hd
  rw [List.append_nil]
  exact ⟨q, hq, hpath⟩

/-! ## Symbols that do not get in each other's way -/

/-- Symbols of at most one character do not get in each other's way. -/
theorem readsFreely_of_width_eq_one (h : m.HasOneTape) (hw : m.width = 1) : m.ReadsFreely := by
  intro p x q y r _ hy hbegins
  have hlength : y.length ≤ m.width := h.wellFormed.length_read_le hy (List.mem_singleton_self y)
  rcases Nat.lt_or_ge x.length y.length with hlt | hge
  · exact .inr ⟨List.length_eq_zero_iff.1 (by omega), by omega⟩
  · exact .inl (hbegins.eq_of_length_le hge)

/-- If symbols do not get in each other's way, every transition is taken that reads what comes
next. -/
theorem move_of_reads (h : m.HasOneTape) (hfree : m.ReadsFreely) (hread : m.Reads p x q)
    (before after : Word) :
    m.Move (m.reading p before (x ++ after)) (m.reading q (before ++ x) after) := by
  have hmem : ∀ width, x = (x ++ after).take width ∨ x = epsilon →
      m.reading q (before ++ x) after ∈ m.stepAt (m.reading p before (x ++ after)) width :=
    fun width hmatch => h.mem_stepAt_reading_iff.2 ⟨x, q, after, hread, hmatch, rfl, rfl⟩
  by_cases hx : x = epsilon
  · -- Reading nothing matches with the largest width.
    refine mem_step_of_stays m.width_pos (Nat.le_refl _) (hmem _ (.inr hx)) ?_
    intro wider _ _ _
    exact hmem wider (.inr hx)
  · have hpos : 0 < x.length := List.length_pos_iff.2 hx
    have hle : x.length ≤ m.width := h.wellFormed.length_read_le hread (List.mem_singleton_self x)
    have htake : x = (x ++ after).take x.length := List.take_left.symm
    refine mem_step_of_stays hpos hle (hmem _ (.inl htake)) fun wider hlonger hwidth hsome => ?_
    -- Whatever matches with a larger width is comparable with the symbol, so it is the same.
    obtain ⟨e, he⟩ := List.exists_mem_of_ne_nil _ hsome
    obtain ⟨y, r, -, hother, hy, -, -⟩ := h.mem_stepAt_reading_iff.1 he
    rcases hy with rfl | rfl
    · have hprefix : x <+: (x ++ after).take wider := by
        rw [List.prefix_take_iff]
        exact ⟨List.prefix_append x after, hlonger⟩
      rcases hfree p x q _ r hread hother hprefix with heq | ⟨hempty, -⟩
      · exact hmem wider (.inl heq)
      · exact absurd hempty hx
    · rcases hfree p epsilon r x q hother hread List.nil_prefix with heq | ⟨-, hlong⟩
      · exact absurd heq.symm hx
      · have hwider : wider = x.length := by omega
        rw [hwider]
        exact hmem _ (.inl htake)

/-- If symbols do not get in each other's way, every path is followed by moves. -/
theorem moves_of_path (h : m.HasOneTape) (hfree : m.ReadsFreely) (hpath : m.Path p w q)
    (before after : Word) :
    ∃ n, Moves m.Move n (m.reading p before (w ++ after)) (m.reading q (before ++ w) after) := by
  induction hpath generalizing before with
  | refl q =>
    rw [List.append_nil]
    exact ⟨0, .refl _⟩
  | @step p q r x w hread _ ih =>
    have hmove := h.move_of_reads hfree hread before (w ++ after)
    obtain ⟨n, hmoves⟩ := ih (before ++ x)
    rw [List.append_assoc] at hmoves ⊢
    exact ⟨n + 1, .step hmove hmoves⟩

/-- If symbols do not get in each other's way, no word is lost. -/
theorem not_loses (h : m.HasOneTape) (hfree : m.ReadsFreely) (w : Word) : ¬ m.Loses w := by
  rintro ⟨⟨q, hq, hpath⟩, hno⟩
  obtain ⟨n, hmoves⟩ := h.moves_of_path hfree hpath [] []
  rw [List.append_nil] at hmoves
  exact hno (h.accepts_iff_moves.2 ⟨n, _, hmoves, accepted_reading_iff.2 ⟨hq, rfl⟩⟩)

end HasOneTape

end MachineLang.Machine

import MachineLang.Machine.Rename
import MachineLang.Proofs.Embedding

/-!
# Words along paths

A textbook automaton is a finite automaton with one bounded tape whose symbols are single
characters. Its computations are paths of transitions: a configuration is a state and the part of
the word that is still to be read, and a move takes a transition and what it reads off that part
(`move_reading_iff`). So a word is accepted within a limit if fewer transitions than the limit lead
from the initial state to a final one and their labels make up the word (`testWithin_iff_run`). If
every transition reads something, as many layers as the word has characters, and one more, are
enough to decide (`testWithin_of_readsAlways`).
-/

namespace MachineLang.Machine

/-- Some number of layers is enough to accept a word. -/
def Accepts (m : Machine .finite) (w : Word) : Prop :=
  ∃ limit, m.testWithin [w] limit = .ok (some true)

/-- A finite automaton with one bounded tape and with symbols of one character. -/
structure IsTextbook (m : Machine .finite) : Prop where
  /-- Some definition describes the automaton. -/
  built : m.IsBuilt
  /-- There is one tape. -/
  tapeCount_eq : m.tapeCount = 1
  /-- The tape is bounded. -/
  bounded : m.bounded = true
  /-- The longest symbol has one character. -/
  width_eq : m.width = 1

/-- A finite automaton with one bounded tape; its symbols may have any length. -/
structure HasOneTape (m : Machine .finite) : Prop where
  /-- Some definition describes the automaton. -/
  built : m.IsBuilt
  /-- There is one tape. -/
  tapeCount_eq : m.tapeCount = 1
  /-- The tape is bounded. -/
  bounded : m.bounded = true

/-- A transition between two states reads a symbol. -/
def Reads (m : Machine .finite) (p : State) (x : Symbol) (q : State) : Prop :=
  ⟨p, [x], q, ()⟩ ∈ m.transitions

/-- A path of transitions from one state to another reads a word. -/
inductive Path (m : Machine .finite) : State → Word → State → Prop
  /-- No transition reads nothing. -/
  | refl (q : State) : Path m q [] q
  /-- A transition in front of a path reads in front of what the path reads. -/
  | step {p q r : State} {x : Symbol} {w : Word} : m.Reads p x q → Path m q w r →
      Path m p (x ++ w) r

/-- Transitions one behind the other, from one state to another. -/
inductive Run (m : Machine .finite) : State → List (Transition .finite) → State → Prop
  /-- No transitions stay where they are. -/
  | nil (q : State) : Run m q [] q
  /-- A transition in front of a run makes a longer run. -/
  | cons {t : Transition .finite} {run : List (Transition .finite)} {q : State} :
      t ∈ m.transitions → Run m t.target run q → Run m t.source (t :: run) q

/-- What the transitions of a run read from the only tape, one behind the other. -/
def label (run : List (Transition .finite)) : Word := run.flatMap fun t => t.read.flatten

/-- Every transition reads something, so a word bounds the length of its paths. -/
def ReadsAlways (m : Machine .finite) : Prop := ∀ p q, ¬ m.Reads p epsilon q

/-- A configuration in which a part of the word has been read and the rest has not. -/
def reading (m : Machine .finite) (q : State) (before rest : Word) : Configuration :=
  m.configuration q [⟨before ++ rest, before.length, blankChar, true⟩]

variable {m : Machine .finite} {p q r : State} {c : Char} {v w : Word} {x : Symbol}

/-! ## Paths -/

/-- A symbol of at most one character is empty or one character. -/
theorem eq_epsilon_or_singleton (h : x.length ≤ 1) : x = epsilon ∨ ∃ c, x = [c] := by
  match x, h with
  | [], _ => exact .inl rfl
  | [c], _ => exact .inr ⟨c, rfl⟩

/-- A transition reads in front of what the run behind it reads. -/
theorem label_cons {t : Transition .finite} {run : List (Transition .finite)} (h : t.read = [x]) :
    label (t :: run) = x ++ label run := by
  unfold label
  rw [List.flatMap_cons, h, List.flatten_singleton]

namespace Path

/-- Paths one behind the other read one word behind the other. -/
theorem append (h : m.Path p v q) (h' : m.Path q w r) : m.Path p (v ++ w) r := by
  induction h with
  | refl q => exact h'
  | step hread _ ih =>
    rw [List.append_assoc]
    exact step hread (ih h')

/-- A transition is a path that reads its symbol. -/
theorem single (h : m.Reads p x q) : m.Path p x q := by
  have hpath : m.Path p (x ++ []) q := step h (refl q)
  rwa [List.append_nil] at hpath

/-- A path is empty or begins with a transition. -/
theorem cases_head (h : m.Path p w r) :
    (p = r ∧ w = []) ∨ ∃ x q v, m.Reads p x q ∧ m.Path q v r ∧ w = x ++ v := by
  cases h with
  | refl q => exact .inl ⟨rfl, rfl⟩
  | step hread hpath => exact .inr ⟨_, _, _, hread, hpath, rfl⟩

/-- A path from a state of a well-formed automaton leads to another one. -/
theorem mem_states (hm : m.WellFormed) (h : m.Path p w q) (hp : p ∈ m.states) : q ∈ m.states := by
  induction h with
  | refl q => exact hp
  | step hread _ ih => exact ih (hm.target_mem ⟨_, _, _, ()⟩ hread)

/-- The paths of an automaton are paths of every one that has its transitions. -/
theorem mono {whole : Machine .finite} (h : m.Path p w q)
    (hsub : ∀ t ∈ m.transitions, t ∈ whole.transitions) : whole.Path p w q := by
  induction h with
  | refl q => exact .refl q
  | step hread _ ih => exact .step (hsub _ hread) ih

end Path

namespace HasOneTape

/-- The parts of an automaton with one tape fit together. -/
theorem wellFormed (h : m.HasOneTape) : m.WellFormed := h.built.wellFormed

/-- Every transition of an automaton with one tape reads a symbol. -/
theorem exists_read (h : m.HasOneTape) {t : Transition .finite} (ht : t ∈ m.transitions) :
    ∃ x, t.read = [x] ∧ m.Reads t.source x t.target := by
  have hfits := h.wellFormed.fits t ht
  unfold fits at hfits
  rw [h.tapeCount_eq, Bool.and_eq_true, beq_iff_eq] at hfits
  obtain ⟨x, hx⟩ := List.length_eq_one_iff.1 hfits.1
  refine ⟨x, hx, ?_⟩
  unfold Reads
  rw [← hx]
  exact ht

/-- The transition between two states that reads nothing reads the empty symbol from the only
tape. -/
theorem eq_epsilonTransition_iff (h : m.HasOneTape) {source target : State} :
    (⟨p, [x], q, ()⟩ : Transition .finite) = m.epsilonTransition source target ↔
      p = source ∧ x = epsilon ∧ q = target := by
  have heq : m.epsilonTransition source target = ⟨source, [epsilon], target, ()⟩ := by
    unfold epsilonTransition
    rw [h.tapeCount_eq]
    rfl
  rw [heq]
  constructor
  · intro hsame
    injection hsame with hsource hread htarget _
    exact ⟨hsource, List.singleton_inj.1 hread, htarget⟩
  · rintro ⟨rfl, rfl, rfl⟩
    rfl

end HasOneTape

namespace IsTextbook

/-- A textbook automaton has one tape. -/
theorem hasOneTape (h : m.IsTextbook) : m.HasOneTape := ⟨h.built, h.tapeCount_eq, h.bounded⟩

/-- The parts of a textbook automaton fit together. -/
theorem wellFormed (h : m.IsTextbook) : m.WellFormed := h.built.wellFormed

/-- What a transition of a textbook automaton reads is not longer than one character. -/
theorem length_read_le_one (h : m.IsTextbook) (hread : m.Reads p x q) : x.length ≤ 1 := by
  rw [← h.width_eq]
  exact h.wellFormed.length_read_le hread (List.mem_singleton_self x)

/-- What a transition of a textbook automaton reads is empty or one character. -/
theorem read_cases (h : m.IsTextbook) (hread : m.Reads p x q) : x = epsilon ∨ ∃ c, x = [c] :=
  eq_epsilon_or_singleton (h.length_read_le_one hread)

/-- Every transition of a textbook automaton reads a symbol of the only tape. -/
theorem exists_read (h : m.IsTextbook) {t : Transition .finite} (ht : t ∈ m.transitions) :
    ∃ x, t.read = [x] ∧ m.Reads t.source x t.target :=
  h.hasOneTape.exists_read ht

/-- The path along a word that is not empty reads nothing for a while, then the first character, and
then the others. -/
theorem path_cons_iff (h : m.IsTextbook) :
    m.Path p (c :: w) r ↔
      ∃ q q', m.Path p [] q ∧ m.Reads q [c] q' ∧ m.Path q' w r := by
  constructor
  · intro hpath
    -- The induction is on the path; its first transition reads nothing or the character.
    generalize hword : c :: w = word at hpath
    induction hpath with
    | refl q => simp at hword
    | @step p q r x v hread hpath ih =>
      rcases h.read_cases hread with rfl | ⟨d, rfl⟩
      · obtain ⟨s, s', hempty, hchar, hrest⟩ := ih hword
        exact ⟨s, s', .step hread hempty, hchar, hrest⟩
      · obtain ⟨rfl, rfl⟩ := List.cons.inj hword
        exact ⟨p, q, .refl p, hread, hpath⟩
  · rintro ⟨q, q', hempty, hchar, hrest⟩
    have hpath : m.Path p ([] ++ ([c] ++ w)) r := hempty.append (.step hchar hrest)
    exact hpath

end IsTextbook

/-! ## Computations are paths -/

/-- A configuration accepts in a final state with nothing left to read. -/
theorem accepted_reading_iff {before rest : Word} :
    (m.reading q before rest).accepted = true ↔ q ∈ m.finals ∧ rest = [] := by
  have hend : MachineKind.finite.acceptsTapes [standing (before ++ rest) before.length] = true ↔
      rest = [] := by
    show ((standing _ _).isAtEnd && true) = true ↔ _
    rw [Bool.and_true, isAtEnd_standing_iff]
  show (m.finals.contains q && _) = true ↔ _
  rw [Bool.and_eq_true, SortedSet.contains_iff]
  exact and_congr_right fun _ => hend

/-- The first characters that are left are read from the only tape. -/
theorem read_reading (width : Nat) (before rest : Word) :
    MachineKind.finite.read width (m.reading q before rest).tapes = [rest.take width] := by
  show [Tape.read _ width] = _
  unfold Tape.read
  rw [if_pos rfl, List.drop_left]

/-- A symbol matches what is left to read if it is in front of it. -/
theorem matchesRead_take_iff {rest : Word} (hx : x.length ≤ 1) :
    matchesRead false [x] [rest.take 1] = true ↔ ∃ after, rest = x ++ after := by
  match x, hx with
  | [], _ => simp [matchesRead, epsilon]
  | [c], _ =>
    cases rest with
    | nil => simp [matchesRead, epsilon]
    | cons d rest =>
      simp only [matchesRead, epsilon, List.take_succ_cons, List.take_zero, List.cons_append,
        List.nil_append, List.cons.injEq]
      simp
      exact eq_comm

/-- The head stands behind a symbol that was read. -/
theorem configuration_skip (before after : Word) :
    m.configuration q (MachineKind.finite.act [x] () (m.reading p before (x ++ after)).tapes) =
      m.reading q (before ++ x) after := by
  have hle : before.length + x.length ≤ (before ++ (x ++ after)).length := by
    simp only [List.length_append]
    omega
  show m.configuration q [(standing (before ++ (x ++ after)) before.length).shift x.length] = _
  rw [shift_standing hle, ← List.length_append, ← List.append_assoc]
  rfl

/-- A move of a textbook automaton takes a transition and what it reads: nothing, or the first
character of the rest, which then belongs to what was read. -/
theorem IsTextbook.move_reading_iff (h : m.IsTextbook) {before rest : Word} {d : Configuration} :
    m.Move (m.reading p before rest) d ↔
      ∃ x q after, m.Reads p x q ∧ rest = x ++ after ∧ d = m.reading q (before ++ x) after := by
  unfold Move
  rw [mem_step_of_width_eq_one h.width_eq, read_reading]
  constructor
  · -- Reading at most one character, the pattern matches if what it reads is the beginning of the
    -- rest.
    rintro ⟨⟨source, read, target, action⟩, ht, rfl, hmatch, rfl⟩
    obtain ⟨x, hx, hread⟩ := h.exists_read ht
    dsimp only at hx hread hmatch ⊢
    subst hx
    obtain ⟨after, rfl⟩ := (matchesRead_take_iff (h.length_read_le_one hread)).1 hmatch
    exact ⟨x, target, after, hread, rfl, configuration_skip before after⟩
  · rintro ⟨x, q, after, hread, rfl, rfl⟩
    have hmatch : matchesRead false [x] [(x ++ after).take 1] = true :=
      (matchesRead_take_iff (h.length_read_le_one hread)).2 ⟨after, rfl⟩
    exact ⟨_, hread, rfl, hmatch, (configuration_skip before after).symm⟩

/-- Moves of a textbook automaton follow a run of as many transitions: what the run reads passes
from the rest to what was read before, and nothing else of the tape matters. -/
theorem IsTextbook.moves_reading_iff (h : m.IsTextbook) {n : Nat} {before rest : Word}
    {d : Configuration} :
    Moves m.Move n (m.reading p before rest) d ↔
      ∃ run q after, m.Run p run q ∧ run.length = n ∧ rest = label run ++ after ∧
        d = m.reading q (before ++ label run) after := by
  -- The induction is on the moves; each of them moves a symbol from the rest to what was read.
  induction n generalizing p before rest with
  | zero =>
    rw [Moves.zero_iff]
    constructor
    · rintro rfl
      exact ⟨[], p, rest, .nil p, rfl, rfl, by rw [label, List.flatMap_nil, List.append_nil]⟩
    · rintro ⟨run, q, after, hrun, hlength, rfl, rfl⟩
      obtain rfl := List.length_eq_zero_iff.1 hlength
      cases hrun
      rw [label, List.flatMap_nil, List.nil_append, List.append_nil]
  | succ n ih =>
    rw [Moves.succ_iff]
    constructor
    · rintro ⟨b, hmove, hmoves⟩
      obtain ⟨x, q, after, hread, rfl, rfl⟩ := h.move_reading_iff.1 hmove
      obtain ⟨run, r, last, hrun, rfl, rfl, rfl⟩ := ih.1 hmoves
      refine ⟨⟨p, [x], q, ()⟩ :: run, r, last, .cons hread hrun, rfl, ?_, ?_⟩
      · rw [label_cons rfl, List.append_assoc]
      · rw [label_cons rfl, List.append_assoc]
    · rintro ⟨run, r, last, hrun, hlength, rfl, rfl⟩
      cases hrun with
      | nil q => simp at hlength
      | @cons t run _ ht hrun =>
        obtain ⟨x, hx, hread⟩ := h.exists_read ht
        have hmove : m.Move (m.reading t.source before (label (t :: run) ++ last))
            (m.reading t.target (before ++ x) (label run ++ last)) := by
          refine h.move_reading_iff.2 ⟨x, t.target, _, hread, ?_, rfl⟩
          rw [label_cons hx, List.append_assoc]
        refine ⟨_, hmove, ih.2 ⟨run, r, last, hrun, Nat.succ.inj hlength, rfl, ?_⟩⟩
        rw [label_cons hx, List.append_assoc]

/-- A path is what a run reads. -/
theorem IsTextbook.path_iff_run (h : m.IsTextbook) :
    m.Path p w q ↔ ∃ run, m.Run p run q ∧ label run = w := by
  constructor
  · intro hpath
    induction hpath with
    | refl q => exact ⟨[], .nil q, rfl⟩
    | @step p q r x w hread _ ih =>
      obtain ⟨run, hrun, rfl⟩ := ih
      exact ⟨⟨p, [x], q, ()⟩ :: run, .cons hread hrun, label_cons rfl⟩
  · rintro ⟨run, hrun, rfl⟩
    induction hrun with
    | nil q => exact .refl q
    | @cons t run q ht _ ih =>
      obtain ⟨x, hx, hread⟩ := h.exists_read ht
      rw [label_cons hx]
      exact .step hread ih

/-- Moves of a textbook automaton follow a path. -/
theorem IsTextbook.path_of_moves (h : m.IsTextbook) {n : Nat} {before rest : Word}
    {d : Configuration} (hmoves : Moves m.Move n (m.reading p before rest) d) :
    ∃ v q after, m.Path p v q ∧ rest = v ++ after ∧ d = m.reading q (before ++ v) after := by
  obtain ⟨run, q, after, hrun, -, hrest, hd⟩ := h.moves_reading_iff.1 hmoves
  exact ⟨label run, q, after, h.path_iff_run.2 ⟨run, hrun, rfl⟩, hrest, hd⟩

/-- A path of a textbook automaton is followed by moves. -/
theorem IsTextbook.moves_of_path (h : m.IsTextbook) (hpath : m.Path p v q) (before after : Word) :
    ∃ n, Moves m.Move n (m.reading p before (v ++ after)) (m.reading q (before ++ v) after) := by
  obtain ⟨run, hrun, rfl⟩ := h.path_iff_run.1 hpath
  exact ⟨run.length, h.moves_reading_iff.2 ⟨run, q, after, hrun, rfl, rfl, rfl⟩⟩

namespace HasOneTape

/-- An automaton with one tape begins with the whole word in front of it. -/
theorem start_eq_reading (h : m.HasOneTape) (w : Word) :
    m.start [w] = m.reading m.initial [] w := by
  unfold start loadTapes reading
  rw [h.tapeCount_eq, h.bounded]
  rfl

/-- The verdict of an automaton with one tape is one on its start configuration. -/
theorem testWithin_eq_verdict (h : m.HasOneTape) (w : Word) (limit : Nat) :
    m.testWithin [w] limit = .ok (m.verdictFrom limit [m.reading m.initial [] w]) := by
  rw [← h.start_eq_reading]
  exact testWithin_eq (by rw [h.tapeCount_eq]; exact Nat.le_refl 1) limit

/-- An automaton with one tape accepts a word if its computation reaches an accepting
configuration. -/
theorem accepts_iff_moves (h : m.HasOneTape) :
    m.Accepts w ↔
      ∃ n d, Moves m.Move n (m.reading m.initial [] w) d ∧ d.accepted = true := by
  unfold Accepts
  constructor
  · -- A positive verdict comes from moves below its limit.
    rintro ⟨limit, hverdict⟩
    rw [h.testWithin_eq_verdict] at hverdict
    have htrue : m.verdictFrom limit [m.reading m.initial [] w] = some true := by
      injection hverdict
    obtain ⟨n, -, d, hmoves, hd⟩ := verdict_eq_true_iff.1 htrue
    exact ⟨n, d, hmoves, hd⟩
  · rintro ⟨n, d, hmoves, hd⟩
    refine ⟨n + 1, ?_⟩
    rw [h.testWithin_eq_verdict, verdict_eq_true_iff.2 ⟨n, by omega, d, hmoves, hd⟩]

/-- A word on which an automaton with one tape dies out is not accepted. -/
theorem not_accepts_of_false (h : m.HasOneTape) {limit : Nat}
    (hfalse : m.testWithin [w] limit = .ok (some false)) : ¬ m.Accepts w := by
  rintro ⟨limit', htrue⟩
  rw [h.testWithin_eq_verdict] at hfalse htrue
  have hno : m.verdictFrom limit [m.reading m.initial [] w] = some false := by injection hfalse
  have hyes : m.verdictFrom limit' [m.reading m.initial [] w] = some true := by injection htrue
  have hno' := verdict_mono hno (Nat.le_max_left limit limit')
  rw [verdict_mono hyes (Nat.le_max_right limit limit')] at hno'
  simp at hno'

end HasOneTape

/-- The verdict of a textbook automaton is one on its start configuration. -/
theorem IsTextbook.testWithin_eq_verdict (h : m.IsTextbook) (w : Word) (limit : Nat) :
    m.testWithin [w] limit = .ok (m.verdictFrom limit [m.reading m.initial [] w]) :=
  h.hasOneTape.testWithin_eq_verdict w limit

/-- A textbook automaton accepts a word if its computation reaches an accepting configuration. -/
theorem IsTextbook.accepts_iff_moves (h : m.IsTextbook) :
    m.Accepts w ↔
      ∃ n d, Moves m.Move n (m.reading m.initial [] w) d ∧ d.accepted = true :=
  h.hasOneTape.accepts_iff_moves

/-- A textbook automaton accepts the words along the paths from its initial state to its final
ones. -/
theorem IsTextbook.accepts_iff_path (h : m.IsTextbook) :
    m.Accepts w ↔ ∃ q ∈ m.finals, m.Path m.initial w q := by
  rw [h.accepts_iff_moves]
  constructor
  · rintro ⟨n, d, hmoves, hd⟩
    obtain ⟨v, q, after, hpath, rfl, rfl⟩ := h.path_of_moves hmoves
    obtain ⟨hq, rfl⟩ := accepted_reading_iff.1 hd
    rw [List.append_nil]
    exact ⟨q, hq, hpath⟩
  · rintro ⟨q, hq, hpath⟩
    obtain ⟨n, hmoves⟩ := h.moves_of_path hpath [] []
    rw [List.append_nil] at hmoves
    exact ⟨n, _, hmoves, accepted_reading_iff.2 ⟨hq, rfl⟩⟩

/-- A word on which a textbook automaton dies out is not accepted. -/
theorem IsTextbook.not_accepts_of_false (h : m.IsTextbook) {limit : Nat}
    (hfalse : m.testWithin [w] limit = .ok (some false)) : ¬ m.Accepts w :=
  h.hasOneTape.not_accepts_of_false hfalse

/-- A textbook automaton accepts within a limit if a run of fewer transitions reads the word and
ends in a final state. -/
theorem IsTextbook.acceptsWithin_iff_run (h : m.IsTextbook) {limit : Nat} :
    m.AcceptsWithin limit (m.reading m.initial [] w) ↔
      ∃ run, run.length < limit ∧ label run = w ∧ ∃ q ∈ m.finals, m.Run m.initial run q := by
  constructor
  · rintro ⟨n, hn, d, hmoves, hd⟩
    obtain ⟨run, q, after, hrun, rfl, rfl, rfl⟩ := h.moves_reading_iff.1 hmoves
    obtain ⟨hq, rfl⟩ := accepted_reading_iff.1 hd
    exact ⟨run, hn, (List.append_nil _).symm, q, hq, hrun⟩
  · rintro ⟨run, hlength, rfl, q, hq, hrun⟩
    refine ⟨run.length, hlength, m.reading q ([] ++ label run) [], ?_,
      accepted_reading_iff.2 ⟨hq, rfl⟩⟩
    exact h.moves_reading_iff.2 ⟨run, q, [], hrun, rfl, (List.append_nil _).symm, rfl⟩

/-- The verdict of a textbook automaton is acceptance as in a textbook: every transition reads
nothing or one character, and a word is accepted within a limit if and only if fewer transitions
than the limit lead from the initial state to a final one and make up the word by what they read. -/
theorem testWithin_iff_run (m : Machine .finite) (h : m.IsTextbook) (w : Word) :
    (∀ t ∈ m.transitions, t.read = [epsilon] ∨ ∃ c : Char, t.read = [[c]]) ∧
    (∀ limit, m.testWithin [w] limit = .ok (some true) ↔
      ∃ run, run.length < limit ∧ label run = w ∧ ∃ q ∈ m.finals, m.Run m.initial run q) ∧
    ((∃ limit, m.testWithin [w] limit = .ok (some true)) ↔
      ∃ run, label run = w ∧ ∃ q ∈ m.finals, m.Run m.initial run q) := by
  -- The statement for a single limit carries the other one: a run is shorter than some limit.
  have hlimit : ∀ limit, m.testWithin [w] limit = .ok (some true) ↔
      ∃ run, run.length < limit ∧ label run = w ∧ ∃ q ∈ m.finals, m.Run m.initial run q := by
    intro limit
    rw [h.testWithin_eq_verdict, Except.ok.injEq, verdict_eq_true_iff, h.acceptsWithin_iff_run]
  refine ⟨fun t ht => ?_, hlimit, ?_⟩
  · obtain ⟨x, hx, hread⟩ := h.exists_read ht
    rcases h.read_cases hread with rfl | ⟨c, rfl⟩
    · exact .inl hx
    · exact .inr ⟨c, hx⟩
  · constructor
    · rintro ⟨limit, hverdict⟩
      obtain ⟨run, -, hword, hfinal⟩ := (hlimit limit).1 hverdict
      exact ⟨run, hword, hfinal⟩
    · rintro ⟨run, hword, hfinal⟩
      exact ⟨run.length + 1, (hlimit _).2 ⟨run, Nat.lt_succ_self _, hword, hfinal⟩⟩

/-- An automaton for letters "a" with single spaces between them, which may wait in front of a
space. -/
def spacing : Machine .finite :=
  build {
    transitions := [⟨"letter", [['a']], "gap", ()⟩, ⟨"gap", [epsilon], "gap", ()⟩,
      ⟨"gap", [blank], "letter", ()⟩]
    initial := "letter"
    finals := .single "gap"
    bounded := true }

/-- Two letters with a space between them are read by three transitions, so four layers accept them
and three do not. Two letters without a space are read by no run of fewer than four transitions. -/
theorem testWithin_spacing :
    spacing.IsTextbook ∧ spacing.testWithin [['a', ' ', 'a']] 4 = .ok (some true) ∧
      spacing.testWithin [['a', ' ', 'a']] 3 = .ok none ∧
      ¬ ∃ run, run.length < 4 ∧ label run = ['a', 'a'] ∧
        ∃ q ∈ spacing.finals, spacing.Run spacing.initial run q := by
  have hspacing : spacing.IsTextbook := ⟨isBuilt_build (by decide), rfl, rfl, by decide +kernel⟩
  obtain ⟨-, hlimit, -⟩ := testWithin_iff_run spacing hspacing ['a', ' ', 'a']
  obtain ⟨-, hlimit', -⟩ := testWithin_iff_run spacing hspacing ['a', 'a']
  -- The three transitions of the run are spelled out; the rejection within three layers is
  -- computed.
  have hletter : (⟨"letter", [['a']], "gap", ()⟩ : Transition .finite) ∈ spacing.transitions :=
    mem_transitions_build.2 List.mem_cons_self
  have hgap : (⟨"gap", [blank], "letter", ()⟩ : Transition .finite) ∈ spacing.transitions :=
    mem_transitions_build.2 (List.mem_cons_of_mem _ (List.mem_cons_of_mem _ List.mem_cons_self))
  have hrun := Run.cons hletter (Run.cons hgap (Run.cons hletter (Run.nil "gap")))
  refine ⟨hspacing, (hlimit 4).2 ⟨_, by decide, by decide, "gap", ?_, hrun⟩, by decide +kernel, ?_⟩
  · exact List.mem_singleton_self "gap"
  · rw [← hlimit']
    decide +kernel

/-- The automaton that may wait is a textbook automaton. -/
theorem isTextbook_waiting : waiting.IsTextbook :=
  ⟨isBuilt_build (by decide), rfl, rfl, by decide +kernel⟩

/-! ## Automata that always read -/

/-- If every transition reads, a computation makes no more moves than there are characters. -/
theorem IsTextbook.moves_le_length (h : m.IsTextbook) (hread : m.ReadsAlways) {n : Nat}
    {before rest : Word} {d : Configuration}
    (hmoves : Moves m.Move n (m.reading p before rest) d) : n ≤ rest.length := by
  generalize hc : m.reading p before rest = c at hmoves
  induction hmoves generalizing p before rest with
  | refl c => exact Nat.zero_le _
  | step hmove _ ih =>
    subst hc
    obtain ⟨x, q, after, hx, rfl, rfl⟩ := h.move_reading_iff.1 hmove
    have hle := ih rfl
    rcases h.read_cases hx with rfl | ⟨c, rfl⟩
    · exact absurd hx (hread p q)
    · rw [List.length_append, List.length_singleton]
      omega

/-- If every transition reads, one more layer than there are characters is enough to decide. -/
theorem IsTextbook.testWithin_of_readsAlways (h : m.IsTextbook) (hread : m.ReadsAlways)
    (w : Word) :
    (m.Accepts w → m.testWithin [w] (w.length + 1) = .ok (some true)) ∧
      (¬ m.Accepts w → m.testWithin [w] (w.length + 1) = .ok (some false)) := by
  rw [h.accepts_iff_moves, h.testWithin_eq_verdict]
  constructor
  · rintro ⟨n, d, hmoves, hd⟩
    have hle := h.moves_le_length hread hmoves
    rw [verdict_eq_true_iff.2 ⟨n, by omega, d, hmoves, hd⟩]
  · -- No accepting configuration is ever reached, and after as many moves as there are characters
    -- none is open.
    intro hno
    rw [verdict_eq_false_iff.2 ⟨?_, ?_⟩]
    · rintro ⟨n, -, d, hmoves, hd⟩
      exact hno ⟨n, d, hmoves, hd⟩
    · rintro ⟨d, hmoves⟩
      have hle := h.moves_le_length hread hmoves
      omega

/-! ## Paths of a part -/

/-- The transitions of a part stay among its states. -/
theorem Embedding.reads_mem {whole : Machine .finite} {f : State → State}
    (e : Embedding m whole f) (hread : m.Reads p x q) : q ∈ m.states :=
  e.target_mem ⟨p, [x], q, ()⟩ hread

/-- The transitions that leave a state of a part are those of the part. -/
theorem Embedding.reads_iff {whole : Machine .finite} {f : State → State} (e : Embedding m whole f)
    (hp : p ∈ m.states) : whole.Reads (f p) x r ↔ ∃ q, m.Reads p x q ∧ r = f q := by
  constructor
  · intro hread
    obtain ⟨⟨source, read, target, action⟩, ht, rfl, heq⟩ := e.of_mem p hp _ hread rfl
    injection heq with _ hreadEq htarget _
    subst hreadEq htarget
    exact ⟨target, ht, rfl⟩
  · rintro ⟨q, hread, rfl⟩
    exact e.map_mem _ hread

/-- The paths from a state of a part are those of the part. -/
theorem Embedding.path_iff {whole : Machine .finite} {f : State → State} (e : Embedding m whole f)
    (hp : p ∈ m.states) : whole.Path (f p) w r ↔ ∃ q, m.Path p w q ∧ r = f q := by
  constructor
  · intro hpath
    generalize hstart : f p = start at hpath
    -- A path that starts inside stays inside: each of its states is the image of one of the part.
    induction hpath generalizing p with
    | refl q => exact ⟨p, .refl p, hstart.symm⟩
    | step hread _ ih =>
      subst hstart
      obtain ⟨q, hown, rfl⟩ := (e.reads_iff hp).1 hread
      obtain ⟨r, hpath, rfl⟩ := ih (e.reads_mem hown) rfl
      exact ⟨r, .step hown hpath, rfl⟩
  · rintro ⟨q, hpath, rfl⟩
    induction hpath with
    | refl q => exact .refl _
    | step hread _ ih =>
      exact .step ((e.reads_iff hp).2 ⟨_, hread, rfl⟩) (ih (e.reads_mem hread))

end MachineLang.Machine

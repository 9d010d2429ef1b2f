import MachineLang.Machine.Rename
import MachineLang.Machine.Run
import MachineLang.Proofs.Matching
import Mathlib.Data.List.Forall2
import Mathlib.Data.Nat.Basic
import Mathlib.Order.Basic
import Mathlib.Tactic.Tauto

/-!
# The transitions of a machine

A machine keeps its transitions in two nested maps. Here they become a list again: building a
machine keeps exactly the transitions of its definition (`mem_transitions_build`), and a step
follows exactly those that leave the state and match what is read (`mem_stepAt`). `WellFormed`
collects what building guarantees besides: the parts of a machine that is built from an accepted
definition fit together (`IsBuilt.wellFormed`).
-/

namespace MachineLang.Machine

variable {k : MachineKind}

/-! ## Transitions -/

/-- The nested maps hold a transition: its target stands in the list for its state and its
pattern. -/
def Holds (choices : SortedMap State (Choices k)) (t : Transition k) : Prop :=
  ∃ byRead targets, choices.find? t.source = some byRead ∧ byRead.find? t.read = some targets ∧
    ⟨t.target, t.action⟩ ∈ targets

/-- A target is added to a list, where it is found afterwards with those that were there. If it was
there before, the list stays as it is. -/
theorem mem_addTarget {target target' : Target k} {targets : List (Target k)} :
    target' ∈ addTarget target targets ↔ target' = target ∨ target' ∈ targets := by
  unfold addTarget
  split
  · next h =>
    have : target ∈ targets := by simpa using h
    constructor
    · exact Or.inr
    · rintro (rfl | h)
      · exact this
      · exact h
  · rw [List.mem_append, List.mem_singleton, or_comm]

/-- Adding a transition keeps the others: only the choices of its source change, and of these only
the targets of what it reads. -/
theorem holds_addTransition {choices : SortedMap State (Choices k)} {t u : Transition k} :
    Holds (addTransition choices t) u ↔ u = t ∨ Holds choices u := by
  obtain ⟨source, read, target, action⟩ := t
  obtain ⟨source', read', target', action'⟩ := u
  unfold Holds addTransition
  simp only [SortedMap.find?_update, Transition.mk.injEq]
  -- Only the choices of the source change, and of these only the targets of the pattern.
  by_cases hs : source' = source
  · subst hs
    by_cases hr : read' = read
    · subst hr
      cases hc : choices.find? source' with
      | none => simp [mem_addTarget]
      | some byRead =>
        cases hb : byRead.find? read' with
        | none => simp [hb, mem_addTarget]
        | some targets => simp [hb, mem_addTarget]
    · cases hc : choices.find? source' with
      | none => simp [hr]
      | some byRead => simp [hr]
  · simp [hs]

/-- Adding transitions keeps the others, and adds nothing but them. -/
theorem holds_foldl_addTransition {l : List (Transition k)}
    {choices : SortedMap State (Choices k)} {t : Transition k} :
    Holds (l.foldl addTransition choices) t ↔ t ∈ l ∨ Holds choices t := by
  induction l generalizing choices with
  | nil => simp
  | cons u rest ih =>
    rw [List.foldl_cons, ih, holds_addTransition, List.mem_cons, or_left_comm, or_assoc]

/-- What leaves a state by a pattern. -/
theorem mem_choicesAt {m : Machine k} {state : State} {read : List Symbol}
    {targets : List (Target k)} :
    (read, targets) ∈ m.choicesAt state ↔
      ∃ byRead, m.choices.find? state = some byRead ∧ byRead.find? read = some targets := by
  unfold choicesAt
  cases m.choices.find? state with
  | none => simp
  | some byRead => simp [SortedMap.mem_entries_iff]

/-- The transitions are those that the nested maps hold. -/
theorem mem_transitions_iff_holds {m : Machine k} {t : Transition k} :
    t ∈ m.transitions ↔ Holds m.choices t := by
  unfold transitions transitionsOf Holds
  simp only [List.mem_flatMap, List.mem_map, Prod.exists, SortedMap.mem_entries_iff]
  constructor
  · rintro ⟨source, byRead, hb, read, targets, ht, target, htarget, rfl⟩
    exact ⟨byRead, targets, hb, ht, htarget⟩
  · rintro ⟨byRead, targets, hb, ht, htarget⟩
    exact ⟨t.source, byRead, hb, t.read, targets, ht, ⟨t.target, t.action⟩, htarget, rfl⟩

/-- The transitions that leave a state are its choices. -/
theorem mem_transitions_iff {m : Machine k} {t : Transition k} :
    t ∈ m.transitions ↔
      ∃ targets, (t.read, targets) ∈ m.choicesAt t.source ∧ ⟨t.target, t.action⟩ ∈ targets := by
  rw [mem_transitions_iff_holds]
  simp only [mem_choicesAt]
  constructor
  · rintro ⟨byRead, targets, hb, ht, htarget⟩
    exact ⟨targets, ⟨byRead, hb, ht⟩, htarget⟩
  · rintro ⟨targets, ⟨byRead, hb, ht⟩, htarget⟩
    exact ⟨byRead, targets, hb, ht, htarget⟩

/-- A built machine has the transitions of its definition. -/
@[simp] theorem mem_transitions_build {d : Definition k} {t : Transition k} :
    t ∈ (build d).transitions ↔ t ∈ d.transitions := by
  have hempty : ¬ Holds (SortedMap.empty : SortedMap State (Choices k)) t := by
    rintro ⟨byRead, targets, hb, -, -⟩
    simp at hb
  rw [mem_transitions_iff_holds]
  unfold build
  rw [holds_foldl_addTransition]
  exact or_iff_left hempty

/-! ## Steps -/

/-- The successors for a width are the ends of the transitions that leave the state and match what
is read with that width. The order of the choices does not matter here. -/
theorem mem_stepAt {m : Machine k} {c d : Configuration} {width : Nat} :
    d ∈ m.stepAt c width ↔
      ∃ t ∈ m.transitions, t.source = c.state ∧
        matchesRead false t.read (k.read width c.tapes) = true ∧
        d = m.configuration t.target (k.act t.read t.action c.tapes) := by
  unfold stepAt
  rw [List.mem_flatMap]
  -- Choices are grouped by what they read; taken apart, they are the transitions of the state.
  constructor
  · rintro ⟨⟨read, targets⟩, hchoice, hd⟩
    dsimp only at hd
    split at hd
    · next hmatch =>
      obtain ⟨target, htarget, rfl⟩ := List.mem_map.1 hd
      exact ⟨⟨c.state, read, target.state, target.action⟩,
        mem_transitions_iff.2 ⟨targets, hchoice, htarget⟩, rfl, hmatch, rfl⟩
    · simp at hd
  · rintro ⟨t, ht, hsource, hmatch, rfl⟩
    obtain ⟨targets, hchoice, htarget⟩ := mem_transitions_iff.1 ht
    rw [hsource] at hchoice
    refine ⟨(t.read, targets), hchoice, ?_⟩
    dsimp only
    rw [if_pos hmatch]
    exact List.mem_map.2 ⟨⟨t.target, t.action⟩, htarget, rfl⟩

/-- The successors up to a width are those for the largest width that has any. So a transition
counts only if nothing matches with more characters. -/
theorem mem_stepFrom {m : Machine k} {c d : Configuration} {widest : Nat} :
    d ∈ m.stepFrom c widest ↔
      ∃ width, 0 < width ∧ width ≤ widest ∧ d ∈ m.stepAt c width ∧
        ∀ wider, width < wider → wider ≤ widest → m.stepAt c wider = [] := by
  induction widest with
  | zero =>
    constructor
    · intro h
      simp [stepFrom] at h
    · rintro ⟨width, hpos, hle, -⟩
      omega
  | succ widest ih =>
    unfold stepFrom
    dsimp only
    split
    · next hempty =>
      -- The largest width has no successors, so it changes nothing.
      have hnil := List.isEmpty_iff.1 hempty
      rw [ih]
      constructor
      · rintro ⟨width, hpos, hle, hd, hwider⟩
        refine ⟨width, hpos, by omega, hd, fun wider hlt hle' => ?_⟩
        rcases Nat.lt_or_ge widest wider with hw | hw
        · rwa [show wider = widest + 1 by omega]
        · exact hwider wider hlt hw
      · rintro ⟨width, hpos, hle, hd, hwider⟩
        refine ⟨width, hpos, ?_, hd, fun wider hlt hle' => hwider wider hlt (by omega)⟩
        rcases Nat.lt_or_ge widest width with hw | hw
        · rw [show width = widest + 1 by omega, hnil] at hd
          simp at hd
        · exact hw
    · next hsome =>
      -- The largest width has successors, so no smaller one counts.
      constructor
      · intro hd
        exact ⟨widest + 1, by omega, Nat.le_refl _, hd, fun wider hlt hle => by omega⟩
      · rintro ⟨width, hpos, hle, hd, hwider⟩
        rcases Nat.lt_or_ge widest width with hw | hw
        · rwa [show width = widest + 1 by omega] at hd
        · rw [hwider (widest + 1) (by omega) (Nat.le_refl _)] at hsome
          simp at hsome

/-- The successors of a configuration are those for the largest width that has any. -/
theorem mem_step {m : Machine k} {c d : Configuration} :
    d ∈ m.step c ↔
      ∃ width, 0 < width ∧ width ≤ m.width ∧ d ∈ m.stepAt c width ∧
        ∀ wider, width < wider → wider ≤ m.width → m.stepAt c wider = [] :=
  mem_stepFrom

/-- A successor for some width is one of the step, if it stays one for every larger width that has
successors. -/
theorem mem_step_of_stays {m : Machine k} {c d : Configuration} {width : Nat} (hpos : 0 < width)
    (hle : width ≤ m.width) (hd : d ∈ m.stepAt c width)
    (hstays : ∀ wider, width ≤ wider → wider ≤ m.width → m.stepAt c wider ≠ [] →
      d ∈ m.stepAt c wider) : d ∈ m.step c := by
  have hfrom : ∀ widest, width ≤ widest → widest ≤ m.width → d ∈ m.stepFrom c widest := by
    intro widest
    induction widest with
    | zero => omega
    | succ widest ih =>
      intro hwidth hwidest
      unfold stepFrom
      dsimp only
      split
      · next hempty =>
        -- The successor is one for the width itself, so the largest width is another one.
        refine ih (Nat.lt_succ_iff.1 (lt_of_le_of_ne hwidth ?_)) (by omega)
        rintro rfl
        rw [List.isEmpty_iff.1 hempty] at hd
        exact List.not_mem_nil hd
      · next hsome => exact hstays _ hwidth hwidest fun hnil => hsome (List.isEmpty_iff.2 hnil)
  exact hfrom m.width hle (Nat.le_refl _)

/-- If the longest symbol has one character, a step takes a transition that matches one
character. -/
theorem mem_step_of_width_eq_one {m : Machine k} (hw : m.width = 1) {c d : Configuration} :
    d ∈ m.step c ↔
      ∃ t ∈ m.transitions, t.source = c.state ∧
        matchesRead false t.read (k.read 1 c.tapes) = true ∧
        d = m.configuration t.target (k.act t.read t.action c.tapes) := by
  rw [mem_step, ← mem_stepAt]
  constructor
  · rintro ⟨width, hpos, hle, hd, -⟩
    obtain rfl : width = 1 := by omega
    exact hd
  · intro hd
    exact ⟨1, Nat.one_pos, Nat.le_of_eq hw.symm, hd, fun wider hlt hle => by omega⟩

section

variable {m : Machine k} {c c' : Configuration} {R : Configuration → Configuration → Prop}

/-- Configurations in the same state that read the same have related successors, one by one, for
each width, if the same transition keeps them related. -/
theorem forall₂_stepAt (hstate : c.state = c'.state)
    (hread : ∀ width, k.read width c.tapes = k.read width c'.tapes)
    (hact : ∀ q pattern action, R (m.configuration q (k.act pattern action c.tapes))
      (m.configuration q (k.act pattern action c'.tapes))) (width : Nat) :
    List.Forall₂ R (m.stepAt c width) (m.stepAt c' width) := by
  unfold stepAt
  rw [hstate, hread width]
  have hchoices : List.Forall₂ Eq (m.choicesAt c'.state) (m.choicesAt c'.state) :=
    List.forall₂_same.2 fun _ _ => rfl
  refine List.rel_flatMap hchoices ?_
  rintro ⟨pattern, targets⟩ _ rfl
  dsimp only
  split
  · rw [List.forall₂_map_left_iff, List.forall₂_map_right_iff, List.forall₂_same]
    exact fun target _ => hact target.state pattern target.action
  · exact .nil

/-- Configurations in the same state that read the same have related successors, one by one, if the
same transition keeps them related. -/
theorem forall₂_step (hstate : c.state = c'.state)
    (hread : ∀ width, k.read width c.tapes = k.read width c'.tapes)
    (hact : ∀ q pattern action, R (m.configuration q (k.act pattern action c.tapes))
      (m.configuration q (k.act pattern action c'.tapes))) :
    List.Forall₂ R (m.step c) (m.step c') := by
  unfold step
  induction m.width with
  | zero => exact .nil
  | succ width ih =>
    have hat := forall₂_stepAt hstate hread hact (width + 1)
    -- A width is passed over if it gives nothing, and both sides give as much as each other.
    have hempty : (m.stepAt c (width + 1)).isEmpty = (m.stepAt c' (width + 1)).isEmpty := by
      rw [Bool.eq_iff_iff, List.isEmpty_iff_length_eq_zero, List.isEmpty_iff_length_eq_zero,
        hat.length_eq]
    unfold stepFrom
    dsimp only
    rw [hempty]
    split
    · exact ih
    · exact hat

end

/-! ## What building guarantees -/

/-- Some definition describes the machine, so it satisfies all that building establishes. -/
def IsBuilt (m : Machine k) : Prop := ∃ d, new d = .ok m

/-- The parts of a machine fit together: what its transitions mention is listed among its states,
its symbols and its tapes. -/
structure WellFormed (m : Machine k) : Prop where
  /-- There is a tape. -/
  tapeCount_pos : 0 < m.tapeCount
  /-- Every transition addresses exactly the tapes. -/
  fits : ∀ t ∈ m.transitions, Machine.fits m.tapeCount t = true
  /-- Every transition leaves a state of the machine. -/
  source_mem : ∀ t ∈ m.transitions, t.source ∈ m.states
  /-- Every transition enters a state of the machine. -/
  target_mem : ∀ t ∈ m.transitions, t.target ∈ m.states
  /-- The initial state is a state of the machine. -/
  initial_mem : m.initial ∈ m.states
  /-- The final states are states of the machine. -/
  final_mem : ∀ q ∈ m.finals, q ∈ m.states
  /-- What is read is empty, blank or in the alphabet. -/
  read_mem : ∀ t ∈ m.transitions, ∀ x ∈ t.read, x = epsilon ∨ x = blank ∨ x ∈ m.alphabet
  /-- The alphabet has neither the empty symbol nor the blank. -/
  alphabet_ne : ∀ x ∈ m.alphabet, x ≠ epsilon ∧ x ≠ blank

/-- The symbols of a built machine. -/
theorem mem_alphabet_build {d : Definition k} {x : Symbol} :
    x ∈ (build d).alphabet ↔
      (x ∈ d.alphabet ∨ ∃ t ∈ d.transitions, x ∈ t.read) ∧ x ≠ epsilon ∧ x ≠ blank := by
  simp [build]

/-- Transitions that read nothing else than the alphabet of their definition add nothing to it. -/
theorem mem_alphabet_build_of_read {d : Definition k} {x : Symbol}
    (hread : ∀ t ∈ d.transitions, ∀ y ∈ t.read, y = epsilon ∨ y = blank ∨ y ∈ d.alphabet)
    (hne : ∀ y ∈ d.alphabet, y ≠ epsilon ∧ y ≠ blank) :
    x ∈ (build d).alphabet ↔ x ∈ d.alphabet := by
  rw [mem_alphabet_build]
  constructor
  · rintro ⟨h | ⟨t, ht, hx⟩, hepsilon, hblank⟩
    · exact h
    · rcases hread t ht x hx with h | h | h
      · exact absurd h hepsilon
      · exact absurd h hblank
      · exact h
  · exact fun h => ⟨.inl h, hne x h⟩

/-- The states of a built machine. -/
theorem mem_states_build {d : Definition k} {q : State} :
    q ∈ (build d).states ↔
      q = d.initial ∨ q ∈ d.states ∨ q ∈ d.finals ∨
        ∃ t ∈ d.transitions, q = t.source ∨ q = t.target := by
  simp only [build, SortedSet.mem_insertAll, SortedSet.mem_union, SortedSet.mem_insert,
    List.mem_flatMap, List.mem_cons, List.not_mem_nil, or_false, or_assoc]

/-- The number of tapes of a built machine. -/
theorem tapeCount_build (d : Definition k) : (build d).tapeCount = max 1 d.tapes.length := by
  unfold tapeCount build
  cases h : d.tapes with
  | nil => simp
  | cons tape rest => simp

/-- A machine built with the tapes of a well-formed machine has as many tapes. -/
theorem WellFormed.tapeCount_build_eq {m : Machine k} (h : m.WellFormed) {d : Definition k}
    (htapes : d.tapes = m.tapes) : (build d).tapeCount = m.tapeCount := by
  have hpos := h.tapeCount_pos
  rw [tapeCount_build, htapes]
  exact Nat.max_eq_right hpos

/-- A machine built from transitions that address every tape is well formed: its states are all that
are named anywhere in its definition, so none that is used is missing. -/
theorem wellFormed_build {d : Definition k}
    (h : ∀ t ∈ d.transitions, fits (max 1 d.tapes.length) t = true) :
    (build d).WellFormed where
  tapeCount_pos := by
    rw [tapeCount_build]
    omega
  fits t ht := by
    rw [tapeCount_build]
    exact h t (mem_transitions_build.1 ht)
  -- The states of a built machine are those that are named anywhere in its definition.
  source_mem t ht :=
    mem_states_build.2 (.inr (.inr (.inr ⟨t, mem_transitions_build.1 ht, .inl rfl⟩)))
  target_mem t ht :=
    mem_states_build.2 (.inr (.inr (.inr ⟨t, mem_transitions_build.1 ht, .inr rfl⟩)))
  initial_mem := mem_states_build.2 (.inl rfl)
  final_mem q hq := mem_states_build.2 (.inr (.inr (.inl hq)))
  read_mem t ht x hx := by
    by_cases he : x = epsilon
    · exact .inl he
    · by_cases hb : x = blank
      · exact .inr (.inl hb)
      · exact .inr (.inr (mem_alphabet_build.2 ⟨.inr ⟨t, mem_transitions_build.1 ht, hx⟩, he, hb⟩))
  alphabet_ne x hx := (mem_alphabet_build.1 hx).2

/-- A definition whose transitions address every tape describes a machine. -/
theorem new_eq_ok {d : Definition k}
    (h : ∀ t ∈ d.transitions, fits (max 1 d.tapes.length) t = true) : new d = .ok (build d) := by
  have hfind : d.transitions.find? (fun t => !fits (max 1 d.tapes.length) t) = none := by
    rw [List.find?_eq_none]
    intro t ht
    simp [h t ht]
  unfold new
  dsimp only
  rw [hfind]

/-- A definition that describes a machine has transitions that address every tape, and the machine
is built from it. -/
theorem of_new_eq_ok {d : Definition k} {m : Machine k} (h : new d = .ok m) :
    m = build d ∧ ∀ t ∈ d.transitions, fits (max 1 d.tapes.length) t = true := by
  unfold new at h
  dsimp only at h
  split at h
  · simp at h
  · next hfind =>
    refine ⟨by injection h with h; exact h.symm, fun t ht => ?_⟩
    simpa using List.find?_eq_none.1 hfind t ht

/-- Building from transitions that address every tape gives a machine that a definition
describes. -/
theorem isBuilt_build {d : Definition k}
    (h : ∀ t ∈ d.transitions, fits (max 1 d.tapes.length) t = true) : (build d).IsBuilt :=
  ⟨d, new_eq_ok h⟩

/-- Building with the tapes of a well-formed machine gives a machine that a definition describes, if
every transition addresses these tapes. -/
theorem WellFormed.isBuilt_build_of_fits {m : Machine k} (h : m.WellFormed) {d : Definition k}
    (htapes : d.tapes = m.tapes) (hfits : ∀ t ∈ d.transitions, Machine.fits m.tapeCount t = true) :
    (build d).IsBuilt := by
  have hcount : max 1 d.tapes.length = m.tapeCount := by
    rw [← tapeCount_build, h.tapeCount_build_eq htapes]
  refine isBuilt_build fun t ht => ?_
  rw [hcount]
  exact hfits t ht

/-- A transition that reads nothing addresses every tape. -/
theorem WellFormed.fits_epsilonTransition {m : Machine k} (h : m.WellFormed)
    (source target : State) :
    Machine.fits m.tapeCount (m.epsilonTransition source target) = true := by
  have hpos := h.tapeCount_pos
  unfold Machine.fits epsilonTransition
  generalize m.tapeCount = n at hpos
  cases k with
  | finite => simp [MachineKind.fits]
  | turing => simp [MachineKind.fits, MachineKind.neutral]
  | pushdown =>
    simp only [MachineKind.fits, MachineKind.neutral, List.length_replicate, beq_self_eq_true,
      Bool.true_and, beq_iff_eq]
    omega

/-- A machine that some definition describes is well formed. -/
theorem IsBuilt.wellFormed {m : Machine k} (h : m.IsBuilt) : m.WellFormed := by
  obtain ⟨d, hd⟩ := h
  obtain ⟨rfl, hfits⟩ := of_new_eq_ok hd
  exact wellFormed_build hfits

/-! ## The width -/

/-- A maximum over a list is bounded if its beginning and all members are. -/
theorem foldl_max_le_iff {l : List Symbol} {w n : Nat} :
    l.foldl (fun w symbol => max w symbol.length) w ≤ n ↔ w ≤ n ∧ ∀ x ∈ l, x.length ≤ n := by
  induction l generalizing w with
  | nil => simp
  | cons x rest ih =>
    rw [List.foldl_cons, ih]
    simp only [List.mem_cons, forall_eq_or_imp, ← and_assoc, Nat.max_le]

/-- The width is the length of the longest symbol, and at least one. -/
theorem width_le_iff {m : Machine k} {n : Nat} :
    m.width ≤ n ↔ 1 ≤ n ∧ ∀ x ∈ m.alphabet, x.length ≤ n :=
  foldl_max_le_iff

/-- The width is positive, even if there are no symbols. -/
theorem width_pos (m : Machine k) : 0 < m.width := (width_le_iff.1 (Nat.le_refl m.width)).1

/-- Alphabets with symbols of the same lengths have the same width. -/
theorem width_congr {m m' : Machine k}
    (h : ∀ n, (∀ x ∈ m.alphabet, x.length ≤ n) ↔ ∀ x ∈ m'.alphabet, x.length ≤ n) :
    m.width = m'.width := by
  refine eq_of_forall_ge_iff fun n => ?_
  rw [width_le_iff, width_le_iff, h n]

/-- If the symbols of a machine are those of two others, it reads with the width of the wider
one. -/
theorem width_eq_max {m m' whole : Machine k}
    (h : ∀ x, x ∈ whole.alphabet ↔ x ∈ m.alphabet ∨ x ∈ m'.alphabet) :
    whole.width = max m.width m'.width := by
  refine eq_of_forall_ge_iff fun n => ?_
  rw [Nat.max_le]
  simp only [width_le_iff, h, or_imp, forall_and]
  constructor
  · rintro ⟨hn, hfirst, hsecond⟩
    exact ⟨⟨hn, hfirst⟩, hn, hsecond⟩
  · rintro ⟨⟨hn, hfirst⟩, -, hsecond⟩
    exact ⟨hn, hfirst, hsecond⟩

/-- If the symbols that a definition adds are those of two well-formed machines, and everything that
its transitions read is read by these machines or is nothing, its symbols are those of both
machines. -/
theorem mem_alphabet_build_of_parts {m m' : Machine k} (hm : m.WellFormed) (hm' : m'.WellFormed)
    {d : Definition k} {x : Symbol}
    (hadds : ∀ y, y ∈ d.alphabet ↔ y ∈ m.alphabet ∨ y ∈ m'.alphabet)
    (hread : ∀ t ∈ (build d).transitions, ∀ y ∈ t.read,
      y = epsilon ∨ (∃ s ∈ m.transitions, y ∈ s.read) ∨ ∃ s ∈ m'.transitions, y ∈ s.read) :
    x ∈ (build d).alphabet ↔ x ∈ m.alphabet ∨ x ∈ m'.alphabet := by
  rw [mem_alphabet_build_of_read, hadds]
  · intro t ht y hy
    rw [hadds]
    -- Every symbol that is read belongs to one of the machines already.
    rcases hread t (mem_transitions_build.2 ht) y hy with rfl | ⟨s, hs, hy⟩ | ⟨s, hs, hy⟩
    · exact .inl rfl
    · have hown := hm.read_mem s hs y hy
      tauto
    · have hown := hm'.read_mem s hs y hy
      tauto
  · intro y hy
    rcases (hadds y).1 hy with hy | hy
    · exact hm.alphabet_ne y hy
    · exact hm'.alphabet_ne y hy

/-- No symbol is longer than the width. -/
theorem length_le_width {m : Machine k} {x : Symbol} (h : x ∈ m.alphabet) :
    x.length ≤ m.width :=
  (width_le_iff.1 (Nat.le_refl m.width)).2 x h

/-- What a transition of a well-formed machine reads is not longer than the width. -/
theorem WellFormed.length_read_le {m : Machine k} (h : m.WellFormed) {t : Transition k}
    (ht : t ∈ m.transitions) {x : Symbol} (hx : x ∈ t.read) : x.length ≤ m.width := by
  have hpos := m.width_pos
  rcases h.read_mem t ht x hx with rfl | rfl | hx
  · exact Nat.zero_le _
  · exact hpos
  · exact length_le_width hx

end MachineLang.Machine

import MachineLang.Machine.Run
import MachineLang.Proofs.Transitions

/-!
# Room for tapes

Where 64 bits or memory do not suffice, reading, writing, moving and stepping give nothing; where
they do, they give the exact result. For one tape the boundary is an inequality between its head,
its length and `cellLimit` (`Tape.write?_eq_some_iff`, `Tape.shift?_eq_some_iff`). A step of a
machine fails exactly if a transition that decides it cannot change the tapes
(`Machine.step?_eq_some_iff`): wider reads are tried first, but the transitions that do not match
change nothing.
-/

namespace MachineLang

namespace Tape

variable {t t' : Tape}

/-- A tape can have as many cells as it has, or as fit into memory. -/
theorem canStore_iff {count : Nat} :
    t.canStore count = true ↔ count ≤ max t.cells.length cellLimit := by
  unfold canStore
  rw [Bool.or_eq_true, decide_eq_true_iff, decide_eq_true_iff]
  omega

/-- The bytes of a text whose end repeats a character. -/
theorem utf8ByteSize_append_replicate (cells : List Char) (n : Nat) (c : Char) :
    (String.ofList (cells ++ List.replicate n c)).utf8ByteSize =
      (String.ofList cells).utf8ByteSize + n * c.utf8Size := by
  have hblanks : (String.ofList (List.replicate n c)).utf8ByteSize = n * c.utf8Size := by
    induction n with
    | zero => rw [List.replicate_zero, Nat.zero_mul]; rfl
    | succ n ih =>
      rw [List.replicate_succ, String.ofList_cons, String.utf8ByteSize_append,
        String.utf8ByteSize_singleton, ih, Nat.succ_mul, Nat.add_comm]
  rw [String.ofList_append, String.utf8ByteSize_append, hblanks]

/-- An unbounded tape is read if and only if what is read can be put into a text. -/
theorem read?_eq_some_iff (hb : t.bounded = false) {width : Nat} {w : Word} :
    t.read? width = some w ↔
      (String.ofList (t.read width)).utf8ByteSize ≤ byteLimit ∧ w = t.read width := by
  have hread : t.read width = (t.cells.drop t.head).take width ++
      List.replicate (width - ((t.cells.drop t.head).take width).length) t.blank := by
    unfold read
    rw [hb]
    rfl
  unfold read?
  dsimp only
  rw [hb, Bool.false_or, Option.ite_none_right_eq_some, decide_eq_true_iff, Option.some.injEq,
    hread, utf8ByteSize_append_replicate, eq_comm (a := w)]

/-- A word is written if and only if the cells up to its end can be stored. -/
theorem write?_eq_some_iff {word : Word} : t.write? word = some t' ↔
    (word ≠ [] → t.head + word.length ≤ max t.cells.length cellLimit) ∧ t' = t.write word := by
  unfold write?
  rw [Option.ite_none_right_eq_some, Bool.or_eq_true, canStore_iff, List.isEmpty_iff,
    Option.some.injEq, eq_comm (a := t'), ← or_iff_not_imp_left]

/-- The head of an unbounded tape moves if and only if the cells that it reaches can be stored. -/
theorem shift?_eq_some_iff (hb : t.bounded = false) {offset : Int} : t.shift? offset = some t' ↔
    ((0 ≤ offset → t.head + offset + 1 ≤ max t.cells.length cellLimit) ∧
      (offset < 0 → t.cells.length - (t.head + offset) ≤ max t.cells.length cellLimit)) ∧
    t' = t.shift offset := by
  unfold shift?
  rw [Option.ite_none_right_eq_some, Option.some.injEq, eq_comm (a := t')]
  refine and_congr_left fun _ => ?_
  unfold canShift
  rw [hb]
  -- To the right the head wants a cell behind it, to the left the cells in front of it are added.
  cases offset with
  | ofNat right =>
    show t.canStore (t.head + right + 1) = true ↔ _
    rw [canStore_iff, Int.ofNat_eq_natCast]
    omega
  | negSucc left =>
    show t.canStore (t.cells.length + (left + 1 - t.head)) = true ↔ _
    rw [canStore_iff]
    omega

/-- A bounded tape changes only its head. -/
theorem eq_shift_of_shift?_eq_some {offset : Int} (h : t.shift? offset = some t') :
    t' = t.shift offset := by
  unfold shift? at h
  exact (Option.some.inj (Option.ite_none_right_eq_some.1 h).2).symm

end Tape

/-! ## Transitions -/

/-- Results that are found one by one are all found if and only if each is, and then they are those
of the function that each of them is known to agree with. -/
theorem mapM_eq_some_iff {α β : Type} {f : α → Option β} {g : α → β} {l : List α} {bs : List β}
    (h : ∀ a b, f a = some b → b = g a) :
    l.mapM f = some bs ↔ (∀ a ∈ l, (f a).isSome) ∧ bs = l.map g := by
  induction l generalizing bs with
  | nil =>
    rw [List.mapM_nil]
    exact ⟨fun heq => ⟨List.forall_mem_nil _, (Option.some.inj heq).symm⟩,
      fun heq => congrArg some heq.2.symm⟩
  | cons a l ih =>
    rw [List.mapM_cons, List.forall_mem_cons, List.map_cons]
    -- If there is no result for the first one, there is none for the whole list.
    cases ha : f a with
    | none => simp
    | some b =>
      obtain rfl := h a b ha
      simp only [Option.bind_eq_bind, Option.bind_some, Option.bind_eq_some_iff, ih,
        Option.isSome_some, true_and]
      constructor
      · rintro ⟨rest, ⟨hall, rfl⟩, heq⟩
        exact ⟨hall, (Option.some.inj heq).symm⟩
      · rintro ⟨hall, rfl⟩
        exact ⟨_, ⟨hall, rfl⟩, rfl⟩

namespace MachineKind

variable {tapes tapes' : List Tape}

/-- Heads that are moved over what was read, where memory suffices for all of them, are moved as far
as in exact numbers. -/
theorem eq_skip_of_skip?_eq_some {symbols : List Symbol} (h : skip? symbols tapes = some tapes') :
    tapes' = skip symbols tapes := by
  induction tapes generalizing symbols tapes' with
  | nil => cases symbols <;> exact (Option.some.inj h).symm
  | cons t tapes ih =>
    cases symbols with
    | nil => exact (Option.some.inj h).symm
    | cons symbol symbols =>
      obtain ⟨moved, hmoved, rest, hrest, heq⟩ : ∃ moved, t.shift? symbol.length = some moved ∧
          ∃ rest, skip? symbols tapes = some rest ∧ moved :: rest = tapes' := by
        simpa [skip?, Option.bind_eq_some_iff] using h
      rw [← heq, ih hrest, Tape.eq_shift_of_shift?_eq_some hmoved]
      rfl

/-- Words that are written and heads that are moved, where memory suffices for all of them, give the
tapes that they give in exact numbers. -/
theorem eq_writeAndMove_of_writeAndMove?_eq_some {words : List Symbol} {directions : List Direction}
    (h : writeAndMove? words directions tapes = some tapes') :
    tapes' = writeAndMove words directions tapes := by
  induction tapes generalizing words directions tapes' with
  | nil => cases words <;> cases directions <;> exact (Option.some.inj h).symm
  | cons t tapes ih =>
    cases words with
    | nil => exact (Option.some.inj h).symm
    | cons word words =>
      cases directions with
      | nil => exact (Option.some.inj h).symm
      | cons direction directions =>
        -- On each tape, the word is written first, and the head is moved behind it.
        obtain ⟨written, hwritten, moved, hmoved, rest, hrest, heq⟩ :
            ∃ written, t.write? word = some written ∧
              ∃ moved, written.shift? direction.offset = some moved ∧
                ∃ rest, writeAndMove? words directions tapes = some rest ∧
                  moved :: rest = tapes' := by
          simpa [writeAndMove?, Option.bind_eq_some_iff] using h
        rw [← heq, ih hrest, Tape.eq_shift_of_shift?_eq_some hmoved,
          (Tape.write?_eq_some_iff.1 hwritten).2]
        rfl

/-- Tapes that a transition changes are changed as in exact numbers, whichever kind the machine has,
if they can be changed at all. -/
theorem eq_act_of_act?_eq_some {k : MachineKind} {pattern : List Symbol} {action : Action k}
    (h : k.act? pattern action tapes = some tapes') : tapes' = k.act pattern action tapes := by
  cases k with
  | finite => exact eq_skip_of_skip?_eq_some h
  | turing => exact eq_writeAndMove_of_writeAndMove?_eq_some h
  | pushdown =>
    cases tapes with
    | nil => exact (Option.some.inj h).symm
    | cons input rest =>
      -- Only the input of a pushdown automaton is moved on, and only that can fail.
      cases pattern with
      | nil => exact (Option.some.inj h).symm
      | cons symbol pops =>
        obtain ⟨moved, hmoved, heq⟩ : ∃ moved, input.shift? symbol.length = some moved ∧
            moved :: replace pops (StackAction.push action) rest = tapes' := by
          simpa [act?, Option.bind_eq_some_iff] using h
        rw [← heq, Tape.eq_shift_of_shift?_eq_some hmoved]
        rfl

end MachineKind

/-! ## Steps -/

namespace Machine

variable {k : MachineKind} {m : Machine k} {c : Configuration} {cs : List Configuration}
  {t : Transition k}

/-- The transition leaves the state of a configuration and matches what is read with some width. -/
def MatchesAt (m : Machine k) (c : Configuration) (width : Nat) (t : Transition k) : Prop :=
  t ∈ m.transitions ∧ t.source = c.state ∧ matchesRead false t.read (k.read width c.tapes) = true

/-- The transition is one of those that lead to the successors up to a width: it matches with some
width up to this one, and with larger ones nothing does. -/
def DecidesUpTo (m : Machine k) (c : Configuration) (widest : Nat) (t : Transition k) : Prop :=
  ∃ width, 0 < width ∧ width ≤ widest ∧ m.MatchesAt c width t ∧
    ∀ wider, width < wider → wider ≤ widest → ∀ u, ¬ m.MatchesAt c wider u

/-- The transition is one of those that lead to the successors of a configuration: it matches, and
with larger widths nothing does. -/
def Decides (m : Machine k) (c : Configuration) (t : Transition k) : Prop :=
  m.DecidesUpTo c m.width t

/-- There are no successors for a width if and only if no transition matches. -/
theorem stepAt_eq_nil_iff {width : Nat} : m.stepAt c width = [] ↔ ∀ t, ¬ m.MatchesAt c width t := by
  rw [List.eq_nil_iff_forall_not_mem]
  constructor
  · rintro h t ⟨ht, hsource, hmatch⟩
    exact h _ (mem_stepAt.2 ⟨t, ht, hsource, hmatch, rfl⟩)
  · intro h d hd
    obtain ⟨t, ht, hsource, hmatch, -⟩ := mem_stepAt.1 hd
    exact h t ⟨ht, hsource, hmatch⟩

/-- The ends of a pattern are found if and only if each of its transitions can change the tapes. -/
theorem ends?_eq_some_iff {pattern : List Symbol} {targets : List (Target k)} {tapes : List Tape} :
    (targets.mapM fun target => (m.configuration target.state ·) <$>
      k.act? pattern target.action tapes) = some cs ↔
    (∀ target ∈ targets, (k.act? pattern target.action tapes).isSome) ∧
      cs = targets.map fun target =>
        m.configuration target.state (k.act pattern target.action tapes) := by
  rw [mapM_eq_some_iff (g := fun target : Target k =>
    m.configuration target.state (k.act pattern target.action tapes))]
  · simp only [Option.map_eq_map, Option.isSome_map]
  · intro target d hd
    obtain ⟨tapes', htapes, heq⟩ := Option.map_eq_some_iff.1 hd
    rw [← heq, MachineKind.eq_act_of_act?_eq_some htapes]

/-- The successors for a width are found if and only if every transition that matches can change the
tapes. -/
theorem stepAt?_eq_some_iff {width : Nat} : m.stepAt? c width = some cs ↔
    (∀ t, m.MatchesAt c width t → (k.act? t.read t.action c.tapes).isSome) ∧
      cs = m.stepAt c width := by
  -- A pattern that does not match has no ends, and these are found without changing tapes.
  have hchoice : ∀ (e : List Symbol × List (Target k)) (found : List Configuration),
      (if matchesRead false e.1 (k.read width c.tapes) then
        e.2.mapM fun target => (m.configuration target.state ·) <$>
          k.act? e.1 target.action c.tapes
      else some []) = some found ↔
      (matchesRead false e.1 (k.read width c.tapes) = true →
        ∀ target ∈ e.2, (k.act? e.1 target.action c.tapes).isSome) ∧
      found = if matchesRead false e.1 (k.read width c.tapes) then
          e.2.map fun target => m.configuration target.state (k.act e.1 target.action c.tapes)
        else [] := by
    intro e found
    split_ifs with hmatch
    · rw [ends?_eq_some_iff, forall_prop_of_true hmatch]
    · rw [Option.some.injEq, eq_comm]
      exact (and_iff_right fun h => absurd h hmatch).symm
  have hmem : (∀ e ∈ m.choicesAt c.state, matchesRead false e.1 (k.read width c.tapes) = true →
      ∀ target ∈ e.2, (k.act? e.1 target.action c.tapes).isSome) ↔
      ∀ t, m.MatchesAt c width t → (k.act? t.read t.action c.tapes).isSome := by
    constructor
    · rintro h ⟨source, read, target, action⟩ ⟨ht, hsource, hmatch⟩
      obtain ⟨targets, hchoice, htarget⟩ := mem_transitions_iff.1 ht
      obtain rfl : source = c.state := hsource
      exact h _ hchoice hmatch _ htarget
    · rintro h ⟨read, targets⟩ he hmatch ⟨state, action⟩ htarget
      exact h ⟨c.state, read, state, action⟩
        ⟨mem_transitions_iff.2 ⟨targets, he, htarget⟩, rfl, hmatch⟩
  unfold stepAt? stepAt
  dsimp only
  rw [Option.bind_eq_bind, Option.bind_eq_some_iff, ← hmem]
  constructor
  · rintro ⟨found, hfound, heq⟩
    obtain ⟨hall, rfl⟩ := (mapM_eq_some_iff fun e found h => ((hchoice e found).1 h).2).1 hfound
    refine ⟨fun e he => ?_, (Option.some.inj heq).symm.trans List.flatMap_def.symm⟩
    obtain ⟨ends, hends⟩ := Option.isSome_iff_exists.1 (hall e he)
    exact ((hchoice e ends).1 hends).1
  · rintro ⟨hall, rfl⟩
    refine ⟨_, (mapM_eq_some_iff fun e found h => ((hchoice e found).1 h).2).2 ⟨?_, rfl⟩, ?_⟩
    · exact fun e he => Option.isSome_iff_exists.2 ⟨_, (hchoice e _).2 ⟨hall e he, rfl⟩⟩
    · exact congrArg some List.flatMap_def.symm

/-- No transition decides without a width. -/
theorem not_decidesUpTo_zero : ¬ m.DecidesUpTo c 0 t :=
  fun ⟨_, hpos, hle, _⟩ => Nat.not_le_of_lt hpos hle

/-- Where nothing matches with the widest reads, those that are less wide decide. -/
theorem decidesUpTo_succ_of_eq_nil {widest : Nat} (hempty : m.stepAt c (widest + 1) = []) :
    m.DecidesUpTo c (widest + 1) t ↔ m.DecidesUpTo c widest t := by
  have hnone := stepAt_eq_nil_iff.1 hempty
  constructor
  · rintro ⟨width, hpos, hle, ht, hwider⟩
    have hne : width ≠ widest + 1 := fun heq => hnone t (heq ▸ ht)
    exact ⟨width, hpos, by omega, ht, fun wider hlt hle' => hwider wider hlt (by omega)⟩
  · rintro ⟨width, hpos, hle, ht, hwider⟩
    refine ⟨width, hpos, Nat.le_succ_of_le hle, ht, fun wider hlt hle' => ?_⟩
    rcases Nat.le_succ_iff.1 hle' with hle' | rfl
    · exact hwider wider hlt hle'
    · exact hnone

/-- Where something matches with the widest reads, just what does decides. -/
theorem decidesUpTo_succ_of_ne_nil {widest : Nat} (hsome : m.stepAt c (widest + 1) ≠ []) :
    m.DecidesUpTo c (widest + 1) t ↔ m.MatchesAt c (widest + 1) t := by
  constructor
  · rintro ⟨width, hpos, hle, ht, hwider⟩
    rcases Nat.lt_or_eq_of_le hle with hlt | rfl
    · exact absurd (stepAt_eq_nil_iff.2 (hwider (widest + 1) hlt (Nat.le_refl _))) hsome
    · exact ht
  · exact fun ht => ⟨widest + 1, Nat.succ_pos widest, Nat.le_refl _, ht,
      fun wider hlt hle => absurd hle (Nat.not_le_of_lt hlt)⟩

/-- The successors up to a width are found if and only if every transition that decides can change
the tapes. The induction is on the width: the widest reads decide if anything matches with them, and
change nothing if nothing does. -/
theorem stepFrom?_eq_some_iff {widest : Nat} : m.stepFrom? c widest = some cs ↔
    (∀ t, m.DecidesUpTo c widest t → (k.act? t.read t.action c.tapes).isSome) ∧
      cs = m.stepFrom c widest := by
  induction widest with
  | zero =>
    rw [stepFrom?, stepFrom, Option.some.injEq, eq_comm]
    exact (and_iff_right fun t ht => absurd ht not_decidesUpTo_zero).symm
  | succ widest ih =>
    unfold stepFrom? stepFrom
    dsimp only
    rw [Option.bind_eq_bind, Option.bind_eq_some_iff]
    by_cases hempty : m.stepAt c (widest + 1) = []
    · have hnone := stepAt_eq_nil_iff.1 hempty
      have hfound : m.stepAt? c (widest + 1) = some [] :=
        stepAt?_eq_some_iff.2 ⟨fun t ht => absurd ht (hnone t), hempty.symm⟩
      rw [hfound, hempty]
      simp only [Option.some.injEq, exists_eq_left', List.isEmpty_nil, if_true, ih,
        decidesUpTo_succ_of_eq_nil hempty]
    · have hisEmpty : (m.stepAt c (widest + 1)).isEmpty = false := by
        rw [← Bool.not_eq_true, List.isEmpty_iff]
        exact hempty
      simp only [stepAt?_eq_some_iff, decidesUpTo_succ_of_ne_nil hempty, hisEmpty,
        Bool.false_eq_true, if_false]
      constructor
      · rintro ⟨_, ⟨hall, rfl⟩, heq⟩
        rw [hisEmpty] at heq
        exact ⟨hall, (Option.some.inj heq).symm⟩
      · rintro ⟨hall, rfl⟩
        exact ⟨_, ⟨hall, rfl⟩, by rw [hisEmpty]; rfl⟩

/-- The successors of a configuration are found if and only if every transition that decides can
change the tapes. -/
theorem step?_eq_some_iff : m.step? c = some cs ↔
    (∀ t, m.Decides c t → (k.act? t.read t.action c.tapes).isSome) ∧ cs = m.step c :=
  stepFrom?_eq_some_iff

end Machine

end MachineLang

import MachineLang.Machine.Kind
import Mathlib.Data.List.Forall2
import Mathlib.Tactic.SplitIfs

/-!
# Tapes as seen from the head

An unbounded tape stands for one that is infinite on both sides. Its view is the function that gives
the character at every distance from the head, and blanks where nothing is stored. Reading, writing
and moving are determined by the view (`read_eq_view`, `view_write`, `view_shift`), so tapes with
equal views behave alike although they may store different numbers of blanks (`Tape.Alike`). The
tapes of the other kinds of machines never store more than another tape with the same behaviour, so
there alike tapes are equal.
-/

namespace MachineLang

namespace Tape

/-- The character at a distance from the head. -/
def view (t : Tape) (i : Int) : Char :=
  if t.head + i < 0 then t.blank else (t.cells[(t.head + i).toNat]?).getD t.blank

/-- Further blanks behind the stored cells are not seen. -/
theorem getD_append_replicate (cells : List Char) (n i : Nat) (c : Char) :
    ((cells ++ List.replicate n c)[i]?).getD c = (cells[i]?).getD c := by
  rw [List.getElem?_append]
  split_ifs with h
  · rfl
  · rw [List.getElem?_replicate, List.getElem?_eq_none (by omega)]
    split_ifs <;> rfl

/-- What an unbounded tape reads is what is seen from the head on. Cells that are not stored are
seen as blanks, as which they are read as well. -/
theorem read_eq_view {t : Tape} (h : t.bounded = false) (width : Nat) :
    t.read width = (List.range width).map fun (i : Nat) => t.view i := by
  unfold read view
  rw [h]
  apply List.ext_getElem?
  intro i
  simp only [Bool.false_eq_true, if_false, List.getElem?_map, List.getElem?_append,
    List.getElem?_replicate, List.length_take, List.length_drop]
  -- Cell by cell: those within the width are stored ones, or blanks behind them.
  rcases Nat.lt_or_ge i width with hi | hi
  · have hnonneg : ¬ ((t.head : Int) + i < 0) := by omega
    have hindex : ((t.head : Int) + i).toNat = t.head + i := by omega
    rw [List.getElem?_range hi]
    simp only [Option.map_some, if_neg hnonneg, hindex]
    by_cases hstored : t.head + i < t.cells.length
    · rw [if_pos (by omega), List.getElem?_take_of_lt hi, List.getElem?_drop,
        List.getElem?_eq_getElem hstored]
      rfl
    · rw [if_neg (by omega), if_pos (by omega), List.getElem?_eq_none (by omega)]
      rfl
  · rw [List.getElem?_eq_none (l := List.range width) (by rw [List.length_range]; exact hi)]
    split_ifs
    · omega
    · omega
    · rfl

/-- A written word is seen from the head on, and everything else as before, also where cells are
stored only now, since they were seen as blanks. -/
theorem view_write (t : Tape) (word : Word) (i : Int) :
    (t.write word).view i =
      if 0 ≤ i then (word[i.toNat]?).getD (t.view i) else t.view i := by
  -- The cells are those in front of the head, the word, and those behind the word.
  unfold write
  by_cases hempty : word = []
  · subst hempty
    simp
  · rw [if_neg (by simpa using hempty)]
    unfold view
    dsimp only
    by_cases hneg : (t.head : Int) + i < 0
    · have hi : ¬ 0 ≤ i := by omega
      simp only [hneg, hi, if_true, if_false]
    · simp only [if_neg hneg, List.getElem?_append, List.length_append, List.length_take,
        List.length_replicate]
      have hlength : min t.head t.cells.length + (t.head - t.cells.length) = t.head := by omega
      rw [hlength]
      by_cases hi : 0 ≤ i
      · -- At or behind the head: the word, and behind it the old cells.
        have hindex : ((t.head : Int) + i).toNat = t.head + i.toNat := by omega
        rw [if_pos hi, hindex, if_neg (c := t.head + i.toNat < t.head) (by omega)]
        by_cases hword : i.toNat < word.length
        · rw [if_pos (by omega), Nat.add_sub_cancel_left, List.getElem?_eq_getElem hword]
          rfl
        · rw [if_neg (by omega), List.getElem?_drop, List.getElem?_eq_none (l := word) (by omega)]
          rw [show t.head + word.length + (t.head + i.toNat - (t.head + word.length)) =
            t.head + i.toNat by omega]
          rfl
      · -- In front of the head: the old cells.
        have hfront : ((t.head : Int) + i).toNat < t.head := by omega
        rw [if_neg hi, if_pos (by omega), if_pos hfront]
        by_cases hstored : ((t.head : Int) + i).toNat < t.cells.length
        · rw [if_pos (by omega), List.getElem?_take_of_lt hfront]
        · rw [if_neg (by omega), List.getElem?_replicate, if_pos (by omega),
            List.getElem?_eq_none (l := t.cells) (by omega)]
          rfl

/-- Storing blanks up to the head is not seen. -/
theorem view_fill (t : Tape) : t.fill.view = t.view := by
  funext i
  unfold fill view
  dsimp only
  rw [getD_append_replicate]

/-- A head further to the right sees the same cells further to the left. -/
theorem view_head_add (t : Tape) (right : Nat) (i : Int) :
    ({ t with head := t.head + right } : Tape).view i = t.view (i + right) := by
  unfold view
  dsimp only
  rw [show ((t.head + right : Nat) : Int) + i = t.head + (i + right) by omega]

/-- A head that moves to the right stores the cells that it reaches. -/
theorem shift_natCast {t : Tape} (hb : t.bounded = false) (right : Nat) :
    t.shift right = { t with head := t.head + right }.fill := by
  unfold shift
  rw [hb]
  rfl

/-- A head that moves to the left stores the cells that are missing in front. -/
theorem shift_negSucc {t : Tape} (hb : t.bounded = false) (left : Nat) :
    t.shift (.negSucc left) =
      { t with
        cells := List.replicate (left + 1 - t.head) t.blank ++ t.cells
        head := t.head - (left + 1) } := by
  unfold shift
  rw [hb]
  rfl

/-- Moving the head to the left translates the view to the right. Blanks that are put in front of
the cells were seen there before. -/
theorem view_shift_negSucc {t : Tape} (hb : t.bounded = false) (left : Nat) (i : Int) :
    (t.shift (.negSucc left)).view i = t.view (i + .negSucc left) := by
  rw [shift_negSucc hb]
  unfold view
  dsimp only
  rcases Nat.lt_or_ge t.head (left + 1) with hleft | hleft
  · -- The head is held at the first cell, and the cells that are missing are stored.
    rw [show t.head - (left + 1) = 0 by omega, List.getElem?_append, List.length_replicate,
      List.getElem?_replicate]
    by_cases hneg : i < 0
    · rw [if_pos (by omega), if_pos (by omega)]
    · rw [if_neg (by omega)]
      by_cases hmissing : i.toNat < left + 1 - t.head
      · rw [if_pos (by omega), if_pos (by omega), if_pos (by omega)]
        rfl
      · rw [if_neg (by omega), if_neg (by omega)]
        congr 2
        omega
  · rw [show left + 1 - t.head = 0 by omega, List.replicate_zero, List.nil_append,
      show ((t.head - (left + 1) : Nat) : Int) + i = t.head + (i + Int.negSucc left) by omega]

/-- Moving the head moves the view. -/
theorem view_shift {t : Tape} (hb : t.bounded = false) (offset i : Int) :
    (t.shift offset).view i = t.view (i + offset) := by
  cases offset with
  | ofNat right => rw [Int.ofNat_eq_natCast, shift_natCast hb, view_fill, view_head_add]
  | negSucc left => exact view_shift_negSucc hb left i

/-- The head stays where it may be when a word is written. -/
theorem head_le_write {t : Tape} (h : t.head ≤ t.cells.length) (word : Word) :
    (t.write word).head ≤ (t.write word).cells.length := by
  unfold write
  split_ifs
  · exact h
  · simp only [List.length_append, List.length_take, List.length_replicate]
    omega

/-- The head of an unbounded tape stays on its cells or just behind them when it is moved, since
moving stores the cells up to it. -/
theorem head_le_shift {t : Tape} (hb : t.bounded = false) (h : t.head ≤ t.cells.length)
    (offset : Int) : (t.shift offset).head ≤ (t.shift offset).cells.length := by
  cases offset with
  | ofNat right =>
    rw [Int.ofNat_eq_natCast, shift_natCast hb]
    unfold fill
    simp only [List.length_append, List.length_replicate]
    omega
  | negSucc left =>
    rw [shift_negSucc hb]
    simp only [List.length_append, List.length_replicate]
    omega

/-- Writing keeps the blank and the boundedness. -/
theorem write_keeps (t : Tape) (word : Word) :
    (t.write word).blank = t.blank ∧ (t.write word).bounded = t.bounded := by
  unfold write
  split_ifs <;> exact ⟨rfl, rfl⟩

/-- Moving keeps the blank and the boundedness. -/
theorem shift_keeps (t : Tape) (offset : Int) :
    (t.shift offset).blank = t.blank ∧ (t.shift offset).bounded = t.bounded := by
  unfold shift
  split_ifs
  · exact ⟨rfl, rfl⟩
  · cases offset <;> exact ⟨rfl, rfl⟩

/-- Two unbounded tapes that look the same from the head. -/
structure Alike (t t' : Tape) : Prop where
  /-- The first tape is unbounded. -/
  unbounded : t.bounded = false
  /-- The second tape is unbounded. -/
  unbounded' : t'.bounded = false
  /-- The head of the first tape is on a stored cell or just behind them. -/
  head_le : t.head ≤ t.cells.length
  /-- The head of the second tape is on a stored cell or just behind them. -/
  head_le' : t'.head ≤ t'.cells.length
  /-- Cells that are not stored look the same. -/
  blank_eq : t.blank = t'.blank
  /-- All cells look the same. -/
  view_eq : t.view = t'.view

namespace Alike

variable {t t' : Tape}

/-- Tapes that look the same read the same. -/
theorem read_eq (h : Alike t t') (width : Nat) : t.read width = t'.read width := by
  rw [read_eq_view h.unbounded, read_eq_view h.unbounded', h.view_eq]

/-- Tapes that look the same still do when the same word is written. -/
theorem write (h : Alike t t') (word : Word) : Alike (t.write word) (t'.write word) where
  unbounded := by rw [(t.write_keeps word).2, h.unbounded]
  unbounded' := by rw [(t'.write_keeps word).2, h.unbounded']
  head_le := head_le_write h.head_le word
  head_le' := head_le_write h.head_le' word
  blank_eq := by rw [(t.write_keeps word).1, (t'.write_keeps word).1, h.blank_eq]
  view_eq := by
    funext i
    rw [view_write, view_write, h.view_eq]

/-- Tapes that look the same still do when their heads move in the same way. -/
theorem shift (h : Alike t t') (offset : Int) : Alike (t.shift offset) (t'.shift offset) where
  unbounded := by rw [(t.shift_keeps offset).2, h.unbounded]
  unbounded' := by rw [(t'.shift_keeps offset).2, h.unbounded']
  head_le := head_le_shift h.unbounded h.head_le offset
  head_le' := head_le_shift h.unbounded' h.head_le' offset
  blank_eq := by rw [(t.shift_keeps offset).1, (t'.shift_keeps offset).1, h.blank_eq]
  view_eq := by
    funext i
    rw [view_shift h.unbounded, view_shift h.unbounded', h.view_eq]

end Alike

/-- A tape looks the same when its head is moved by nothing. -/
theorem alike_shift_zero {t : Tape} (hb : t.bounded = false) (hh : t.head ≤ t.cells.length) :
    Alike t (t.shift 0) where
  unbounded := hb
  unbounded' := by rw [(t.shift_keeps 0).2, hb]
  head_le := hh
  head_le' := head_le_shift hb hh 0
  blank_eq := (t.shift_keeps 0).1.symm
  view_eq := by
    funext i
    rw [view_shift hb, Int.add_zero]

/-- A bounded tape stays as it is when its head is moved by nothing. -/
theorem shift_zero_of_bounded {t : Tape} (hb : t.bounded = true) (hh : t.head ≤ t.cells.length) :
    t.shift 0 = t := by
  unfold shift signedHead
  rw [if_pos hb, if_pos hh, Int.add_zero, t.clamp_of_le t.head hh]

end Tape

/-! ## Bounded tapes -/

/-- A bounded tape that holds a word, with its head at some place. -/
def standing (w : Word) (head : Nat) : Tape := ⟨w, head, blankChar, true⟩

/-- A bounded tape reads what its word has from the head on. -/
theorem read_standing (w : Word) (head width : Nat) :
    (standing w head).read width = (w.drop head).take width := rfl

/-- A head behind a first part of the word is at the end if there is no other part. -/
theorem isAtEnd_standing_iff {before rest : Word} :
    (standing (before ++ rest) before.length).isAtEnd = true ↔ rest = [] := by
  unfold Tape.isAtEnd standing
  dsimp only
  rw [decide_eq_true_iff, List.length_append, ← List.length_eq_zero_iff]
  omega

/-- A head that is not sent beyond the word goes where it is sent. -/
theorem shift_standing {w : Word} {head count : Nat} (h : head + count ≤ w.length) :
    (standing w head).shift count = standing w (head + count) := by
  have hclamp : (standing w head).clamp ((head : Int) + count) = head + count := by
    rw [← Int.natCast_add]
    exact Tape.clamp_of_le _ _ h
  have hsigned : (standing w head).signedHead = head := if_pos (by omega : head ≤ w.length)
  have hshift : (standing w head).shift count =
      standing w ((standing w head).clamp ((standing w head).signedHead + count)) := rfl
  rw [hshift, hsigned, hclamp]

end MachineLang

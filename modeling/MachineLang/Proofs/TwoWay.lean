import MachineLang.Proofs.Embedding
import MachineLang.Proofs.Room

/-!
# Tapes that are infinite on both sides

An unbounded tape stands for a function from the distance from the head to characters, its view.
Reading takes the first characters of the view, writing replaces them, and moving the head
translates it (`Tape.IsTwoWay`). So a Turing machine does not see how many blanks its tapes store:
configurations that look alike have successors that look alike, one by one
(`forall₂_looksLike_of_step?`), and blanks at the ends of the inputs change no verdict
(`testWithin_eq_of_sameUpToBlanks`).

All this is about what is found where 64 bits and memory suffice, and they do in every computation
that is not longer than the memory (`step?_eq_some_of_moves`): its heads are on stored cells or just
behind them. But a tape may also be given with its head far away. There a step can fail although it
changes nothing that is seen, and does not fail on a tape that looks the same
(`outermost_not_two_way`).
-/

namespace MachineLang

namespace Tape

variable {t : Tape}

/-! ## Reading, writing and moving -/

/-- What is found on an unbounded tape is what is found on the two-way infinite tape that it stands
for, and it is found exactly as long as it fits into memory. -/
structure IsTwoWay (t : Tape) : Prop where
  /-- The first characters of the view are read, as long as they can be put into a text. -/
  read_iff : ∀ width w, t.read? width = some w ↔
    (String.ofList w).utf8ByteSize ≤ byteLimit ∧ w = (List.range width).map fun (i : Nat) =>
      t.view i
  /-- A word is written as long as the cells up to its end can be stored. -/
  write_isSome_iff : ∀ word, (t.write? word).isSome ↔
    (word ≠ [] → t.head + word.length ≤ max t.cells.length cellLimit)
  /-- Then it is seen from the head on, and everything else as before. -/
  view_write : ∀ word t', t.write? word = some t' → ∀ i : Int,
    t'.view i = if 0 ≤ i then (word[i.toNat]?).getD (t.view i) else t.view i
  /-- The head moves as long as the cells up to it can be stored. -/
  shift_isSome_iff : ∀ offset : Int, (t.shift? offset).isSome ↔
    (0 ≤ offset → t.head + offset + 1 ≤ max t.cells.length cellLimit) ∧
    (offset < 0 → t.cells.length - (t.head + offset) ≤ max t.cells.length cellLimit)
  /-- Then the view is translated. -/
  view_shift : ∀ (offset : Int) t', t.shift? offset = some t' → ∀ i, t'.view i = t.view (i + offset)

/-- An unbounded tape acts as a two-way infinite one: each of its operations is found where the
cells that it needs can be stored, and does on the view what it says. -/
theorem isTwoWay (hb : t.bounded = false) : t.IsTwoWay where
  -- Each operation succeeds just where the cells it needs can be stored, and then does what the
  -- exact one does.
  read_iff width w := by
    rw [read?_eq_some_iff hb, ← read_eq_view hb]
    exact ⟨fun ⟨hbytes, heq⟩ => ⟨heq ▸ hbytes, heq⟩, fun ⟨hbytes, heq⟩ => ⟨heq ▸ hbytes, heq⟩⟩
  write_isSome_iff word := by
    simp only [Option.isSome_iff_exists, write?_eq_some_iff, exists_and_left, exists_eq, and_true]
  view_write word t' h i := by
    rw [(write?_eq_some_iff.1 h).2, t.view_write]
  shift_isSome_iff offset := by
    simp only [Option.isSome_iff_exists, shift?_eq_some_iff hb, exists_and_left,
      exists_eq, and_true]
  view_shift offset t' h i := by
    rw [eq_shift_of_shift?_eq_some h, t.view_shift hb]

/-! ## Several tapes -/

/-- Unbounded tapes that look the same read the same, because what is read is a function of what is
seen. -/
theorem map_read_eq_of_views {tapes tapes' : List Tape} (h : ∀ t ∈ tapes, t.bounded = false)
    (h' : ∀ t ∈ tapes', t.bounded = false) (hviews : tapes.map view = tapes'.map view)
    (width : Nat) :
    tapes.map (fun t => t.read width) = tapes'.map fun t => t.read width := by
  -- What is read is a function of what is seen.
  have hread : ∀ l : List Tape, (∀ t ∈ l, t.bounded = false) → l.map (fun t => t.read width) =
      (l.map view).map fun (seen : Int → Char) =>
        (List.range width).map fun (i : Nat) => seen i := by
    intro l hl
    rw [List.map_map]
    exact List.map_congr_left fun t ht => read_eq_view (hl t ht) width
  rw [hread tapes h, hread tapes' h', hviews]

/-- What is seen of an unbounded tape after a word is written and the head has moved. -/
theorem view_write_shift (hb : t.bounded = false) (word : Word) (offset i : Int) :
    ((t.write word).shift offset).view i = (t.write word).view (i + offset) :=
  view_shift ((t.write_keeps word).2.trans hb) offset i

/-- Tapes that look the same still do when the same is written on them and their heads move in the
same way. -/
theorem views_writeAndMove {tapes tapes' : List Tape} (h : ∀ t ∈ tapes, t.bounded = false)
    (h' : ∀ t ∈ tapes', t.bounded = false) (hviews : tapes.map view = tapes'.map view)
    (words : List Symbol) (directions : List Direction) :
    (MachineKind.writeAndMove words directions tapes).map view =
      (MachineKind.writeAndMove words directions tapes').map view := by
  -- The induction is on the tapes; one for which there is no word or no direction stays as it is.
  induction tapes generalizing tapes' words directions with
  | nil =>
    obtain rfl : tapes' = [] := List.map_eq_nil_iff.1 hviews.symm
    rfl
  | cons t tapes ih =>
    cases tapes' with
    | nil => simp at hviews
    | cons t' tapes' =>
      obtain ⟨hview, hrest⟩ := List.cons.inj hviews
      obtain ⟨ht, htapes⟩ := List.forall_mem_cons.1 h
      obtain ⟨ht', htapes'⟩ := List.forall_mem_cons.1 h'
      cases words with
      | nil => exact hviews
      | cons word words =>
        cases directions with
        | nil => exact hviews
        | cons direction directions =>
          have hhead : ((t.write word).shift direction.offset).view =
              ((t'.write word).shift direction.offset).view := by
            funext i
            rw [view_write_shift ht, view_write_shift ht', view_write, view_write, hview]
          show _ :: _ = _ :: _
          rw [hhead, ih htapes htapes' hrest words directions]

/-! ## The size of tapes -/

/-- An unbounded tape with its head on a stored cell or just behind them, and with at most so many
cells. -/
structure Within (size : Nat) (t : Tape) : Prop where
  /-- The tape is unbounded. -/
  unbounded : t.bounded = false
  /-- The head is not beyond the place behind the stored cells. -/
  head_le : t.head ≤ t.cells.length
  /-- There are at most so many cells. -/
  length_le : t.cells.length ≤ size

namespace Within

variable {size longest : Nat} {word : Word}

/-- Writing adds at most as many cells as the word has. -/
theorem write (h : t.Within size) (hword : word.length ≤ longest) :
    (t.write word).Within (size + longest) where
  unbounded := (t.write_keeps word).2.trans h.unbounded
  head_le := head_le_write h.head_le word
  length_le := by
    have hhead := h.head_le
    have hlength := h.length_le
    unfold Tape.write
    split_ifs
    · omega
    · simp only [List.length_append, List.length_take, List.length_replicate, List.length_drop]
      omega

/-- Moving by one cell adds at most two cells: that of the head, and one that was missing in front
of it. -/
theorem shift (h : t.Within size) (direction : Direction) :
    (t.shift direction.offset).Within (size + 2) where
  unbounded := (t.shift_keeps _).2.trans h.unbounded
  head_le := head_le_shift h.unbounded h.head_le _
  length_le := by
    have hhead := h.head_le
    have hlength := h.length_le
    -- To the left, a cell is put in front; otherwise, cells are added up to the head at most.
    cases direction with
    | left =>
      show (t.shift (.negSucc 0)).cells.length ≤ size + 2
      rw [shift_negSucc h.unbounded]
      simp only [List.length_append, List.length_replicate]
      omega
    | right =>
      show (t.shift (1 : Nat)).cells.length ≤ size + 2
      rw [shift_natCast h.unbounded]
      simp only [fill, List.length_append, List.length_replicate]
      omega
    | stay =>
      show (t.shift (0 : Nat)).cells.length ≤ size + 2
      rw [shift_natCast h.unbounded]
      simp only [fill, List.length_append, List.length_replicate]
      omega

/-- A tape that is small enough can be written on. -/
theorem write?_eq_some (h : t.Within size) (hword : word.length ≤ longest)
    (hsize : size + longest ≤ cellLimit) : t.write? word = some (t.write word) := by
  have hhead := h.head_le
  have hlength := h.length_le
  exact write?_eq_some_iff.2 ⟨fun _ => by omega, rfl⟩

/-- On a tape that is small enough the head can be moved by one cell. -/
theorem shift?_eq_some (h : t.Within size) (hsize : size + 2 ≤ cellLimit) (direction : Direction) :
    t.shift? direction.offset = some (t.shift direction.offset) := by
  have hhead := h.head_le
  have hlength := h.length_le
  refine (shift?_eq_some_iff h.unbounded).2 ⟨?_, rfl⟩
  cases direction <;> simp only [Direction.offset] <;> omega

end Within

/-- Writing words and moving heads by one cell keeps tapes small, and finds the tapes if these are
small enough. -/
theorem within_writeAndMove {size longest : Nat} {tapes : List Tape}
    (htapes : ∀ t ∈ tapes, t.Within size) {words : List Symbol}
    (hwords : ∀ word ∈ words, word.length ≤ longest) (directions : List Direction) :
    (∀ t ∈ MachineKind.writeAndMove words directions tapes, t.Within (size + (longest + 2))) ∧
      (size + (longest + 2) ≤ cellLimit → MachineKind.writeAndMove? words directions tapes =
        some (MachineKind.writeAndMove words directions tapes)) := by
  have hmore : ∀ t : Tape, t.Within size → t.Within (size + (longest + 2)) := fun t ht =>
    ⟨ht.unbounded, ht.head_le, Nat.le_trans ht.length_le (Nat.le_add_right _ _)⟩
  -- The induction is on the tapes; one for which there is no word or no direction stays as it is.
  induction tapes generalizing words directions with
  | nil => cases words <;> cases directions <;> exact ⟨List.forall_mem_nil _, fun _ => rfl⟩
  | cons t tapes ih =>
    obtain ⟨ht, hrest⟩ := List.forall_mem_cons.1 htapes
    have hstays : ∀ t' ∈ t :: tapes, t'.Within (size + (longest + 2)) :=
      fun t' ht' => hmore t' (htapes t' ht')
    cases words with
    | nil => exact ⟨hstays, fun _ => rfl⟩
    | cons word words =>
      cases directions with
      | nil => exact ⟨hstays, fun _ => rfl⟩
      | cons direction directions =>
        obtain ⟨hword, hothers⟩ := List.forall_mem_cons.1 hwords
        obtain ⟨hsmall, hfound⟩ := ih hrest hothers directions
        have hwritten := ht.write hword
        refine ⟨List.forall_mem_cons.2 ⟨hwritten.shift direction, hsmall⟩, fun hsize => ?_⟩
        show (t.write? word >>= fun written => written.shift? direction.offset >>= fun moved =>
          MachineKind.writeAndMove? words directions tapes >>= fun rest =>
            some (moved :: rest)) = _
        rw [ht.write?_eq_some hword (by omega), Option.bind_eq_bind, Option.bind_some,
          hwritten.shift?_eq_some (by omega), Option.bind_eq_bind, Option.bind_some, hfound hsize]
        rfl

/-- Tapes loaded with words that differ in the blanks at their ends look the same. -/
theorem alike_ofWord (w : Word) (n n' : Nat) :
    Alike (ofWord (w ++ List.replicate n blankChar) false)
      (ofWord (w ++ List.replicate n' blankChar) false) where
  unbounded := rfl
  unbounded' := rfl
  head_le := Nat.zero_le _
  head_le' := Nat.zero_le _
  blank_eq := rfl
  view_eq := by
    funext i
    unfold view ofWord
    dsimp only
    rw [getD_append_replicate, getD_append_replicate]

end Tape

/-- Two configurations are in the same state, both accept or neither does, and their tapes look the
same from their heads. -/
structure LooksLike (c c' : Configuration) : Prop where
  /-- The state is the same. -/
  state_eq : c.state = c'.state
  /-- Both accept or neither does. -/
  accepted_eq : c.accepted = c'.accepted
  /-- The tapes look the same. -/
  views_eq : c.tapes.map Tape.view = c'.tapes.map Tape.view

/-- Two words that differ only in the blanks at their ends. -/
def SameUpToBlanks (w w' : Word) : Prop :=
  ∃ v n n', w = v ++ List.replicate n blankChar ∧ w' = v ++ List.replicate n' blankChar

/-- Missing words differ only in the blanks at their ends if the others do. -/
theorem sameUpToBlanks_getD {inputs inputs' : List Word}
    (h : List.Forall₂ SameUpToBlanks inputs inputs') (i : Nat) :
    SameUpToBlanks (inputs.getD i []) (inputs'.getD i []) := by
  induction h generalizing i with
  | nil => exact ⟨[], 0, 0, rfl, rfl⟩
  | cons hw _ ih =>
    cases i with
    | zero => exact hw
    | succ i => exact ih i

namespace Machine

variable {m : Machine .turing} {c c' : Configuration} {inputs : List Word}

/-! ## Steps -/

/-- Configurations in the same state whose tapes look the same have successors that look alike, one
by one. -/
theorem forall₂_looksLike_step (m : Machine .turing) (h : ∀ t ∈ c.tapes, t.bounded = false)
    (h' : ∀ t ∈ c'.tapes, t.bounded = false) (hstate : c.state = c'.state)
    (hviews : c.tapes.map Tape.view = c'.tapes.map Tape.view) :
    List.Forall₂ LooksLike (m.step c) (m.step c') := by
  refine forall₂_step hstate (Tape.map_read_eq_of_views h h' hviews) fun q _ action => ?_
  exact ⟨rfl, rfl, Tape.views_writeAndMove h h' hviews action.write action.shift⟩

/-- The successors that are found look alike, too. -/
theorem forall₂_looksLike_of_step? (m : Machine .turing) {cs cs' : List Configuration}
    (h : ∀ t ∈ c.tapes, t.bounded = false) (h' : ∀ t ∈ c'.tapes, t.bounded = false)
    (hstate : c.state = c'.state) (hviews : c.tapes.map Tape.view = c'.tapes.map Tape.view)
    (hcs : m.step? c = some cs) (hcs' : m.step? c' = some cs') : List.Forall₂ LooksLike cs cs' := by
  rw [(step?_eq_some_iff.1 hcs).2, (step?_eq_some_iff.1 hcs').2]
  exact forall₂_looksLike_step m h h' hstate hviews

/-! ## Computations -/

/-- The transitions write words of at most this length. -/
def WritesUpTo (m : Machine .turing) (longest : Nat) : Prop :=
  ∀ t ∈ m.transitions, ∀ word ∈ (t.action : TapeAction).write, word.length ≤ longest

/-- The tapes of a computation grow by at most so many cells in each step: by the longest word that
is written, by one for the head, and by one that may be missing in front of it. -/
theorem within_of_moves (hb : m.bounded = false) {size longest n : Nat}
    (hinputs : ∀ w ∈ inputs, w.length ≤ size) (hlongest : m.WritesUpTo longest)
    (hmoves : Moves m.Move n (m.start inputs) c) :
    ∀ t ∈ c.tapes, t.Within (size + n * (longest + 2)) := by
  -- The induction is on the moves, from any configuration whose tapes are small enough.
  generalize hstart : m.start inputs = first at hmoves
  have hfirst : ∀ t ∈ first.tapes, t.Within size := by
    subst hstart
    intro t ht
    obtain ⟨i, -, rfl⟩ := List.mem_map.1 ht
    refine ⟨hb, Nat.zero_le _, ?_⟩
    show (inputs.getD i []).length ≤ size
    rw [List.getD_eq_getElem?_getD]
    cases hi : inputs[i]? with
    | none => exact Nat.zero_le _
    | some w => exact hinputs w (List.mem_of_getElem? hi)
  clear hstart hinputs
  induction hmoves generalizing size with
  | refl c =>
    rw [Nat.zero_mul]
    exact hfirst
  | @step n first next c hmove _ ih =>
    have hnext : ∀ t ∈ next.tapes, t.Within (size + (longest + 2)) := by
      obtain ⟨width, -, -, hd, -⟩ := mem_step.1 hmove
      obtain ⟨t, ht, -, -, rfl⟩ := mem_stepAt.1 hd
      exact (Tape.within_writeAndMove hfirst (hlongest t ht) t.action.shift).1
    rw [Nat.succ_mul, Nat.add_comm (n * _), ← Nat.add_assoc]
    exact ih hnext

/-- In a computation that is not too long for the memory all successors are found. -/
theorem step?_eq_some_of_moves (hb : m.bounded = false) {size longest n : Nat}
    (hinputs : ∀ w ∈ inputs, w.length ≤ size) (hlongest : m.WritesUpTo longest)
    (hsize : size + (n + 1) * (longest + 2) ≤ cellLimit)
    (hmoves : Moves m.Move n (m.start inputs) c) : m.step? c = some (m.step c) := by
  refine step?_eq_some_iff.2 ⟨fun t ⟨_, _, _, ht, _⟩ => ?_, rfl⟩
  have hwithin := within_of_moves hb hinputs hlongest hmoves
  rw [Nat.succ_mul, ← Nat.add_assoc] at hsize
  have hfound := (Tape.within_writeAndMove hwithin (hlongest t ht.1) t.action.shift).2 hsize
  exact Option.isSome_iff_exists.2 ⟨_, hfound⟩

/-- Blanks at the ends of the inputs change no verdict, at no limit. The configurations at the start
look alike, and what looks alike is decided alike. -/
theorem testWithin_eq_of_sameUpToBlanks (hm : m.IsBuilt) (hb : m.bounded = false)
    {inputs inputs' : List Word} (h : List.Forall₂ SameUpToBlanks inputs inputs') (limit : Nat) :
    m.testWithin inputs limit = m.testWithin inputs' limit := by
  have hlength := h.length_eq
  by_cases hle : inputs.length ≤ m.tapeCount
  · have halike : MachineKind.turing.Alike (m.loadTapes inputs) (m.loadTapes inputs') := by
      show List.Forall₂ Tape.Alike _ _
      unfold loadTapes
      rw [List.forall₂_map_left_iff, List.forall₂_map_right_iff, List.forall₂_same]
      intro i _
      obtain ⟨w, n, n', hw, hw'⟩ := sameUpToBlanks_getD h i
      rw [hw, hw', hb]
      exact Tape.alike_ofWord w n n'
    -- The machine is a part of itself, and configurations that look alike show each other.
    have hrefl := Embedding.refl hm.wellFormed
    have hshows : Shows m id (m.start inputs) (m.start inputs') :=
      hrefl.shows_configuration hm.wellFormed.initial_mem halike
    rw [testWithin_eq hle, testWithin_eq (hlength ▸ hle), hrefl.verdict_eq hshows]
  · rw [testWithin_of_lt (by omega), testWithin_of_lt (by omega), hlength]

/-- An unbounded tape reads, writes and moves its head as the two-way infinite tape that it stands
for, exactly as long as what it reads and stores fits into memory. So configurations in the same
state whose tapes look the same have successors that look alike, one by one, if they are found; they
are found unless a transition that decides the step cannot change the tapes, and always in a
computation that is not too long for the memory. Blanks at the ends of the inputs change no verdict
of a Turing machine. -/
theorem unbounded_tapes_two_way (t : Tape) (ht : t.bounded = false) (m : Machine .turing)
    (hb : m.bounded = false) :
    t.IsTwoWay ∧
    (∀ c c' : Configuration, (∀ t ∈ c.tapes, t.bounded = false) →
      (∀ t ∈ c'.tapes, t.bounded = false) → c.state = c'.state →
      c.tapes.map Tape.view = c'.tapes.map Tape.view →
      ∀ cs cs', m.step? c = some cs → m.step? c' = some cs' → List.Forall₂ LooksLike cs cs') ∧
    (∀ c, (m.step? c).isSome ↔ ∀ t, m.Decides c t →
      (MachineKind.turing.act? t.read t.action c.tapes).isSome) ∧
    (∀ inputs size longest n c, (∀ w ∈ inputs, w.length ≤ size) → m.WritesUpTo longest →
      size + (n + 1) * (longest + 2) ≤ cellLimit → Moves m.Move n (m.start inputs) c →
      (∀ t ∈ c.tapes, t.bounded = false) ∧ m.step? c = some (m.step c)) ∧
    (m.IsBuilt → ∀ inputs inputs' : List Word, List.Forall₂ SameUpToBlanks inputs inputs' →
      ∀ limit, m.testWithin inputs limit = m.testWithin inputs' limit) := by
  refine ⟨Tape.isTwoWay ht, ?_, ?_, ?_, ?_⟩
  · exact fun c c' h h' hstate hviews cs cs' =>
      forall₂_looksLike_of_step? m h h' hstate hviews
  · intro c
    simp only [Option.isSome_iff_exists, step?_eq_some_iff, exists_and_left, exists_eq, and_true]
  · intro inputs size longest n c hinputs hlongest hsize hmoves
    refine ⟨fun t ht => ?_, step?_eq_some_of_moves hb hinputs hlongest hsize hmoves⟩
    exact (within_of_moves hb hinputs hlongest hmoves t ht).unbounded
  · exact fun hm inputs inputs' h => testWithin_eq_of_sameUpToBlanks hm hb h

/-- A Turing machine that copies letters from its first tape to its second one. -/
def copying : Machine .turing :=
  build {
    transitions := [
      ⟨"copy", [['a'], epsilon], "copy", TapeAction.mk [epsilon, ['a']] [.right, .right]⟩,
      ⟨"copy", [blank, epsilon], "done", TapeAction.mk [epsilon, epsilon] [.left, .left]⟩]
    initial := "copy"
    finals := .single "done"
    tapes := ["source", "copy"]
    bounded := false }

/-- Blanks behind the letter and on the empty tape change neither the first step of the copying nor
its verdicts. A head that is beyond the stored cells moves as on a two-way infinite tape. -/
theorem two_way_copying :
    copying.IsBuilt ∧ copying.bounded = false ∧
      List.Forall₂ SameUpToBlanks [['a'], []] [['a', ' ', ' '], [' ']] ∧
      (∀ limit, copying.testWithin [['a'], []] limit =
        copying.testWithin [['a', ' ', ' '], [' ']] limit) ∧
      (∃ cs cs', copying.step? (copying.start [['a'], []]) = some cs ∧
        copying.step? (copying.start [['a', ' ', ' '], [' ']]) = some cs' ∧
        List.Forall₂ LooksLike cs cs') ∧
      (Tape.mk ['a'] 5 ' ' false).bounded = false ∧
      ∃ t', (Tape.mk ['a'] 5 ' ' false).shift? 3 = some t' ∧
        ∀ i, t'.view i = (Tape.mk ['a'] 5 ' ' false).view (i + 3) := by
  obtain ⟨htape, hsteps, -, hfinds, hverdicts⟩ :=
    unbounded_tapes_two_way ⟨['a'], 5, ' ', false⟩ rfl copying rfl
  have hcopying : copying.IsBuilt := isBuilt_build (by decide)
  have hlongest : copying.WritesUpTo 1 := by
    intro t ht
    rcases List.mem_pair.1 (mem_transitions_build.1 ht) with rfl | rfl <;> decide
  have hletter : Tape.Alike (Tape.ofWord ['a'] false) (Tape.ofWord ['a', ' ', ' '] false) :=
    Tape.alike_ofWord ['a'] 0 2
  have hempty : Tape.Alike (Tape.ofWord [] false) (Tape.ofWord [' '] false) :=
    Tape.alike_ofWord [] 0 1
  have hinputs : List.Forall₂ SameUpToBlanks [['a'], []] [['a', ' ', ' '], [' ']] :=
    .cons ⟨['a'], 0, 2, rfl, rfl⟩ (.cons ⟨[], 0, 1, rfl, rfl⟩ .nil)
  -- Both inputs look the same: the other one only stores blanks that the first one does not.
  have hviews : (copying.start [['a'], []]).tapes.map Tape.view =
      (copying.start [['a', ' ', ' '], [' ']]).tapes.map Tape.view := by
    show [(Tape.ofWord ['a'] false).view, (Tape.ofWord [] false).view] =
      [(Tape.ofWord ['a', ' ', ' '] false).view, (Tape.ofWord [' '] false).view]
    rw [hletter.view_eq, hempty.view_eq]
  obtain ⟨hb, hstep⟩ := hfinds [['a'], []] 1 1 0 _ (by decide) hlongest (by decide) (.refl _)
  obtain ⟨hb', hstep'⟩ := hfinds [['a', ' ', ' '], [' ']] 3 1 0 _ (by decide) hlongest (by decide)
    (.refl _)
  have hlooks := hsteps _ _ hb hb' rfl hviews _ _ hstep hstep'
  obtain ⟨t', ht'⟩ := Option.isSome_iff_exists.1 ((htape.shift_isSome_iff 3).2 (by decide))
  exact ⟨hcopying, rfl, hinputs, hverdicts hcopying _ _ hinputs, ⟨_, _, hstep, hstep', hlooks⟩, rfl,
    t', ht', htape.view_shift 3 t' ht'⟩

/-- A Turing machine that does nothing for ever. -/
def idling : Machine .turing :=
  build {
    transitions := [⟨"idle", [epsilon], "idle", TapeAction.mk [epsilon] [.stay]⟩]
    initial := "idle"
    bounded := false }

/-- A tape with its head on the last position that 64 bits can tell apart. -/
def outermost (cells : Word) : Tape := ⟨cells, positionCount - 1, ' ', false⟩

/-- On the last position a head cannot even stay, although this translates the view by nothing: the
number of cells up to it is counted first, and it does not fit into 64 bits. So on two empty tapes,
which look the same wherever their heads are, one step is found and the other is not. -/
theorem outermost_not_two_way :
    (outermost ['a', 'b']).shift? 0 = none ∧
      (¬ ∀ t : Tape, t.bounded = false → ∀ offset : Int, ∃ t', t.shift? offset = some t' ∧
        ∀ i, t'.view i = t.view (i + offset)) ∧
      ∃ c c' : Configuration, (∀ t ∈ c.tapes, t.bounded = false) ∧
        (∀ t ∈ c'.tapes, t.bounded = false) ∧ c.state = c'.state ∧
        c.tapes.map Tape.view = c'.tapes.map Tape.view ∧
        idling.step? c = none ∧ (idling.step? c').isSome := by
  have hfails : (outermost ['a', 'b']).shift? 0 = none := by decide +kernel
  refine ⟨hfails, fun hall => ?_, ⟨"idle", false, [outermost []]⟩,
    ⟨"idle", false, [Tape.ofWord [] false]⟩, ?_, ?_, rfl, ?_, by decide +kernel, by decide +kernel⟩
  · obtain ⟨t', ht', -⟩ := hall (outermost ['a', 'b']) rfl 0
    rw [hfails] at ht'
    exact absurd ht'.symm (Option.some_ne_none t')
  · exact fun t ht => by rw [List.mem_singleton.1 ht]; rfl
  · exact fun t ht => by rw [List.mem_singleton.1 ht]; rfl
  · refine congrArg (fun seen => [seen]) (funext fun i => ?_)
    simp [Tape.view, outermost, Tape.ofWord, blankChar]

end Machine

end MachineLang

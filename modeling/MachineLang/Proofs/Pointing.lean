import MachineLang.Proofs.Spans
import MachineLang.SyntaxError.Excerpt

/-!
# Pointing at syntax errors

Wherever reading a program fails, the error stands at a range of that source (`IsRange`), whether it
was made at the end of the source, under another mode or in an attempt that was taken back. So it is
drawn there: a range of a text has an excerpt (`IsRange.exists_excerpt?`), and a drawing is never
the message in one line that is kept for places outside of the source
(`SyntaxError.draw_ne_message`).
-/

namespace MachineLang

variable {text : List Char} {l : Location} {source : String}

/-! ## Places and bytes -/

/-- The bytes of a source are those of its characters. -/
theorem byteLength_toList (source : String) : byteLength source.toList = source.utf8ByteSize := by
  have hsum : ∀ cs : List Char, byteLength cs = String.utf8Len cs := by
    intro cs
    induction cs with
    | nil => rfl
    | cons c cs ih => rw [byteLength_cons, String.utf8Len_cons, ih, Nat.add_comm]
  calc byteLength source.toList = String.utf8Len source.toList := hsum _
    _ = (String.ofList source.toList).utf8ByteSize := (String.utf8ByteSize_ofList _).symm
    _ = source.utf8ByteSize := by rw [String.ofList_toList]

/-- Walking over a text leads to no earlier line. -/
theorem Location.line_le_advance (l : Location) (text : List Char) :
    l.line ≤ (l.advance text).line := by
  induction text generalizing l with
  | nil => exact Nat.le_refl _
  | cons c cs ih =>
    refine Nat.le_trans ?_ (ih (l.next c))
    unfold next
    split
    · exact Nat.le_succ _
    · exact Nat.le_refl _

namespace IsPlace

/-- A place of a text is not behind its last byte. -/
theorem offset_le (h : IsPlace text l) : l.offset ≤ byteLength text := by
  obtain ⟨before, after, rfl, rfl⟩ := h
  rw [Location.offset_advance, byteLength_append]
  show 0 + byteLength before ≤ _
  omega

/-- At a place a text is cut between two characters. -/
theorem exists_splitAtByte? (h : IsPlace text l) : ∃ before after, text = before ++ after ∧
    splitAtByte? l.offset text = some (before, after) ∧ l = Location.start.advance before := by
  obtain ⟨before, after, rfl, rfl⟩ := h
  refine ⟨before, after, rfl, ?_, rfl⟩
  rw [Location.offset_advance]
  show splitAtByte? (0 + byteLength before) _ = _
  rw [Nat.zero_add, splitAtByte?_byteLength]

/-- A place of a text can be pointed at: its line is one of the text. -/
theorem isValid (h : IsPlace text l) : l.isValid = true := by
  obtain ⟨before, -, -, rfl⟩ := h
  have hline : 1 ≤ (Location.start.advance before).line := Location.line_le_advance .start before
  refine bne_iff_ne.2 fun heq => ?_
  rw [heq] at hline
  exact absurd hline (by decide)

end IsPlace

/-! ## Drawing an error -/

/-- There is an excerpt of a text around each of its ranges, because the text can be split where the
range begins. -/
theorem IsRange.exists_excerpt? {span : Span} (h : IsRange text span) :
    ∃ excerpt, SyntaxError.excerpt? span text = some excerpt := by
  obtain ⟨before, after, -, hsplit, -⟩ := h.start.exists_splitAtByte?
  unfold SyntaxError.excerpt?
  rw [hsplit]
  show ∃ excerpt, (if span.start.offset < span.stop.offset then _
    else some (Excerpt.ofPlace before after)) = some excerpt
  split_ifs
  · split
    · exact ⟨_, rfl⟩
    · exact ⟨_, rfl⟩
  · exact ⟨_, rfl⟩

/-- A text that begins with a character, and goes on. -/
theorem head?_append_of_eq {first second : String} {c : Char} (h : first.toList.head? = some c) :
    (first ++ second).toList.head? = some c := by
  rw [String.toList_append, List.head?_append, h]
  rfl

/-- A drawing begins in the margin, in front of the numbers of the lines. -/
theorem Excerpt.head?_draw (e : Excerpt) (message : String) :
    (e.draw message).toList.head? = some ' ' := by
  have hgap : ∀ n : Nat, (String.ofList (List.replicate (toString n).length ' ')).toList.head? =
      some ' ' := by
    intro n
    have hwidth : 0 < (toString n).length := Nat.toString_eq_repr ▸ Nat.length_repr_pos
    rw [String.toList_ofList, List.head?_replicate, if_neg (Nat.ne_of_gt hwidth)]
  unfold draw
  dsimp only
  rw [List.cons_append, List.cons_append, List.cons_append, List.cons_append,
    String.intercalate_cons_cons]
  exact head?_append_of_eq (head?_append_of_eq (head?_append_of_eq (head?_append_of_eq (hgap _))))

/-- A message in one line begins with a word. -/
theorem SyntaxError.head?_message (e : SyntaxError) :
    e.message.toList.head? = some 'U' ∨ e.message.toList.head? = some 'I' := by
  cases e with
  | unexpectedToken token expected =>
    exact .inl (head?_append_of_eq (head?_append_of_eq (head?_append_of_eq (head?_append_of_eq
      (head?_append_of_eq rfl)))))
  | unexpectedEnd location expected =>
    exact .inl (head?_append_of_eq (head?_append_of_eq (head?_append_of_eq rfl)))
  | invalid violation span =>
    exact .inr (head?_append_of_eq (head?_append_of_eq (head?_append_of_eq rfl)))

/-- A drawing is not a message in one line. -/
theorem SyntaxError.draw_ne_message (excerpt : Excerpt) (e : SyntaxError) :
    excerpt.draw e.caption ≠ e.message := by
  intro heq
  have hhead := excerpt.head?_draw e.caption
  rw [heq] at hhead
  rcases e.head?_message with hword | hword
  · exact absurd (hhead.symm.trans hword) (by decide)
  · exact absurd (hhead.symm.trans hword) (by decide)

/-! ## Errors of programs -/

/-- An error is pointed at in a source: it has a range between two characters of the source, and is
drawn there. -/
structure SyntaxError.PointsInto (e : SyntaxError) (source : String) : Prop where
  /-- It does not end before it begins. -/
  start_le : e.span.start.offset ≤ e.span.stop.offset
  /-- It does not end behind the source. -/
  stop_le : e.span.stop.offset ≤ source.utf8ByteSize
  /-- It begins between two characters, where the text in front of them leads. -/
  start : ∃ before after, splitAtByte? e.span.start.offset source.toList = some (before, after) ∧
    e.span.start = Location.start.advance before
  /-- It ends between two characters, where the text in front of them leads. -/
  stop : ∃ before after, splitAtByte? e.span.stop.offset source.toList = some (before, after) ∧
    e.span.stop = Location.start.advance before
  /-- It is drawn in its source. -/
  render_eq : ∃ excerpt, SyntaxError.excerpt? e.span source.toList = some excerpt ∧
    e.render source = excerpt.draw e.caption
  /-- So what is shown is not only its message. -/
  render_ne : e.render source ≠ e.message

/-- An error at a range of a source is pointed at: its place is a place of the source, and the
excerpt is drawn from there. -/
theorem IsRange.pointsInto {e : SyntaxError} (h : IsRange source.toList e.span) :
    e.PointsInto source := by
  obtain ⟨excerpt, hexcerpt⟩ := h.exists_excerpt?
  have hrender : e.render source = excerpt.draw e.caption := by
    unfold SyntaxError.render
    rw [if_pos h.start.isValid, hexcerpt]
  obtain ⟨before, after, -, hstart⟩ := h.start.exists_splitAtByte?
  obtain ⟨before', after', -, hstop⟩ := h.stop.exists_splitAtByte?
  refine ⟨h.le, byteLength_toList source ▸ h.stop.offset_le, ⟨before, after, hstart⟩,
    ⟨before', after', hstop⟩, ⟨excerpt, hexcerpt, hrender⟩, ?_⟩
  rw [hrender]
  exact e.draw_ne_message excerpt

/-- Every error of a program is pointed at in the program: the range that it tells lies in the
source, and the excerpt shown with it is drawn from there. -/
theorem pointsInto_of_parseProgram {e : SyntaxError} (h : parseProgram source = .error e) :
    e.PointsInto source := by
  unfold parseProgram at h
  have hmeets := meets_parse_module source
  rcases hparse : RuleTable.standard.parse "module" (.ofSource source) with ⟨e' | tree, t⟩
  · rw [hparse] at h
    cases h
    exact (hmeets.of_eq_error hparse).pointsInto
  · rw [hparse] at h
    cases h

/-- A transition without a target, behind letters of more than one byte, in a body that is never
closed. -/
def unfinished : String := "finite m \x7b // été\n\tp 'ß' -> ;\n"

/-- The error of that program is the one of the last kind of transition that was attempted, and is
pointed at behind the arrow. -/
theorem pointsInto_unfinished :
    ∃ e, parseProgram unfinished = .error e ∧ e.span = ⟨⟨31, 2, 11⟩, ⟨32, 2, 12⟩⟩ ∧
    e.PointsInto unfinished := by
  have herror : (match parseProgram unfinished with
      | .error e => some e.span
      | .ok _ => none) = some ⟨⟨31, 2, 11⟩, ⟨32, 2, 12⟩⟩ := by decide +kernel
  cases hread : parseProgram unfinished with
  | ok result =>
    rw [hread] at herror
    cases herror
  | error e =>
    rw [hread] at herror
    exact ⟨e, rfl, Option.some.inj herror, pointsInto_of_parseProgram hread⟩

end MachineLang

import MachineLang.Proofs.Unbuffered

/-!
# Places of a text

A location is a place of a text if walking over a first part of the text leads to it (`IsPlace`).
From a place to a place lead the tokens that are cut off the text, so the ends of all tokens in a
chain are places, and the text of a token is what stands between its ends (`Chain.fits`). Reading on
first moves over the tokens that are skipped (`Unbuffered.skip`); what it gives is the token behind
them.
-/

namespace MachineLang

/-- A place of a text: walking over a first part of the text leads there. -/
def IsPlace (text : List Char) (l : Location) : Prop :=
  ∃ before after, text = before ++ after ∧ l = Location.start.advance before

/-- A range of a text: it begins and ends at places of the text, and does not end before it
begins. -/
structure IsRange (text : List Char) (span : Span) : Prop where
  /-- It begins at a place of the text. -/
  start : IsPlace text span.start
  /-- It ends at a place of the text. -/
  stop : IsPlace text span.stop
  /-- It does not end before it begins. -/
  le : span.start.offset ≤ span.stop.offset

/-- A token stands in a text: its value is what stands between its two places. -/
structure Fits (text : List Char) (t : Token) : Prop where
  /-- It begins at a place of the text. -/
  location : IsPlace text t.location
  /-- It ends behind its value. -/
  stop_eq : t.stop = t.location.advance t.value.toList
  /-- Its value stands where it begins. -/
  value : ∃ after, textFrom t.location.offset text = t.value.toList ++ after

/-- The empty range at a place is one of the text. -/
theorem IsRange.point {text : List Char} {l : Location} (h : IsPlace text l) :
    IsRange text (.point l) :=
  ⟨h, h, Nat.le_refl _⟩

namespace IsPlace

variable {text value rest : List Char} {l : Location}

/-- The start of a text is a place. -/
theorem start (text : List Char) : IsPlace text .start := ⟨[], text, rfl, rfl⟩

/-- What stands in front of a place has as many bytes as the offset of the place. -/
theorem textFrom_eq (before after : List Char) :
    textFrom (Location.start.advance before).offset (before ++ after) = after := by
  rw [Location.offset_advance]
  show textFrom (0 + byteLength before) _ = _
  rw [Nat.zero_add, textFrom_byteLength]

/-- Walking over the text at a place leads to a place. -/
theorem advance (h : IsPlace text l) (htext : textFrom l.offset text = value ++ rest) :
    IsPlace text (l.advance value) := by
  obtain ⟨before, after, rfl, rfl⟩ := h
  rw [textFrom_eq] at htext
  refine ⟨before ++ value, rest, ?_, (Location.advance_append _ _ _).symm⟩
  rw [htext, List.append_assoc]

end IsPlace

namespace Fits

variable {text : List Char} {t : Token}

/-- A token ends at a place. -/
theorem stop (h : Fits text t) : IsPlace text t.stop := by
  obtain ⟨after, hafter⟩ := h.value
  rw [h.stop_eq]
  exact h.location.advance hafter

/-- A token ends as many bytes behind its beginning as its value has. -/
theorem offset_stop (h : Fits text t) :
    t.stop.offset = t.location.offset + byteLength t.value.toList := by
  rw [h.stop_eq, Location.offset_advance]

/-- A token does not end before it begins. -/
theorem le (h : Fits text t) : t.location.offset ≤ t.stop.offset := by
  rw [h.offset_stop]
  exact Nat.le_add_right _ _

/-- The range of a token is one of the text. -/
theorem isRange (h : Fits text t) : IsRange text t.span := ⟨h.location, h.stop, h.le⟩

end Fits

/-- Text takes room: each character has a byte at least. -/
theorem byteLength_pos {text : List Char} (h : text ≠ []) : 0 < byteLength text := by
  obtain ⟨c, cs, rfl⟩ := List.exists_cons_of_ne_nil h
  have hpos := c.utf8Size_pos
  rw [byteLength_cons]
  omega

namespace Cursor

/-- A token that is cut off at a place fits the text; the end token stands where no text is left,
and any other token takes some. -/
theorem fits_lex (modes : List LexMode) {text : List Char} {l : Location} (h : IsPlace text l) :
    let token := ((ofLocation text l).lex (activeRules modes)).1
    Fits text token ∧ token.location = l ∧
      (token.kind = .endOfInput → token.stop = l ∧ token.value = "" ∧ textFrom l.offset text = []) ∧
      (token.kind ≠ .endOfInput → l.offset < token.stop.offset) := by
  unfold ofLocation
  generalize hrest : textFrom l.offset text = rest
  by_cases hnil : rest = []
  · subst hnil
    rw [lex_nil]
    exact ⟨⟨h, rfl, [], hrest⟩, rfl, fun _ => ⟨rfl, rfl, rfl⟩, fun hne => absurd rfl hne⟩
  · -- A token of one character or more ends behind its place, by as many bytes as its text has.
    obtain ⟨kind, value, after, hkind, hvalue, rfl, hlex⟩ := lex_cons modes l hnil
    rw [hlex]
    refine ⟨⟨h, ?_, after, ?_⟩, rfl, fun heq => absurd heq hkind, fun _ => ?_⟩
    · exact congrArg l.advance (String.toList_ofList).symm
    · rw [hrest, String.toList_ofList]
    · have hpos := byteLength_pos hvalue
      rw [Location.offset_advance]
      omega

end Cursor

namespace Cursor

/-- A token is cut off the front of the text. -/
theorem value_append_lex (modes : List LexMode) (c : Cursor) :
    (c.lex (activeRules modes)).1.value.toList ++ (c.lex (activeRules modes)).2.rest = c.rest := by
  obtain ⟨l, text⟩ := c
  by_cases hnil : text = []
  · subst hnil
    rfl
  · obtain ⟨kind, value, rest, -, -, rfl, hlex⟩ := lex_cons modes l hnil
    rw [hlex]
    exact congrArg (· ++ rest) String.toList_ofList

/-- What is behind a token is the end of the text. -/
theorem lex_suffix (modes : List LexMode) (c : Cursor) :
    (c.lex (activeRules modes)).2.rest <:+ c.rest :=
  ⟨_, value_append_lex modes c⟩

end Cursor

namespace Chain

variable {text : List Char} {l m : Location} {b : Buffered} {bs : List Buffered}

/-- The tokens of a chain that begins at a place fit the text: each of them has the text that stands
between its own ends. -/
theorem fits (h : Chain text l bs m) (hl : IsPlace text l) :
    IsPlace text m ∧ l.offset ≤ m.offset ∧ ∀ b ∈ bs, Fits text b.token := by
  induction h with
  | nil l => exact ⟨hl, Nat.le_refl _, List.forall_mem_nil _⟩
  | @cons l m b bs hlex hrest ih =>
    have hfits := Cursor.fits_lex b.modes hl
    rw [hlex] at hfits
    obtain ⟨hfirst, hlocation, -⟩ := hfits
    obtain ⟨hm, hle, hothers⟩ := ih hfirst.stop
    have hfirstLe := hfirst.le
    rw [hlocation] at hfirstLe
    exact ⟨hm, Nat.le_trans hfirstLe hle, List.forall_mem_cons.2 ⟨hfirst, hothers⟩⟩

/-- Behind a chain of tokens is the end of the text. -/
theorem suffix (h : Chain text l bs m) : textFrom m.offset text <:+ textFrom l.offset text := by
  induction h with
  | nil l => exact List.suffix_rfl
  | @cons l m b bs hlex hrest ih =>
    refine ih.trans ?_
    have hbehind := Cursor.ofLocation_lex b.modes text l
    have hsuffix := Cursor.lex_suffix b.modes (Cursor.ofLocation text l)
    rw [hbehind, hlex] at hsuffix
    exact hsuffix

/-- A chain from the start leads to the end of its last token, so what is behind this token is what
is left of the text. -/
theorem eq_getLast (h : Chain text .start bs m) :
    m = (bs.getLast?.map fun b => b.token.stop).getD .start := by
  cases hlast : bs.getLast? with
  | none =>
    obtain rfl := List.getLast?_eq_none_iff.1 hlast
    exact h.eq_of_nil
  | some b =>
    obtain ⟨before, rfl⟩ := List.getLast?_eq_some_iff.1 hlast
    obtain ⟨p, -, hb⟩ := append_iff.1 h
    cases hb with
    | cons hlex hrest => exact hrest.eq_of_nil

end Chain

/-! ## Moving over skipped tokens -/

namespace Unbuffered

/-- The stream at the next token that is not skipped, or at the end of the text. -/
def skip (u : Unbuffered) : Unbuffered :=
  if _h : u.token.kind = .endOfInput then u
  else if u.isIgnored u.token.kind then u.pass.skip
  else u
termination_by u.cursor.rest.length
decreasing_by exact length_rest_pass_lt _h

section

variable {u : Unbuffered}

/-- At the end of the text nothing is skipped. -/
theorem skip_of_end (h : u.token.kind = .endOfInput) : u.skip = u := by
  rw [skip, dif_pos h]

/-- A token of a skipped kind is passed. -/
theorem skip_of_isIgnored (h : u.token.kind ≠ .endOfInput)
    (hignored : u.isIgnored u.token.kind = true) :
    u.skip = u.pass.skip := by
  rw [skip, dif_neg h, if_pos hignored]

/-- Any other token stays ahead: nothing is skipped in front of it. -/
theorem skip_of_not_isIgnored (h : u.token.kind ≠ .endOfInput)
    (hignored : ¬ u.isIgnored u.token.kind = true) :
    u.skip = u := by
  rw [skip, dif_neg h, if_neg hignored]

end

/-- Reading gives the token behind the skipped ones. -/
theorem advance_eq (u : Unbuffered) (expected : List TokenKind) :
    u.advance expected =
      if u.skip.token.kind = .endOfInput then
        if u.isIgnored .endOfInput then (.error (.unexpectedEnd u.skip.token.location expected),
          u.skip)
        else (.ok u.skip.token, { u.skip with lastEnd := u.skip.token.stop })
      else (.ok u.skip.token, { u.skip.pass with lastEnd := u.skip.token.stop }) := by
  induction u using skip.induct with
  | case1 u h => rw [advance, skip_of_end h, dif_pos h, if_pos h]
  | case2 u h hignored ih =>
    rw [advance, skip_of_isIgnored h hignored, dif_neg h, if_pos hignored]
    exact ih
  | case3 u h hignored =>
    rw [advance, skip_of_not_isIgnored h hignored, dif_neg h, if_neg hignored, if_neg h]

/-- Looking ahead gives the token behind the skipped ones. -/
theorem ahead_zero_eq (u : Unbuffered) (expected : List TokenKind) :
    u.ahead 0 expected =
      if u.skip.token.kind = .endOfInput ∧ u.isIgnored .endOfInput then
        .error (.unexpectedEnd u.skip.token.location expected)
      else .ok u.skip.token := by
  show (u.advance expected).1 = _
  rw [advance_eq]
  by_cases hend : u.skip.token.kind = .endOfInput
  · rw [if_pos hend]
    by_cases hignored : u.isIgnored .endOfInput = true
    · rw [if_pos hignored, if_pos ⟨hend, hignored⟩]
    · rw [if_neg hignored, if_neg fun h => hignored h.2]
  · rw [if_neg hend, if_neg fun h => hend h.1]

/-- Moving over skipped tokens leads to a place of the source, no earlier than before, and changes
neither the source nor the settings nor the end of the last token that was read. -/
theorem skip_spec {u : Unbuffered} (h : IsPlace u.source.toList u.place) :
    IsPlace u.source.toList u.skip.place ∧ u.place.offset ≤ u.skip.place.offset ∧
      u.skip.source = u.source ∧ u.skip.lastEnd = u.lastEnd ∧ u.skip.settings = u.settings := by
  induction u using skip.induct with
  | case1 u hend =>
    rw [skip_of_end hend]
    exact ⟨h, Nat.le_refl _, rfl, rfl, rfl⟩
  | case2 u hend hignored ih =>
    obtain ⟨hfits, hlocation, -, -⟩ := Cursor.fits_lex u.settings.modes h
    -- A skipped token ends at a place again, no earlier than it began.
    have hle : u.place.offset ≤ u.pass.place.offset := by
      have hle := hfits.le
      rw [hlocation] at hle
      exact hle
    obtain ⟨hplace, hrest, hsame⟩ := ih hfits.stop
    rw [skip_of_isIgnored hend hignored]
    exact ⟨hplace, Nat.le_trans hle hrest, hsame⟩
  | case3 u hend hignored =>
    rw [skip_of_not_isIgnored hend hignored]
    exact ⟨h, Nat.le_refl _, rfl, rfl, rfl⟩

/-- Behind the skipped tokens is the end of the text. -/
theorem skip_suffix (u : Unbuffered) : u.skip.cursor.rest <:+ u.cursor.rest := by
  induction u using skip.induct with
  | case1 u hend => simp only [skip_of_end hend, List.suffix_rfl]
  | case2 u hend hignored ih =>
    have hpass : u.pass.cursor.rest <:+ u.cursor.rest := by
      rw [cursor_pass]
      exact Cursor.lex_suffix u.settings.modes u.cursor
    rw [skip_of_isIgnored hend hignored]
    exact ih.trans hpass
  | case3 u hend hignored => simp only [skip_of_not_isIgnored hend hignored, List.suffix_rfl]

end Unbuffered

end MachineLang

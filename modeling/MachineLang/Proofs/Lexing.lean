import MachineLang.Token.Scan
import Mathlib.Data.List.Basic

/-!
# Cutting a token off

What `Cursor.lex` does at a place of a text. At the end of the text it gives the end token, and
stays (`lex_nil`). Before it, the token takes at least one character and is of another kind than the
end token, since no rule is for that kind (`lex_cons`). The text behind the token is the one at the
place where the token ends (`ofLocation_lex`), so a place in a text is all that one has to know to
go on.
-/

namespace MachineLang

/-! ## Places -/

/-- Walking over a text adds its bytes to the offset. -/
theorem Location.offset_advance (l : Location) (text : List Char) :
    (l.advance text).offset = l.offset + byteLength text := by
  induction text generalizing l with
  | nil => rfl
  | cons c cs ih =>
    have hnext : (l.next c).offset = l.offset + c.utf8Size := by
      unfold next
      split <;> rfl
    rw [advance_cons, ih, hnext, byteLength_cons, Nat.add_assoc]

/-- A text is cut behind its first part by the number of bytes of that part. -/
theorem splitAtByte?_byteLength (before after : List Char) :
    splitAtByte? (byteLength before) (before ++ after) = some (before, after) := by
  induction before with
  | nil => cases after <;> rfl
  | cons c cs ih =>
    obtain ⟨n, hn⟩ : ∃ n, c.utf8Size + byteLength cs = n + 1 :=
      Nat.exists_eq_add_one_of_ne_zero (by have hpos := c.utf8Size_pos; omega)
    have hrest : n + 1 - c.utf8Size = byteLength cs := by omega
    rw [byteLength_cons, List.cons_append, hn, splitAtByte?, if_neg (by omega), hrest, ih]
    rfl

/-- The text from the place behind a first part on is what follows that part. -/
theorem textFrom_byteLength (before after : List Char) :
    textFrom (byteLength before) (before ++ after) = after := by
  unfold textFrom
  rw [splitAtByte?_byteLength]

/-- The text from a place on is the end of the whole text, and the offset of the place tells what is
in front of it. -/
theorem exists_of_textFrom_ne_nil {offset : Nat} {text : List Char}
    (h : textFrom offset text ≠ []) :
    ∃ before, text = before ++ textFrom offset text ∧ byteLength before = offset := by
  unfold textFrom at h ⊢
  split
  · next before after hsplit =>
    obtain ⟨htext, hlength⟩ := splitAtByte?_eq_some hsplit
    exact ⟨before, htext, hlength⟩
  · next hsplit =>
    rw [hsplit] at h
    exact absurd rfl h

/-- Walking over the first part of the text at a place leads to the place of the rest. -/
theorem textFrom_advance {text value rest : List Char} {l : Location} (hvalue : value ≠ [])
    (h : textFrom l.offset text = value ++ rest) :
    textFrom (l.advance value).offset text = rest := by
  have hne : textFrom l.offset text ≠ [] := by
    rw [h]
    exact List.append_ne_nil_of_left_ne_nil hvalue rest
  obtain ⟨before, htext, hlength⟩ := exists_of_textFrom_ne_nil hne
  rw [h, ← List.append_assoc] at htext
  rw [Location.offset_advance, ← hlength, ← byteLength_append, htext, textFrom_byteLength]

/-! ## Kinds -/

/-- A match is under some rule, unless no rule applies. -/
theorem longestMatch_cases (rules : List Rule) (text : List Char) :
    (longestMatch rules text).1 = .invalid ∨ ∃ r ∈ rules, (longestMatch rules text).1 = r.kind := by
  refine List.foldlRecOn (motive := fun best : TokenKind × Nat =>
    best.1 = .invalid ∨ ∃ r ∈ rules, best.1 = r.kind) rules _ (.inl rfl) fun best hbest r hr => ?_
  dsimp only
  split
  · exact .inr ⟨r, hr, rfl⟩
  · exact hbest

/-- No rule in force is for the end of the text, so the end token is cut off only where no text is
left. -/
theorem kind_ne_of_mem_activeRules {modes : List LexMode} {r : Rule} (h : r ∈ activeRules modes) :
    r.kind ≠ .endOfInput := by
  -- A check of the three tables of rules, which carries over to any stack of modes.
  have hmode : ∀ m : LexMode, ∀ r ∈ m.rules, r.kind ≠ .endOfInput := by
    intro m
    cases m with
    | base => decide
    | char => decide
    | grammar => decide
  induction modes with
  | nil => exact absurd h List.not_mem_nil
  | cons m outer ih =>
    rcases List.mem_append.1 h with h | h
    · exact hmode m r h
    · exact ih (List.mem_of_mem_filter h)

/-- No match is for the end of the text. -/
theorem longestMatch_ne_endOfInput (modes : List LexMode) (text : List Char) :
    (longestMatch (activeRules modes) text).1 ≠ .endOfInput := by
  rcases longestMatch_cases (activeRules modes) text with hkind | ⟨r, hr, hkind⟩
  · rw [hkind]
    decide
  · rw [hkind]
    exact kind_ne_of_mem_activeRules hr

namespace Cursor

/-- At the end of the text stands the end token. -/
theorem lex_nil (rules : List Rule) (l : Location) :
    Cursor.lex rules ⟨l, []⟩ = (⟨.endOfInput, "", l, l⟩, ⟨l, []⟩) := rfl

/-- Before the end of the text a token takes one character or more, and the cursor moves on by as
many. So cutting off tokens comes to an end. -/
theorem lex_cons (modes : List LexMode) (l : Location) {text : List Char} (h : text ≠ []) :
    ∃ kind value rest, kind ≠ .endOfInput ∧ value ≠ [] ∧ text = value ++ rest ∧
      Cursor.lex (activeRules modes) ⟨l, text⟩ =
        (⟨kind, .ofList value, l, l.advance value⟩, ⟨l.advance value, rest⟩) := by
  obtain ⟨c, cs, rfl⟩ := List.exists_cons_of_ne_nil h
  rcases hmatch : longestMatch (activeRules modes) (c :: cs) with ⟨kind, length⟩
  have hkind := longestMatch_ne_endOfInput modes (c :: cs)
  rw [hmatch] at hkind
  generalize hn : (if length = 0 then 1 else length) = n
  -- Where nothing matches, one character is taken all the same.
  have hpos : n ≠ 0 := by
    rw [← hn]
    split <;> omega
  refine ⟨kind, (c :: cs).take n, (c :: cs).drop n, hkind, ?_, (List.take_append_drop n _).symm, ?_⟩
  · rw [ne_eq, List.take_eq_nil_iff, not_or]
    exact ⟨hpos, List.cons_ne_nil c cs⟩
  · unfold lex
    simp only [hmatch, hn]

/-- The start of a text is the place in front of all of it. -/
theorem ofLocation_start (text : List Char) : ofLocation text .start = ofText text := by
  cases text with
  | nil => rfl
  | cons c cs => rfl

/-- Behind a token stands the text from the place on where the token ends. -/
theorem ofLocation_lex (modes : List LexMode) (text : List Char) (l : Location) :
    ((ofLocation text l).lex (activeRules modes)).2 =
      ofLocation text ((ofLocation text l).lex (activeRules modes)).1.stop := by
  unfold ofLocation
  generalize hrest : textFrom l.offset text = rest
  by_cases hnil : rest = []
  · subst hnil
    rw [lex_nil, hrest]
  · obtain ⟨kind, value, after, -, hvalue, rfl, hlex⟩ := lex_cons modes l hnil
    rw [hlex, textFrom_advance hvalue hrest]

/-- The token at a place is the end token if no text is left. -/
theorem kind_lex_eq_iff (modes : List LexMode) (c : Cursor) :
    (c.lex (activeRules modes)).1.kind = .endOfInput ↔ c.rest = [] := by
  obtain ⟨l, text⟩ := c
  constructor
  · intro hkind
    by_contra hne
    obtain ⟨kind, value, rest, hend, -, -, hlex⟩ := lex_cons modes l hne
    rw [hlex] at hkind
    exact hend hkind
  · rintro rfl
    rfl

/-- Less text is left behind a token that is not the end token. -/
theorem length_rest_lex_lt (modes : List LexMode) (c : Cursor)
    (h : (c.lex (activeRules modes)).1.kind ≠ .endOfInput) :
    (c.lex (activeRules modes)).2.rest.length < c.rest.length := by
  obtain ⟨l, text⟩ := c
  have hne : text ≠ [] := fun hnil => h ((kind_lex_eq_iff modes _).2 hnil)
  obtain ⟨kind, value, rest, -, hvalue, rfl, hlex⟩ := lex_cons modes l hne
  have hpos := List.length_pos_iff.2 hvalue
  rw [hlex, List.length_append]
  dsimp only
  omega

end Cursor

end MachineLang

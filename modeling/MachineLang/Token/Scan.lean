import MachineLang.Text.Offset
import MachineLang.Token.Basic
import MachineLang.Token.Mode

/-!
# Cutting tokens off a text

`Cursor.lex` cuts one token off the text at a cursor: the longest prefix that any active rule
describes, under the earliest rule among those of that length. Where no rule applies one character
becomes an invalid token, and at the end of the text the end token is returned again and again.
-/

namespace MachineLang

/-- A place in a source together with the text from there on. -/
structure Cursor where
  /-- The place. -/
  location : Location
  /-- The text from the place on. -/
  rest : List Char
deriving DecidableEq, Repr

/-- The kind and the length of the longest match; the earlier rule wins a tie. A length of zero says
that no rule applies. -/
def longestMatch (rules : List Rule) (text : List Char) : TokenKind × Nat :=
  rules.foldl (fun best rule =>
    let length := rule.pattern.munch text
    if best.2 < length then (rule.kind, length) else best) (.invalid, 0)

namespace Cursor

/-- The beginning of a source, with all of its text ahead. -/
def ofText (text : List Char) : Cursor := ⟨.start, text⟩

/-- A given place of a source, with nothing behind it if no character begins there. -/
def ofLocation (text : List Char) (location : Location) : Cursor :=
  ⟨location, textFrom location.offset text⟩

/-- Cuts one token off the text, and moves past it. -/
def lex (rules : List Rule) (cursor : Cursor) : Token × Cursor :=
  match cursor.rest with
  | [] => (⟨.endOfInput, "", cursor.location, cursor.location⟩, cursor)
  | c :: cs =>
    let (kind, length) := longestMatch rules (c :: cs)
    -- Where no rule applies, one character is taken.
    let length := if length = 0 then 1 else length
    let value := (c :: cs).take length
    let stop := cursor.location.advance value
    (⟨kind, String.ofList value, cursor.location, stop⟩, ⟨stop, (c :: cs).drop length⟩)

/-- Every token from the cursor on, the end token included. Each token but the end token takes at
least one character, which is why `steps` need not exceed the length of the text. -/
def lexAll (rules : List Rule) : Nat → Cursor → List Token
  | 0, cursor => [(cursor.lex rules).1]
  | steps + 1, cursor =>
    let (token, next) := cursor.lex rules
    if token.kind = .endOfInput then [token] else token :: next.lexAll rules steps

end Cursor

/-- Every token of a source from a location on, under a stack of modes. -/
def tokenize (modes : List LexMode) (text : List Char) (location : Location) : List Token :=
  let cursor := Cursor.ofLocation text location
  cursor.lexAll (activeRules modes) cursor.rest.length

end MachineLang

import MachineLang.Text.Location
import MachineLang.Text.Quoted
import MachineLang.Token.Kind

/-!
# Tokens

A token is a piece of the source text with a kind and the two places between which it stands.
-/

namespace MachineLang

/-- A piece of the source text, with its kind and the places between which it stands. -/
structure Token where
  /-- What the token is. -/
  kind : TokenKind
  /-- The text of the token. -/
  value : String
  /-- Where the token begins. -/
  location : Location
  /-- Where the token ends. -/
  stop : Location
deriving DecidableEq, Repr, Inhabited

namespace Token

/-- The range of the source that the token covers. -/
def span (t : Token) : Span := ⟨t.location, t.stop⟩

/-- The token as named in messages: its kind and its quoted text. -/
def text (t : Token) : String :=
  match t.kind with
  | .endOfInput => "end of input"
  | kind => kind.name ++ " " ++ quoted t.value

end Token

end MachineLang

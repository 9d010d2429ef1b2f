import MachineLang.TokenStream.Basic

/-!
# Parsers

A parser reads from a token stream and gives a value or a syntax error; the stream keeps what was
read in either case. The primitives are those of the stream; `Parser.oneOf` adds backtracking, and
`Parser.collect` repetition, which is bounded by the number of tokens of the source.
-/

namespace MachineLang

/-- A reader of a token stream that may fail. -/
abbrev Parser (α : Type) := ExceptT SyntaxError (StateM TokenStream) α

namespace Parser

variable {α : Type}

/-- Reads the next token that is not skipped, and moves on behind it. -/
def next : Parser Token := fun s => s.next

/-- Looks at the next token without moving on. -/
def peek : Parser Token := fun s => s.peek

/-- Where the next token begins. At the end of the source this is the end itself. -/
def location : Parser Location := fun s =>
  let (l, s) := s.location
  (.ok l, s)

/-- Whether the next token has a kind; it is not read. -/
def check (kind : TokenKind) : Parser Bool := fun s =>
  let (b, s) := s.check kind
  (.ok b, s)

/-- Whether the next token is a given identifier. -/
def checkWord (word : String) : Parser Bool := fun s =>
  let (b, s) := s.checkWord word
  (.ok b, s)

/-- Reads the next token if it has a kind. -/
def accept (kind : TokenKind) : Parser (Option Token) := fun s => s.accept kind

/-- Reads the next token, which has to be of one of some kinds. -/
def expect (kinds : List TokenKind) : Parser Token := fun s => s.expect kinds

/-- Where the last token read ends. -/
def lastEnd : Parser Location := fun s => (.ok s.lastEnd, s)

/-- A bound on the number of tokens of the source. -/
def limit : Parser Nat := fun s => (.ok s.limit, s)

/-- The range from a place to the end of the last token read. -/
def spanFrom (start : Location) : Parser Span := return ⟨start, ← lastEnd⟩

/-- Runs a parser under changed settings, and puts the old ones back in force whether it succeeds or
fails. -/
def withSettings (update : Settings → Settings) (p : Parser α) : Parser α :=
  fun s => s.withSettings update p

/-- Runs a parser with a mode on top of those in force. -/
def withMode (mode : LexMode) (p : Parser α) : Parser α := withSettings (.push mode) p

/-- Runs a parser with a mode on top of those in force, if there is one. -/
def withMode? : Option LexMode → Parser α → Parser α
  | none, p => p
  | some mode, p => withMode mode p

/-- Runs a parser, and takes back what it read if it fails. -/
def attempt (p : Parser α) : Parser (Attempt α) := fun s =>
  s.checkpoint fun s =>
    match p s with
    | (.ok value, s) => ((.ok value, true), s)
    | (.error e, s) => ((.error e, false), s)

/-- Says that the rules have no end. No source makes the standard rules say so. -/
def endless : Parser α := do
  let l ← location
  throw (.invalid .endlessRules (.point l))

/-- The first of some parsers that succeeds, or the error of the last one. -/
def oneOf (failure : SyntaxError) : List (Parser α) → Parser α
  | [] => throw failure
  | p :: ps => do
    match ← attempt p with
    | .done value => return value
    | .rolledBack e => oneOf e ps

/-- Gathers the values of a repeated parser, which gives nothing when it is done. -/
def collectWithin (step : Parser (Option α)) : Nat → List α → Parser (List α)
  | 0, _ => endless
  | steps + 1, values => do
    match ← step with
    | none => return values.reverse
    | some value => collectWithin step steps (value :: values)

/-- Gathers the values of a repeated parser, which gives nothing when it is done. Every round but
the last takes a token, so there are no more rounds than tokens. -/
def collect (step : Parser (Option α)) : Parser (List α) := do
  collectWithin step (← limit) []

end Parser

end MachineLang

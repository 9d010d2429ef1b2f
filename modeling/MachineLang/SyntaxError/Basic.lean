import MachineLang.Token.Basic

/-!
# Syntax errors

Why a source could not be read, with its place and its message.
-/

namespace MachineLang

/-- A violation of the rule for one particular construct. -/
inductive Violation
  /-- A string without its closing quote. -/
  | unterminatedString
  /-- A non-terminal without its closing bracket. -/
  | unclosedNonTerminal
  /-- A character name that is not known; `name` begins with a dollar sign. -/
  | unknownCharacterName (name : String)
  /-- A shift that is none of the three directions. -/
  | unknownShift
  /-- A pushdown transition that touches no stack. -/
  | neitherPopNorPush
  /-- A rule name that is not registered. -/
  | unknownRule (name : String)
  /-- A choice between no rules at all. -/
  | noAlternatives
  /-- Rules that call each other, or repeat, without end. -/
  | endlessRules
  /-- A violation described by its own text. -/
  | other (message : String)
deriving DecidableEq, Repr, Inhabited

/-- The violation in words, without the place where it stands. -/
def Violation.message : Violation → String
  | unterminatedString => "unterminated string"
  | unclosedNonTerminal => "unclosed non-terminal reference"
  | unknownCharacterName name => "unsupported named character '" ++ name ++ "'"
  | unknownShift => "invalid shift direction"
  | neitherPopNorPush => "a pushdown transition needs 'pop' or 'push'"
  | unknownRule name => "unknown grammar rule '" ++ name ++ "'"
  | noAlternatives => "no alternatives to try"
  | endlessRules => "grammar rules are applied without end"
  | other message => message

/-- Why a source could not be read, with the place where that came up. -/
inductive SyntaxError
  /-- The next token is none of the expected kinds. -/
  | unexpectedToken (token : Token) (expected : List TokenKind)
  /-- The source ends where more was expected. -/
  | unexpectedEnd (location : Location) (expected : List TokenKind)
  /-- A construct breaks a rule of its own. -/
  | invalid (violation : Violation) (span : Span)
deriving DecidableEq, Repr, Inhabited

namespace SyntaxError

/-- The range of the source that the error is about. -/
def span : SyntaxError → Span
  | unexpectedToken token _ => token.span
  | unexpectedEnd location _ => .point location
  | invalid _ span => span

/-- The expected kinds in words, as a choice between them. -/
def expectedText : List TokenKind → String
  | [] => "nothing"
  | kinds => String.intercalate " or " (kinds.map TokenKind.name)

/-- The error in one line, with its place in the source. -/
def message : SyntaxError → String
  | unexpectedToken token expected =>
    "Unexpected " ++ token.text ++ " at " ++ token.location.text ++ ", expected " ++
      expectedText expected
  | unexpectedEnd location expected =>
    "Unexpected end of input at " ++ location.text ++ ", expected " ++ expectedText expected
  | invalid violation span => "Invalid syntax at " ++ span.start.text ++ ": " ++ violation.message

/-- Whether the error says that the rules themselves never come to an end, which no other
alternative can mend. -/
def isEndless : SyntaxError → Bool
  | invalid .endlessRules _ => true
  | _ => false

end SyntaxError

end MachineLang

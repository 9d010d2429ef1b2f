/-!
# Kinds of tokens

Keywords have kinds of their own. The contextual words `tapes`, `stacks`, `start`, `pop` and `push`
are plain identifiers, so that they stay usable as names.
-/

namespace MachineLang

/-- What a token is, from blanks and the end of the source to words and signs. -/
inductive TokenKind
  | whitespace
  | newline
  | comment
  | endOfInput
  | invalid
  | identifier
  | string
  | unterminatedString
  | character
  | quotedCharacter
  | namedCharacter
  | nonTerminal
  | unclosedNonTerminal
  | finite
  | pushdown
  | turing
  | grammar
  | initial
  | final
  | print
  | test
  | union
  | intersection
  | concatenate
  | complement
  | determinize
  | reenumerate
  | star
  | reverse
  | leftBrace
  | rightBrace
  | leftBracket
  | rightBracket
  | leftParen
  | rightParen
  | comma
  | colon
  | semicolon
  | arrow
  | equals
  | pipe
  | shiftLeft
  | shiftRight
  | noShift
deriving DecidableEq, Repr, Inhabited

namespace TokenKind

/-- Every kind, in the order of declaration. -/
def all : List TokenKind :=
  [.whitespace, .newline, .comment, .endOfInput, .invalid, .identifier, .string,
   .unterminatedString, .character, .quotedCharacter, .namedCharacter, .nonTerminal,
   .unclosedNonTerminal, .finite, .pushdown, .turing, .grammar, .initial, .final, .print,
   .test, .union, .intersection, .concatenate, .complement, .determinize, .reenumerate, .star,
   .reverse, .leftBrace, .rightBrace, .leftBracket, .rightBracket, .leftParen, .rightParen,
   .comma, .colon, .semicolon, .arrow, .equals, .pipe, .shiftLeft, .shiftRight, .noShift]

/-- The kind as named in messages. -/
def name : TokenKind → String
  | .whitespace => "whitespace"
  | .newline => "newline"
  | .comment => "comment"
  | .endOfInput => "end of input"
  | .invalid => "invalid"
  | .identifier => "identifier"
  | .string => "string"
  | .unterminatedString => "unterminated string"
  | .character => "character"
  | .quotedCharacter => "quoted character"
  | .namedCharacter => "named character"
  | .nonTerminal => "non-terminal"
  | .unclosedNonTerminal => "unclosed non-terminal"
  | .finite => "finite"
  | .pushdown => "pushdown"
  | .turing => "turing"
  | .grammar => "grammar"
  | .initial => "initial"
  | .final => "final"
  | .print => "print"
  | .test => "test"
  | .union => "union"
  | .intersection => "intersection"
  | .concatenate => "concatenate"
  | .complement => "complement"
  | .determinize => "determinize"
  | .reenumerate => "reenumerate"
  | .star => "star"
  | .reverse => "reverse"
  | .leftBrace => "'\x7b'"
  | .rightBrace => "'\x7d'"
  | .leftBracket => "'['"
  | .rightBracket => "']'"
  | .leftParen => "'('"
  | .rightParen => "')'"
  | .comma => "','"
  | .colon => "':'"
  | .semicolon => "';'"
  | .arrow => "'->'"
  | .equals => "'='"
  | .pipe => "'|'"
  | .shiftLeft => "'<'"
  | .shiftRight => "'>'"
  | .noShift => "'-'"

/-- The kind as written in encoded values. -/
def tag : TokenKind → String
  | .whitespace => "Whitespace"
  | .newline => "Newline"
  | .comment => "Comment"
  | .endOfInput => "End"
  | .invalid => "Invalid"
  | .identifier => "Identifier"
  | .string => "String"
  | .unterminatedString => "UnterminatedString"
  | .character => "Character"
  | .quotedCharacter => "QuotedCharacter"
  | .namedCharacter => "NamedCharacter"
  | .nonTerminal => "NonTerminal"
  | .unclosedNonTerminal => "UnclosedNonTerminal"
  | .finite => "Finite"
  | .pushdown => "Pushdown"
  | .turing => "Turing"
  | .grammar => "Grammar"
  | .initial => "Initial"
  | .final => "Final"
  | .print => "Print"
  | .test => "Test"
  | .union => "Union"
  | .intersection => "Intersection"
  | .concatenate => "Concatenate"
  | .complement => "Complement"
  | .determinize => "Determinize"
  | .reenumerate => "Reenumerate"
  | .star => "Star"
  | .reverse => "Reverse"
  | .leftBrace => "LeftBrace"
  | .rightBrace => "RightBrace"
  | .leftBracket => "LeftBracket"
  | .rightBracket => "RightBracket"
  | .leftParen => "LeftParen"
  | .rightParen => "RightParen"
  | .comma => "Comma"
  | .colon => "Colon"
  | .semicolon => "Semicolon"
  | .arrow => "Arrow"
  | .equals => "Equals"
  | .pipe => "Pipe"
  | .shiftLeft => "ShiftLeft"
  | .shiftRight => "ShiftRight"
  | .noShift => "NoShift"

/-- The kind with a given tag. -/
def ofTag? (tag : String) : Option TokenKind := all.find? fun kind => kind.tag == tag

end TokenKind

end MachineLang

import MachineLang.Token.Kind
import MachineLang.Token.Pattern

/-!
# Lexer modes

Each mode owns an ordered list of rules. Modes are stacked, innermost first: the active rules are
those of the innermost mode followed by the rules of the modes around it whose kind no inner mode
owns (`activeRules`).
-/

namespace MachineLang

/-- A kind of token and the texts it may have. -/
structure Rule where
  /-- The kind of the tokens. -/
  kind : TokenKind
  /-- The texts of the tokens. -/
  pattern : Pattern
deriving DecidableEq, Repr

/-- A named set of rules; modes are stacked, and inner ones come before outer ones. -/
inductive LexMode
  /-- Statements. -/
  | base
  /-- Single characters, for conditions and tape symbols. -/
  | char
  /-- Productions: non-terminals and alternatives. -/
  | grammar
deriving DecidableEq, Repr, Inhabited

/-- The reserved words and their kinds; no name is one of these words. -/
def keywords : List (String × TokenKind) :=
  [("finite", .finite), ("pushdown", .pushdown), ("turing", .turing), ("grammar", .grammar),
   ("initial", .initial), ("final", .final), ("print", .print), ("test", .test),
   ("union", .union), ("intersection", .intersection), ("concatenate", .concatenate),
   ("complement", .complement), ("determinize", .determinize), ("reenumerate", .reenumerate),
   ("star", .star), ("reverse", .reverse)]

namespace Rule

open Pattern

/-- A rule for exactly one text, which is a keyword or a sign. -/
def word (kind : TokenKind) (text : String) : Rule := ⟨kind, literal text.toList⟩

/-- A letter or an underscore, with which a name may begin. -/
def letter : List SetItem := [.range 'A' 'Z', .range 'a' 'z', .one '_']

/-- A letter, a digit or an underscore. -/
def letterOrDigit : List SetItem := [.range 'A' 'Z', .range 'a' 'z', .range '0' '9', .one '_']

/-- One character of a literal between delimiters `d`: an escaped one, or any but the delimiter, the
backslash and the newline. -/
def literalChar (d : Char) : Pattern :=
  alt (seq (char '\\') (set .any)) (set (.noneOf [.one d, .one '\\', .one '\n']))

/-- The rules of statements: spacing, keywords and signs, names and strings. -/
def base : List Rule :=
  [⟨.whitespace, plus (set (.oneOf [.one ' ', .one '\t', .one '\r']))⟩,
   word .newline "\n",
   ⟨.comment, seq (char '/') (seq (char '/') (star (set (.noneOf [.one '\n']))))⟩] ++
  keywords.map (fun (text, kind) => word kind text) ++
  [⟨.identifier, seq (set (.oneOf letter)) (star (set (.oneOf letterOrDigit)))⟩,
   ⟨.string, seq (char '"') (seq (star (literalChar '"')) (char '"'))⟩,
   ⟨.unterminatedString, seq (char '"') (star (literalChar '"'))⟩,
   word .leftBrace "\x7b", word .rightBrace "\x7d",
   word .leftBracket "[", word .rightBracket "]",
   word .leftParen "(", word .rightParen ")",
   word .comma ",", word .colon ":", word .semicolon ";",
   word .arrow "->", word .equals "=",
   word .shiftLeft "<", word .shiftRight ">", word .noShift "-"]

/-- The rules of single characters, which are in force where a symbol is read. -/
def char : List Rule :=
  [⟨.quotedCharacter, seq (Pattern.char '\'') (seq (literalChar '\'') (Pattern.char '\''))⟩,
   ⟨.namedCharacter, seq (Pattern.char '$') (plus (set (.oneOf letter)))⟩,
   ⟨.character, set .nonBlank⟩]

/-- The rules of productions, which are in force in the body of a grammar. -/
def grammar : List Rule :=
  [⟨.nonTerminal, seq (Pattern.char '<')
      (seq (plus (set (.noneOf [.one '<', .one '>', .blank]))) (Pattern.char '>'))⟩,
   ⟨.unclosedNonTerminal,
      seq (Pattern.char '<') (star (set (.noneOf [.one '<', .one '>', .blank])))⟩,
   word .pipe "|"]

end Rule

namespace LexMode

/-- The mode as written in requests. -/
def tag : LexMode → String
  | base => "Base"
  | char => "Char"
  | grammar => "Grammar"

/-- The mode with a given tag. -/
def ofTag? : String → Option LexMode
  | "Base" => some base
  | "Char" => some char
  | "Grammar" => some grammar
  | _ => none

/-- The rules that the mode owns, in order of priority. -/
def rules : LexMode → List Rule
  | base => Rule.base
  | char => Rule.char
  | grammar => Rule.grammar

/-- Whether the mode owns a rule for a kind. -/
def owns (m : LexMode) (kind : TokenKind) : Bool := m.rules.any fun r => r.kind == kind

end LexMode

/-- The rules in force under a stack of modes, innermost mode first. -/
def activeRules : List LexMode → List Rule
  | [] => []
  | m :: outer => m.rules ++ (activeRules outer).filter fun r => !m.owns r.kind

/-- The named patterns for highlighting a source: every rule but those for spacing. -/
def highlightRules : List (String × String) :=
  ((LexMode.base.rules ++ LexMode.char.rules ++ LexMode.grammar.rules).filter fun r =>
    r.kind != .whitespace && r.kind != .newline).map fun r => (r.kind.name, r.pattern.text)

end MachineLang

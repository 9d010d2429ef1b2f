import MachineLang.Parser.Rule
import MachineLang.Text.Literal

/-!
# The leaves of the language

How each leaf rule reads its tokens. A leaf runs other rules by name through `rule`, which begins
their range at the next token.
-/

namespace MachineLang

namespace Parser

/-- A name, with the range of the source where it stands. -/
def identifier : Parser Identifier := do
  let token ← expect [.identifier]
  return ⟨token.value, token.span⟩

/-- The names among the items of a node. -/
def identifiersOf (node : Node) : List Identifier := node.items.filterMap Node.identifier?

/-- The strings among the items of a node. -/
def stringsOf (node : Node) : List String := node.items.filterMap Node.string?

/-- The symbol that a character name stands for. -/
def namedCharacter? : String → Option String
  | "eps" => some ""
  | "epsilon" => some ""
  | "blank" => some " "
  | "tab" => some "\t"
  | "newline" => some "\n"
  | _ => none

/-- The text that a quoted token stands for. -/
def literalValue (token : Token) : String := .ofList (unescape (unquote token.value.toList))

/-- A symbol written as a character: bare, quoted, or by a name of which a few are known. -/
def character : Parser Node := do
  let token ← expect [.character, .quotedCharacter, .namedCharacter]
  match token.kind with
  | .quotedCharacter => return .character (literalValue token) token.span
  | .namedCharacter =>
    match namedCharacter? (.ofList (token.value.toList.drop 1)) with
    | some value => return .character value token.span
    | none => throw (.invalid (.unknownCharacterName token.value) token.span)
  | _ => return .character token.value token.span

/-- A string, with its escapes read and without its quotes. -/
def string : Parser Node := do
  let token ← expect [.string, .unterminatedString]
  if token.kind = .unterminatedString then throw (.invalid .unterminatedString token.span)
  return .string (literalValue token) token.span

/-- The name that a token gives to a non-terminal: what stands between its brackets, or the whole
token if it has none. -/
def nonTerminalName (token : Token) : Parser Identifier :=
  match token.kind with
  | .nonTerminal => return ⟨.ofList (unquote token.value.toList), token.span⟩
  | .unclosedNonTerminal => throw (.invalid .unclosedNonTerminal token.span)
  | _ => return ⟨token.value, token.span⟩

/-- A reference to a non-terminal, whose name stands between angle brackets. -/
def nonTerminal : Parser Node := do
  let name ← nonTerminalName (← expect [.nonTerminal, .unclosedNonTerminal])
  return .nonTerminal name.name name.span

/-- A movement of a head: one of the three signs for it. -/
def shift : Parser Node := do
  let token ← expect [.shiftLeft, .shiftRight, .noShift]
  match token.value.toList.head?.bind Direction.ofChar? with
  | some direction => return .shift direction token.span
  | none => throw (.invalid .unknownShift token.span)

variable (rule : String → Parser Node)

/-- A value for the tape of a given name. -/
def qualified (value : String) (start : Location) : Parser Node := do
  let tape ← identifier
  let _ ← expect [.colon]
  let node ← rule value
  return .qualified tape node (← spanFrom start)

/-- An expression whose opening parenthesis has been read. -/
def parenthesized : Parser Node := do
  let expression ← rule "expression"
  let _ ← expect [.rightParen]
  return expression

/-- The rest of a declaration, behind its name and its tapes: an expression or a body. -/
def declaration (kind : MachineKind) (name : Identifier) (tapes : List Identifier)
    (start : Location) : Parser Node := do
  if (← accept .equals).isSome then
    let value ← rule "expression"
    return .assignment kind name value (← spanFrom start)
  let body ← rule "body"
  let span ← spanFrom start
  match kind with
  | .finite => return .finite name body span
  | .pushdown => return .pushdown name tapes body span
  | .turing => return .turing name tapes body span

/-- The names behind a contextual word, if it comes next. -/
def header (word : String) : Parser (List Identifier) := do
  if ← checkWord word then
    let _ ← next
    return identifiersOf (← rule "name_list")
  return []

/-- The declaration of a finite automaton, behind its keyword. -/
def finite (start : Location) : Parser Node := do
  let name ← identifier
  declaration rule .finite name [] start

/-- The declaration of a pushdown automaton, behind its keyword; its stacks may be named. -/
def pushdown (start : Location) : Parser Node := do
  let name ← identifier
  let stackNames ← header rule "stacks"
  declaration rule .pushdown name stackNames start

/-- The declaration of a Turing machine, behind its keyword; its tapes may be named. -/
def turing (start : Location) : Parser Node := do
  let name ← identifier
  let tapes ← header rule "tapes"
  declaration rule .turing name tapes start

/-- The declared start symbol of a grammar, with or without brackets, if there is one. -/
def startSymbol : Parser (Option Identifier) := do
  if ← checkWord "start" then
    let _ ← next
    let token ← withMode .grammar (expect [.identifier, .nonTerminal, .unclosedNonTerminal])
    return some (← nonTerminalName token)
  return none

/-- The declaration of a grammar: its name, its start symbol if one is given, and the body with its
productions. -/
def grammar (start : Location) : Parser Node := do
  let name ← identifier
  let startName ← startSymbol
  let body ← withMode .grammar (rule "grammar_body")
  return .grammar name startName body (← spanFrom start)

/-- One symbol of an alternative, if there is one more. -/
def alternativeItem : Parser (Option Node) := fun s =>
  match s.peek with
  | (.error _, s) => (.ok none, s)
  | (.ok token, s) =>
    (match token.kind with
    | .string | .unterminatedString => some <$> rule "string"
    | .nonTerminal | .unclosedNonTerminal => some <$> rule "non_terminal"
    | _ => pure none : Parser (Option Node)) s

/-- The alternatives from the next token on. Those read so far are in reverse. -/
def alternativesWithin : Nat → List (List Node) → Parser (List (List Node))
  | 0, _ => endless
  | steps + 1, before => do
    let sequence ← collect (alternativeItem rule)
    if (← accept .pipe).isSome then alternativesWithin steps (sequence :: before)
    else return (sequence :: before).reverse

/-- The productions of one head: alternatives between bars, each a sequence of symbols that may be
empty. -/
def production (start : Location) : Parser Node := do
  let head ← nonTerminalName (← expect [.nonTerminal, .unclosedNonTerminal])
  let _ ← expect [.arrow]
  let alternatives ← alternativesWithin rule (← limit) []
  return .production head.name alternatives (← spanFrom start)

/-- The choice of the initial state, behind its keyword. -/
def initial (start : Location) : Parser Node := do
  let state ← identifier
  return .initial state (← spanFrom start)

/-- The choice of final states: one name, or several in brackets. -/
def final (start : Location) : Parser Node := do
  let states := identifiersOf (← rule "name_list")
  return .final states (← spanFrom start)

/-- A line to print, which is written as a string. -/
def print (start : Location) : Parser Node := do
  let message := String.join (stringsOf (← rule "string"))
  return .print message (← spanFrom start)

/-- A test of an automaton: its name, and one input or several in brackets. -/
def test (start : Location) : Parser Node := do
  let automaton ← identifier
  let inputs := stringsOf (← rule "string_list")
  return .test automaton inputs (← spanFrom start)

/-- A transition of a finite automaton: a state, a symbol, an arrow and another state. -/
def finiteTransition (start : Location) : Parser Node := do
  let source ← identifier
  let condition ← rule "condition"
  let _ ← expect [.arrow]
  let target ← identifier
  return .finiteTransition source condition target (← spanFrom start)

/-- The symbols behind a contextual word, if it comes next. -/
def symbolsAfter (word : String) : Parser (Option (List Node)) := do
  if ← checkWord word then
    let _ ← next
    return some (← rule "symbols").items
  return none

/-- A transition of a pushdown automaton, which has to say what it pops or what it pushes. -/
def pushdownTransition (start : Location) : Parser Node := do
  let source ← identifier
  let condition ← rule "condition"
  let pop ← symbolsAfter rule "pop"
  let _ ← expect [.arrow]
  let target ← identifier
  let push ← symbolsAfter rule "push"
  let span ← spanFrom start
  if pop.isNone && push.isNone then throw (.invalid .neitherPopNorPush span)
  return .pushdownTransition source condition (pop.getD []) target (push.getD []) span

/-- A transition of a Turing machine: what is read, what is written, and how the heads move. -/
def turingTransition (start : Location) : Parser Node := do
  let source ← identifier
  let read ← rule "symbols"
  let _ ← expect [.arrow]
  let target ← identifier
  let write ← rule "symbols"
  let shift ← rule "shifts"
  return .turingTransition source read.items target write.items shift.items (← spanFrom start)

end Parser

/-- Reads one leaf whose range begins at `start`. -/
def Leaf.read (rule : String → Parser Node) (start : Location) : Leaf → Parser Node
  | .finite => Parser.finite rule start
  | .pushdown => Parser.pushdown rule start
  | .turing => Parser.turing rule start
  | .grammar => Parser.grammar rule start
  | .production => Parser.production rule start
  | .initial => Parser.initial start
  | .final => Parser.final rule start
  | .print => Parser.print rule start
  | .test => Parser.test rule start
  | .finiteTransition => Parser.finiteTransition rule start
  | .pushdownTransition => Parser.pushdownTransition rule start
  | .turingTransition => Parser.turingTransition rule start
  | .qualifiedSymbol => Parser.qualified rule "condition" start
  | .qualifiedShift => Parser.qualified rule "shift" start
  | .shift => Parser.shift
  | .parenthesized => Parser.parenthesized rule
  | .identifier => Node.identifier <$> Parser.identifier
  | .character => Parser.character
  | .string => Parser.string
  | .nonTerminal => Parser.nonTerminal

end MachineLang

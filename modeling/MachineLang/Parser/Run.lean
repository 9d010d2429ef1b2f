import MachineLang.Parser.Leaf

/-!
# Running grammar rules

`Combinator.read` runs a rule of a table. Rules call each other by name, so nothing in their text
bounds how deep the calls go; the bound is the `depth`, and `RuleTable.parse` allows one that grows
with the source.
-/

namespace MachineLang

namespace Parser

/-- The operator that the next token stands for. -/
def operator? {α : Type} (operators : List (TokenKind × α)) : Parser (Option α) := fun s =>
  match s.peek with
  | (.error _, s) => (.ok none, s)
  | (.ok token, s) => (.ok (operators.lookup token.kind), s)

/-- Skips newlines and semicolons, as many as there are, with one step for each. -/
def skipSeparatorsWithin : Nat → Parser Unit
  | 0 => endless
  | steps + 1 => do
    if ← (do if ← check .newline then return true else check .semicolon) then
      let _ ← next
      skipSeparatorsWithin steps

/-- The next statement, or nothing once the closing token has been read. -/
def statement (closing : TokenKind) (item : Parser Node) : Parser (Option Node) := do
  skipSeparatorsWithin (← limit)
  if ← check closing then
    let _ ← next
    return none
  return some (← item)

/-- Where a sequence of statements begins: at its opening token, if it has one. -/
def opened (opening : Option TokenKind) (start : Location) : Parser Location :=
  match opening with
  | some kind => Token.location <$> expect [kind]
  | none => pure start

/-- A sequence of statements up to the closing token. -/
def statements (opening : Option TokenKind) (closing : TokenKind) (item : Parser Node)
    (start : Location) : Parser Node := do
  let start ← opened opening start
  withSettings (.intercept [.newline, .endOfInput]) do
    let nodes ← collect (statement closing item)
    return .root nodes (← spanFrom start)

/-- The elements from the next token on, up to the first that no separator follows. -/
def elementsWithin (separator : TokenKind) (item : Parser Node) :
    Nat → List Node → Parser (List Node)
  | 0, _ => endless
  | steps + 1, before => do
    let node ← item
    if (← accept separator).isSome then elementsWithin separator item steps (node :: before)
    else return (node :: before).reverse

/-- A sequence in brackets. Line ends are skipped between the brackets, which may stand far
apart. -/
def bracketed (opening closing separator : TokenKind) (item : Parser Node) (start : Location) :
    Parser Node :=
  withSettings (.ignore [.newline]) do
    let _ ← expect [opening]
    let nodes ← if ← check closing then pure [] else do
      elementsWithin separator item (← limit) []
    let _ ← expect [closing]
    return .list nodes (← spanFrom start)

/-- The operators and operands behind a first operand, grouping to the left. -/
def operationsWithin (operators : List (TokenKind × BinaryOp)) (operand : Parser Node)
    (start : Location) : Nat → Node → Parser Node
  | 0, _ => endless
  | steps + 1, left => do
    match ← operator? operators with
    | none => return left
    | some op =>
      let _ ← next
      let right ← operand
      let span ← spanFrom start
      operationsWithin operators operand start steps (.binary op left right span)

/-- The next token of a choice; at the end of the source every branch was expected. -/
def choiceToken (mode : Option LexMode) (kinds : List TokenKind) : Parser Token := do
  tryCatch (withMode? mode peek) fun e =>
    match e with
    | .unexpectedEnd location _ => throw (.unexpectedEnd location kinds)
    | e => throw e

end Parser

namespace Combinator

open MachineLang.Parser

/-- Runs a rule whose range begins at `start`, with calls at most `depth` deep. -/
def read (table : RuleTable) : Nat → Combinator → Location → Parser Node
  | 0, _, _ => endless
  | depth + 1, rule, start =>
    -- Runs the rule of a name from a given place, or from the next token.
    let callFrom (name : String) (start : Location) : Parser Node :=
      match table.find? name with
      | none => throw (.invalid (.unknownRule name) (.point start))
      | some rule => read table depth rule start
    let call (name : String) : Parser Node := do callFrom name (← location)
    match rule with
    | leaf l => l.read call start
    | choose mode branches fallback => do
      let kinds := branches.map Branch.kind
      let token ← choiceToken mode kinds
      match branches.find? fun b => b.kind == token.kind with
      | some branch =>
        withMode? mode do
          if branch.consume then let _ ← next
          callFrom branch.rule token.location
      | none =>
        match fallback with
        | some name => callFrom name token.location
        | none => throw (.unexpectedToken token kinds)
    | alternative rules =>
      oneOf (.invalid .noAlternatives (.point start)) (rules.map fun name => callFrom name start)
    | root name opening closing => statements opening closing (call name) start
    | list element brackets separator => do
      match brackets with
      | some (opening, closing) =>
        if ← check opening then bracketed opening closing separator (call element) start
        else
          let item ← callFrom element start
          return .list [item] item.span
      | none =>
        let item ← callFrom element start
        return .list [item] item.span
    | binary operand operators => do
      let left ← callFrom operand start
      operationsWithin operators (call operand) start (← limit) left
    | unary operand operators => do
      match ← operator? operators with
      | some op =>
        let _ ← next
        let inner ← location
        let node ← read table depth (unary operand operators) inner
        return .unary op node (← spanFrom start)
      | none => callFrom operand start

end Combinator

namespace RuleTable

/-- How deep calls may go: between two tokens no more rules than there are need to be entered. -/
def depthLimit (table : RuleTable) (source : String) : Nat :=
  (2 * table.rules.length + 8) * (source.utf8ByteSize + 2)

/-- Runs the rule of a name from the next token on. -/
def parse (table : RuleTable) (name : String) : Parser Node := do
  let start ← Parser.location
  let s ← get
  match table.find? name with
  | none => throw (.invalid (.unknownRule name) (.point start))
  | some rule => rule.read table (table.depthLimit s.source) start

end RuleTable

end MachineLang

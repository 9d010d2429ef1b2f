import MachineLang.Encoding.Parts

/-!
# Trees from JSON

Nodes are read back from the objects that `Node.toJson` writes: the field `type` names the kind of a
node, and the others hold its parts.
-/

namespace MachineLang

/-- A range from JSON: both of its places have to be readable. -/
def Span.ofJson? (j : Json) : Option Span := do
  match ← j.structure? ["start", "end"] with
  | [some start, some stop] => return ⟨← Location.ofJson? start, ← Location.ofJson? stop⟩
  | _ => none

/-- A name from JSON. -/
def Identifier.ofJson? (j : Json) : Option Identifier := do
  match ← j.structure? ["name", "span"] with
  | [some name, some span] => return ⟨← name.string?, ← Span.ofJson? span⟩
  | _ => none

namespace Node

/-- A field of a node that has to be there. -/
def part? (j : Json) (name : String) : Option Json := j.field? name

/-- A text of a node: the string in the field of the name, if there is one. -/
def text? (j : Json) (name : String) : Option String := do (← part? j name).string?

/-- A name of a node: the object in the field of the name, read as an identifier. -/
def name? (j : Json) (name : String) : Option Identifier := do Identifier.ofJson? (← part? j name)

/-- Names of a node. -/
def names? (j : Json) (name : String) : Option (List Identifier) := do
  (← part? j name).list? Identifier.ofJson?

/-- A choice among the parts of a node. -/
def pick? {α : Type} (ofTag : String → Option α) (j : Json) (name : String) : Option α := do
  (← part? j name).choice? ofTag

/-- A node of a given kind, whose inner nodes are read by `inner`. -/
def ofFields? (inner : Json → Option Node) (kind : NodeKind) (j : Json) : Option Node := do
  let node (name : String) : Option Node := do inner (← part? j name)
  let nodes (name : String) : Option (List Node) := do (← part? j name).list? inner
  let span ← Span.ofJson? (← part? j "span")
  match kind with
  | .root => return .root (← nodes "statements") span
  | .finite => return .finite (← name? j "name") (← node "body") span
  | .pushdown => return .pushdown (← name? j "name") (← names? j "stacks") (← node "body") span
  | .turing => return .turing (← name? j "name") (← names? j "tapes") (← node "body") span
  | .grammar =>
    return .grammar (← name? j "name") (← Json.optional? Identifier.ofJson? (part? j "start"))
      (← node "body") span
  | .assignment =>
    return .assignment (← pick? MachineKind.ofTag? j "kind") (← name? j "name")
      (← node "value") span
  | .list => return .list (← nodes "items") span
  | .identifier => return .identifier ⟨← text? j "name", span⟩
  | .character => return .character (← text? j "value") span
  | .string => return .string (← text? j "value") span
  | .qualified => return .qualified (← name? j "tape") (← node "value") span
  | .shift => return .shift (← pick? Direction.ofTag? j "direction") span
  | .nonTerminal => return .nonTerminal (← text? j "name") span
  | .initial => return .initial (← name? j "state") span
  | .final => return .final (← names? j "states") span
  | .print => return .print (← text? j "message") span
  | .test => return .test (← name? j "automaton") (← (← part? j "inputs").strings?) span
  | .production =>
    return .production (← text? j "head")
      (← (← part? j "alternatives").list? (Json.list? inner)) span
  | .finiteTransition =>
    return .finiteTransition (← name? j "from") (← node "condition") (← name? j "to") span
  | .pushdownTransition =>
    return .pushdownTransition (← name? j "from") (← node "condition") (← nodes "pop")
      (← name? j "to") (← nodes "push") span
  | .turingTransition =>
    return .turingTransition (← name? j "from") (← nodes "read") (← name? j "to") (← nodes "write")
      (← nodes "shift") span
  | .binary => return .binary (← pick? BinaryOp.ofTag? j "op") (← node "left") (← node "right") span
  | .unary => return .unary (← pick? UnaryOp.ofTag? j "op") (← node "operand") span

/-- A node from JSON in which nodes are nested at most `depth` deep. -/
def ofJsonWithin? : Nat → Json → Option Node
  | 0, _ => none
  | depth + 1, j => do ofFields? (ofJsonWithin? depth) (← NodeKind.ofTag? (← text? j "type")) j

end Node

end MachineLang

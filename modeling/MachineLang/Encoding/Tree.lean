import MachineLang.Json.Value
import MachineLang.Token.Basic
import MachineLang.Tree.Node

/-!
# Trees and tokens as JSON

Every structure becomes an object with one field per component, in order; a node names its kind in
a first field `type`.
-/

namespace MachineLang

/-- A place as JSON: its offset in bytes, its line and its column. -/
def Location.toJson (l : Location) : Json :=
  .object [("offset", .nat l.offset), ("line", .nat l.line), ("column", .nat l.column)]

/-- A range as JSON: the place where it begins and the place where it ends. -/
def Span.toJson (s : Span) : Json :=
  .object [("start", s.start.toJson), ("end", s.stop.toJson)]

/-- The fields of a token. -/
def Token.fields (t : Token) : List (String × Json) :=
  [("kind", .string t.kind.tag), ("value", .string t.value), ("location", t.location.toJson),
   ("end", t.stop.toJson)]

/-- A token as JSON: the object of its fields. -/
def Token.toJson (t : Token) : Json := .object t.fields

/-- The fields of a name. -/
def Identifier.fields (i : Identifier) : List (String × Json) :=
  [("name", .string i.name), ("span", i.span.toJson)]

/-- A name as JSON: the object of its text and of the range where it stands. -/
def Identifier.toJson (i : Identifier) : Json := .object i.fields

/-- Several names as JSON: an array of their objects, in order. -/
def Identifier.listToJson (names : List Identifier) : Json := .array (names.map Identifier.toJson)

namespace Node

mutual

/-- A node as JSON: its type, its parts under their names, and its range at the end. -/
def toJson : Node → Json
  | .root statements span =>
    .object [("type", .string "Root"), ("statements", .array (listToJson statements)),
      ("span", span.toJson)]
  | .finite name body span =>
    .object [("type", .string "Finite"), ("name", name.toJson), ("body", body.toJson),
      ("span", span.toJson)]
  | .pushdown name stackNames body span =>
    .object [("type", .string "Pushdown"), ("name", name.toJson),
      ("stacks", Identifier.listToJson stackNames), ("body", body.toJson), ("span", span.toJson)]
  | .turing name tapes body span =>
    .object [("type", .string "Turing"), ("name", name.toJson),
      ("tapes", Identifier.listToJson tapes), ("body", body.toJson), ("span", span.toJson)]
  | .grammar name start body span =>
    .object [("type", .string "Grammar"), ("name", name.toJson),
      ("start", (start.map Identifier.toJson).getD .null), ("body", body.toJson),
      ("span", span.toJson)]
  | .assignment kind name value span =>
    .object [("type", .string "Assignment"), ("kind", .string kind.tag), ("name", name.toJson),
      ("value", value.toJson), ("span", span.toJson)]
  | .list items span =>
    .object [("type", .string "List"), ("items", .array (listToJson items)),
      ("span", span.toJson)]
  | .identifier id => .object (("type", .string "Identifier") :: id.fields)
  | .character value span =>
    .object [("type", .string "Character"), ("value", .string value), ("span", span.toJson)]
  | .string value span =>
    .object [("type", .string "Str"), ("value", .string value), ("span", span.toJson)]
  | .qualified tape value span =>
    .object [("type", .string "Qualified"), ("tape", tape.toJson), ("value", value.toJson),
      ("span", span.toJson)]
  | .shift direction span =>
    .object [("type", .string "Shift"), ("direction", .string direction.tag),
      ("span", span.toJson)]
  | .nonTerminal name span =>
    .object [("type", .string "NonTerminal"), ("name", .string name), ("span", span.toJson)]
  | .initial state span =>
    .object [("type", .string "Initial"), ("state", state.toJson), ("span", span.toJson)]
  | .final states span =>
    .object [("type", .string "Final"), ("states", Identifier.listToJson states),
      ("span", span.toJson)]
  | .print message span =>
    .object [("type", .string "Print"), ("message", .string message), ("span", span.toJson)]
  | .test automaton inputs span =>
    .object [("type", .string "Test"), ("automaton", automaton.toJson),
      ("inputs", .strings inputs), ("span", span.toJson)]
  | .production head alternatives span =>
    .object [("type", .string "Production"), ("head", .string head),
      ("alternatives", .array (alternativesToJson alternatives)), ("span", span.toJson)]
  | .finiteTransition source condition target span =>
    .object [("type", .string "FiniteTransition"), ("from", source.toJson),
      ("condition", condition.toJson), ("to", target.toJson), ("span", span.toJson)]
  | .pushdownTransition source condition pop target push span =>
    .object [("type", .string "PushdownTransition"), ("from", source.toJson),
      ("condition", condition.toJson), ("pop", .array (listToJson pop)), ("to", target.toJson),
      ("push", .array (listToJson push)), ("span", span.toJson)]
  | .turingTransition source read target write moves span =>
    .object [("type", .string "TuringTransition"), ("from", source.toJson),
      ("read", .array (listToJson read)), ("to", target.toJson),
      ("write", .array (listToJson write)), ("shift", .array (listToJson moves)),
      ("span", span.toJson)]
  | .binary op left right span =>
    .object [("type", .string "Binary"), ("op", .string op.tag), ("left", left.toJson),
      ("right", right.toJson), ("span", span.toJson)]
  | .unary op operand span =>
    .object [("type", .string "Unary"), ("op", .string op.tag), ("operand", operand.toJson),
      ("span", span.toJson)]

/-- Several nodes as JSON, in order. Nodes and lists of nodes are encoded by one recursion. -/
def listToJson : List Node → List Json
  | [] => []
  | node :: nodes => node.toJson :: listToJson nodes

/-- Several sequences of nodes as JSON. -/
def alternativesToJson : List (List Node) → List Json
  | [] => []
  | nodes :: rest => .array (listToJson nodes) :: alternativesToJson rest

end

end Node

end MachineLang

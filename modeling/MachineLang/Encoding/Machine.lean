import MachineLang.Encoding.Tree
import MachineLang.Evaluation.Basic
import MachineLang.Json.Printer
import MachineLang.Machine.Graph
import MachineLang.Machine.Numbering

/-!
# Machines and results as JSON

Machines are encoded as their definitions. A `Tagged` value is one that stands on its own, and names
its sort in a first field `type`.
-/

namespace MachineLang

/-- A word as JSON, which is a string of its characters. -/
def Json.word (w : Word) : Json := .string (.ofList w)

/-- Several words as JSON: an array with a string for each, in order. -/
def Json.words (ws : List Word) : Json := .array (ws.map Json.word)

/-- The fields of a stack action. -/
def StackAction.toJson (a : StackAction) : Json := .object [("push", .words a.push)]

/-- A tape action as JSON: what is written and how the heads move, tape by tape. -/
def TapeAction.toJson (a : TapeAction) : Json :=
  .object [("write", .words a.write), ("shift", .strings (a.shift.map Direction.tag))]

/-- What a transition does as JSON; one of a finite automaton does nothing besides reading. -/
def actionToJson : (k : MachineKind) → Action k → Json
  | .finite, _ => .null
  | .pushdown, (a : StackAction) => a.toJson
  | .turing, (a : TapeAction) => a.toJson

/-- A transition as JSON, under the names of its parts; its action is written as its kind has it. -/
def Transition.toJson {k : MachineKind} (t : Transition k) : Json :=
  .object [("from", .string t.source), ("read", .words t.read), ("to", .string t.target),
    ("payload", actionToJson k t.action)]

/-- The fields of a definition. Sets are written as arrays in increasing order. -/
def Definition.fields {k : MachineKind} (d : Definition k) : List (String × Json) :=
  [("transitions", .array (d.transitions.map Transition.toJson)), ("initial", .string d.initial),
   ("finals", .strings d.finals.toList), ("tapes", .strings d.tapes),
   ("states", .strings d.states.toList), ("alphabet", .words d.alphabet.toList),
   ("bounded", .bool d.bounded)]

/-- A symbol of a production as JSON. -/
def GrammarSymbol.toJson : GrammarSymbol → Json
  | terminal text => .object [("Terminal", .string text)]
  | nonTerminal name => .object [("NonTerminal", .string name)]

/-- A production as JSON: its head, and the symbols of its body in order. -/
def Production.toJson (p : Production) : Json :=
  .object [("head", .string p.head), ("body", .array (p.body.map GrammarSymbol.toJson))]

/-- The fields of a grammar. -/
def Grammar.fields (g : Grammar) : List (String × Json) :=
  [("start", .string g.start), ("productions", .array (g.productions.map Production.toJson))]

/-- A tape as JSON: all its cells, the place of its head, its blank and whether it is bounded. -/
def Tape.toJson (t : Tape) : Json :=
  .object [("cells", .array (t.cells.map fun c => .string c.toString)), ("head", .nat t.head),
    ("blank", .string t.blank.toString), ("bounded", .bool t.bounded)]

/-- The fields of a configuration. -/
def Configuration.fields (c : Configuration) : List (String × Json) :=
  [("state", .string c.state), ("accepted", .bool c.accepted),
   ("tapes", .array (c.tapes.map Tape.toJson))]

/-- A verdict as JSON: a truth value, or null if the test was stopped at its limit. -/
def verdictToJson (accepted : Option Bool) : Json := (accepted.map Json.bool).getD .null

/-- The fields of an outcome. -/
def TestOutcome.fields (o : TestOutcome) : List (String × Json) :=
  [("automaton", .string o.automaton), ("input", .string o.input),
   ("accepted", verdictToJson o.accepted)]

/-- A node of a graph as JSON. -/
def GraphNode.toJson (n : GraphNode) : Json :=
  .object [("id", .string n.id), ("initial", .bool n.initial), ("accepting", .bool n.accepting)]

/-- An edge as JSON. -/
def GraphEdge.toJson (e : GraphEdge) : Json :=
  .object [("from", .string e.source), ("to", .string e.target), ("labels", .strings e.labels)]

/-- The fields of a graph. -/
def Graph.fields (g : Graph) : List (String × Json) :=
  [("nodes", .array (g.nodes.map GraphNode.toJson)),
    ("edges", .array (g.edges.map GraphEdge.toJson))]

/-- A graph as JSON: the object of its fields. -/
def Graph.toJson (g : Graph) : Json := .object g.fields

/-- A numbered state as JSON. -/
def NumberedState.toJson (s : NumberedState) : Json :=
  .object [("id", .nat s.id), ("name", .string s.name), ("initial", .bool s.initial),
    ("final", .bool s.accepting)]

/-- A step on one tape as JSON. -/
def TapeStep.toJson (s : TapeStep) : Json :=
  .object [("read", .word s.read), ("write", .word s.write),
    ("shift", .string s.shift.letter.toString)]

/-- A transition between numbered states as JSON. -/
def NumberedTransition.toJson (t : NumberedTransition) : Json :=
  .object [("from", .nat t.source), ("to", .nat t.target),
    ("tapes", .array (t.tapes.map TapeStep.toJson))]

/-- A machine with numbered states as JSON. -/
def NumberedMachine.toJson (m : NumberedMachine) : Json :=
  .object [("tapes", .nat m.tapes), ("states", .array (m.states.map NumberedState.toJson)),
    ("transitions", .array (m.transitions.map NumberedTransition.toJson))]

/-- A value that is encoded on its own. -/
inductive Tagged
  /-- A machine or a grammar. -/
  | automaton (a : Automaton)
  /-- A token. -/
  | token (t : Token)
  /-- A point of a computation. -/
  | configuration (c : Configuration)
  /-- The outcome of a test. -/
  | outcome (o : TestOutcome)
  /-- A machine as a graph. -/
  | graph (g : Graph)
deriving DecidableEq, Repr

/-- The sort of an encoded value, which stands with it so that a reader knows what to expect. -/
inductive TaggedSort
  | machine (kind : MachineKind)
  | grammar
  | token
  | configuration
  | outcome
  | graph
deriving DecidableEq, Repr

namespace TaggedSort

/-- All sorts of values that are encoded, in the order in which a sort is looked up by its tag. -/
def all : List TaggedSort :=
  [machine .finite, machine .pushdown, machine .turing, grammar, token, configuration,
    outcome, graph]

/-- The sort as written in encoded values. -/
def tag : TaggedSort → String
  | machine .finite => "FiniteAutomaton"
  | machine .pushdown => "PushdownAutomaton"
  | machine .turing => "TuringMachine"
  | grammar => "Grammar"
  | token => "Token"
  | configuration => "Configuration"
  | outcome => "TestOutcome"
  | graph => "Graph"

/-- The sort with a given tag. -/
def ofTag? (tag : String) : Option TaggedSort := all.find? fun sort => sort.tag == tag

end TaggedSort

namespace Tagged

/-- The sort of a value. -/
def sort : Tagged → TaggedSort
  | automaton (@Automaton.machine kind _) => .machine kind
  | automaton (.grammar _) => .grammar
  | token _ => .token
  | configuration _ => .configuration
  | outcome _ => .outcome
  | graph _ => .graph

/-- The fields of a value, without its sort. -/
def fields : Tagged → List (String × Json)
  | automaton (.machine m) => m.definition.fields
  | automaton (.grammar g) => g.fields
  | token t => t.fields
  | configuration c => c.fields
  | outcome o => o.fields
  | graph g => g.fields

/-- The value as JSON: an object whose first field tells its sort, with the fields of the value
behind it. -/
def toJson (value : Tagged) : Json := .object (("type", .string value.sort.tag) :: value.fields)

/-- The value as text: its JSON without any spacing. -/
def encode (value : Tagged) : String := value.toJson.compact

end Tagged

end MachineLang

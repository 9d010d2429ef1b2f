import MachineLang.Automaton.Basic

/-!
# Machines as graphs

The graph of a machine has its states as nodes. All transitions from one state to another are one
edge, which carries a label for each of them.
-/

namespace MachineLang

/-- A state in a graph, marked if it is the initial one or a final one. -/
structure GraphNode where
  /-- The state. -/
  id : State
  /-- Whether computations begin there. -/
  initial : Bool
  /-- Whether the state is final. -/
  accepting : Bool
deriving DecidableEq, Repr

/-- All transitions from one state to another, as one edge with a label for each of them. -/
structure GraphEdge where
  /-- The state they leave. -/
  source : State
  /-- The state they enter. -/
  target : State
  /-- A label for each. -/
  labels : List String
deriving DecidableEq, Repr

/-- A machine as a graph: a node for each state and an edge for each pair of states with transitions
between them. -/
structure Graph where
  /-- The states. -/
  nodes : List GraphNode
  /-- The transitions. -/
  edges : List GraphEdge
deriving DecidableEq, Repr

/-- A symbol as written in a program. -/
def symbolText (symbol : Symbol) : String :=
  if symbol = epsilon then "$eps" else if symbol = blank then "$blank" else .ofList symbol

/-- One text, or any other number of texts as a list in brackets. -/
def bracketText : List String → String
  | [text] => text
  | texts => "[" ++ String.intercalate ", " texts ++ "]"

/-- Symbols as written in a program. -/
def symbolsText (symbols : List Symbol) : String := bracketText (symbols.map symbolText)

/-- What a pushdown transition pops or pushes, if there is anything. -/
def stackText (action : String) (symbols : List Symbol) : String :=
  if symbols.all (· == epsilon) then "" else " " ++ action ++ " " ++ symbolsText symbols

/-- What a transition reads and does, as written on an edge. -/
def edgeLabel : (k : MachineKind) → List Symbol → Action k → String
  | .finite, read, _ => symbolsText read
  | .pushdown, read, (a : StackAction) =>
    symbolText (read.headD epsilon) ++ stackText "pop" (read.drop 1) ++ stackText "push" a.push
  | .turing, read, (a : TapeAction) =>
    symbolsText read ++ " / " ++ symbolsText a.write ++ " " ++
      bracketText (a.shift.map fun direction => direction.toChar.toString)

/-- The graph of a machine. Transitions between the same states share an edge, with a label for
each. -/
def Machine.graph {k : MachineKind} (m : Machine k) : Graph where
  nodes := m.states.toList.map fun state =>
    ⟨state, decide (state = m.initial), m.finals.contains state⟩
  edges :=
    let merged : SortedMap State (SortedMap State (List String)) := m.transitions.foldl
      (fun merged t => merged.update t.source fun byTarget =>
        (byTarget.getD .empty).update t.target fun labels =>
          labels.getD [] ++ [edgeLabel k t.read t.action]) .empty
    merged.entries.flatMap fun (source, byTarget) =>
      byTarget.entries.map fun (target, labels) => ⟨source, target, labels⟩

/-- The graph of an automaton; a grammar has none. -/
def Automaton.graph? : Automaton → Option Graph
  | .machine m => some m.graph
  | .grammar _ => none

/-- The node of a state, found by its name. -/
def Graph.node? (g : Graph) (id : State) : Option GraphNode :=
  g.nodes.find? fun node => node.id == id

end MachineLang

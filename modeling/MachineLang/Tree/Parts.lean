import MachineLang.Tree.Node

/-!
# The parts of a tree

The nodes and names that a node is made of, and the nodes that a tree contains.
-/

namespace MachineLang.Node

/-- The nodes directly below a node, in order. -/
def children : Node → List Node
  | .root statements _ => statements
  | .finite _ body _ => [body]
  | .pushdown _ _ body _ => [body]
  | .turing _ _ body _ => [body]
  | .grammar _ _ body _ => [body]
  | .assignment _ _ value _ => [value]
  | .list items _ => items
  | .qualified _ value _ => [value]
  | .production _ alternatives _ => alternatives.flatten
  | .finiteTransition _ condition _ _ => [condition]
  | .pushdownTransition _ condition pop _ push _ => condition :: (pop ++ push)
  | .turingTransition _ read _ write moves _ => read ++ (write ++ moves)
  | .binary _ left right _ => [left, right]
  | .unary _ operand _ => [operand]
  | _ => []

/-- The names that are written in a node itself. -/
def names : Node → List Identifier
  | .finite name _ _ => [name]
  | .pushdown name stackNames _ _ => name :: stackNames
  | .turing name tapes _ _ => name :: tapes
  | .grammar name start _ _ => name :: start.toList
  | .assignment _ name _ _ => [name]
  | .identifier id => [id]
  | .qualified tape _ _ => [tape]
  | .initial state _ => [state]
  | .final states _ => states
  | .test automaton _ _ => [automaton]
  | .finiteTransition source _ target _ => [source, target]
  | .pushdownTransition source _ _ target _ _ => [source, target]
  | .turingTransition source _ target _ _ _ => [source, target]
  | _ => []

/-- The statements of a sequence of statements. -/
def statements : Node → List Node
  | .root statements _ => statements
  | _ => []

/-- The nodes of a tree: the node itself, and those of the trees below it. -/
inductive Contains : Node → Node → Prop
  /-- The node itself. -/
  | self (n : Node) : Contains n n
  /-- A node of a tree below it. -/
  | inside {n child d : Node} (hchild : child ∈ n.children) (h : Contains child d) : Contains n d

end MachineLang.Node

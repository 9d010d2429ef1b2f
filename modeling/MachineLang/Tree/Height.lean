import MachineLang.Tree.Node

/-!
# The height of a tree

The number of nodes on the longest way down a tree, which bounds how deep a walk over it nests.
-/

namespace MachineLang.Node

mutual

/-- The number of nodes on the longest way down from a node. -/
def height : Node → Nat
  | .root statements _ => heightOfList statements + 1
  | .finite _ body _ => body.height + 1
  | .pushdown _ _ body _ => body.height + 1
  | .turing _ _ body _ => body.height + 1
  | .grammar _ _ body _ => body.height + 1
  | .assignment _ _ value _ => value.height + 1
  | .list items _ => heightOfList items + 1
  | .qualified _ value _ => value.height + 1
  | .production _ alternatives _ => heightOfLists alternatives + 1
  | .finiteTransition _ condition _ _ => condition.height + 1
  | .pushdownTransition _ condition pop _ push _ =>
    max condition.height (max (heightOfList pop) (heightOfList push)) + 1
  | .turingTransition _ read _ write moves _ =>
    max (heightOfList read) (max (heightOfList write) (heightOfList moves)) + 1
  | .binary _ left right _ => max left.height right.height + 1
  | .unary _ operand _ => operand.height + 1
  | _ => 1

/-- The number of nodes on the longest way down from a node of a list. -/
def heightOfList : List Node → Nat
  | [] => 0
  | node :: nodes => max node.height (heightOfList nodes)

/-- The number of nodes on the longest way down from a node of some lists. -/
def heightOfLists : List (List Node) → Nat
  | [] => 0
  | nodes :: rest => max (heightOfList nodes) (heightOfLists rest)

end

end MachineLang.Node

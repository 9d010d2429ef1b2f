import MachineLang.Tree.Node

/-!
# Trees without places

A tree with all its places forgotten. Two trees with the same bare tree say the same, read from
different places.
-/

namespace MachineLang

/-- The name alone, with a range that stands for none. -/
def Identifier.bare (id : Identifier) : Identifier := ⟨id.name, .invalid⟩

namespace Node

mutual

/-- The tree without its places: every range in it stands for none. -/
def bare : Node → Node
  | .root statements _ => .root (bareList statements) .invalid
  | .finite name body _ => .finite name.bare body.bare .invalid
  | .pushdown name stackNames body _ =>
    .pushdown name.bare (stackNames.map Identifier.bare) body.bare .invalid
  | .turing name tapes body _ => .turing name.bare (tapes.map Identifier.bare) body.bare .invalid
  | .grammar name start body _ => .grammar name.bare (start.map Identifier.bare) body.bare .invalid
  | .assignment kind name value _ => .assignment kind name.bare value.bare .invalid
  | .list items _ => .list (bareList items) .invalid
  | .identifier id => .identifier id.bare
  | .character value _ => .character value .invalid
  | .string value _ => .string value .invalid
  | .qualified tape value _ => .qualified tape.bare value.bare .invalid
  | .shift direction _ => .shift direction .invalid
  | .nonTerminal name _ => .nonTerminal name .invalid
  | .initial state _ => .initial state.bare .invalid
  | .final states _ => .final (states.map Identifier.bare) .invalid
  | .print message _ => .print message .invalid
  | .test automaton inputs _ => .test automaton.bare inputs .invalid
  | .production head alternatives _ => .production head (bareLists alternatives) .invalid
  | .finiteTransition source condition target _ =>
    .finiteTransition source.bare condition.bare target.bare .invalid
  | .pushdownTransition source condition pop target push _ =>
    .pushdownTransition source.bare condition.bare (bareList pop) target.bare
      (bareList push) .invalid
  | .turingTransition source read target write moves _ =>
    .turingTransition source.bare (bareList read) target.bare (bareList write)
      (bareList moves) .invalid
  | .binary op left right _ => .binary op left.bare right.bare .invalid
  | .unary op operand _ => .unary op operand.bare .invalid

/-- The trees without their places, for the lists in a tree. -/
def bareList : List Node → List Node
  | [] => []
  | node :: nodes => node.bare :: bareList nodes

/-- The alternatives of a production without their places. -/
def bareLists : List (List Node) → List (List Node)
  | [] => []
  | nodes :: rest => bareList nodes :: bareLists rest

end

/-- Each tree of a list loses its places. -/
theorem bareList_eq_map (nodes : List Node) : bareList nodes = nodes.map bare := by
  induction nodes with
  | nil => rfl
  | cons node nodes ih => rw [bareList, ih, List.map_cons]

end Node

end MachineLang

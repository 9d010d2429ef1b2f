import MachineLang.Text.Location

/-!
# The syntax tree

The tree of a program, with the range of the source that each node was read from. The same type
covers statements, expressions and the symbols of transitions; `Node.kind` tells them apart.
-/

namespace MachineLang

/-- The three kinds of machines, which differ in what a transition does with the tapes. -/
inductive MachineKind
  | finite
  | pushdown
  | turing
deriving DecidableEq, Repr, Inhabited

namespace MachineKind

/-- The kind as named in messages. -/
def name : MachineKind → String
  | finite => "finite automaton"
  | pushdown => "pushdown automaton"
  | turing => "turing machine"

/-- The kind as written in encoded values. -/
def tag : MachineKind → String
  | finite => "Finite"
  | pushdown => "Pushdown"
  | turing => "Turing"

/-- The kind with a given tag. -/
def ofTag? (tag : String) : Option MachineKind :=
  [finite, pushdown, turing].find? fun kind => kind.tag == tag

end MachineKind

/-- Where a head moves when a transition is taken. -/
inductive Direction
  /-- One cell to the left. -/
  | left
  /-- One cell to the right. -/
  | right
  /-- Nowhere. -/
  | stay
deriving DecidableEq, Repr, Inhabited

namespace Direction

/-- The direction that a character stands for: an arrow head, a dash, or an initial. -/
def ofChar? : Char → Option Direction
  | '<' => some left
  | 'L' => some left
  | '>' => some right
  | 'R' => some right
  | '-' => some stay
  | 'S' => some stay
  | _ => none

/-- The direction as written in a program. -/
def toChar : Direction → Char
  | left => '<'
  | right => '>'
  | stay => '-'

/-- The number of cells to the right that a head moves. -/
def offset : Direction → Int
  | left => -1
  | right => 1
  | stay => 0

/-- The direction as written in encoded values. -/
def tag : Direction → String
  | left => "Left"
  | right => "Right"
  | stay => "Stay"

/-- The direction with a given tag. -/
def ofTag? (tag : String) : Option Direction :=
  [left, right, stay].find? fun d => d.tag == tag

/-- A direction is read back from how it is written. -/
theorem ofChar?_toChar (d : Direction) : ofChar? d.toChar = some d := by cases d <;> rfl

end Direction

/-- The operators between two automata, as they are written in an expression. -/
inductive BinaryOp
  | union
  | intersection
  | concatenate
deriving DecidableEq, Repr, Inhabited

namespace BinaryOp

/-- The operator as written in a program. -/
def name : BinaryOp → String
  | union => "union"
  | intersection => "intersection"
  | concatenate => "concatenate"

/-- The operator as written in encoded values. -/
def tag : BinaryOp → String
  | union => "Union"
  | intersection => "Intersection"
  | concatenate => "Concatenate"

/-- The operator with a given tag. -/
def ofTag? (tag : String) : Option BinaryOp :=
  [union, intersection, concatenate].find? fun op => op.tag == tag

end BinaryOp

/-- The operators on one automaton, as they are written in an expression. -/
inductive UnaryOp
  | complement
  | determinize
  | reenumerate
  | star
  | reverse
deriving DecidableEq, Repr, Inhabited

namespace UnaryOp

/-- The operator as written in a program. -/
def name : UnaryOp → String
  | complement => "complement"
  | determinize => "determinize"
  | reenumerate => "reenumerate"
  | star => "star"
  | reverse => "reverse"

/-- The operator as written in encoded values. -/
def tag : UnaryOp → String
  | complement => "Complement"
  | determinize => "Determinize"
  | reenumerate => "Reenumerate"
  | star => "Star"
  | reverse => "Reverse"

/-- The operator with a given tag. -/
def ofTag? (tag : String) : Option UnaryOp :=
  [complement, determinize, reenumerate, star, reverse].find? fun op => op.tag == tag

end UnaryOp

/-- A name and where it is written, so that an error can point at it. -/
structure Identifier where
  /-- The name. -/
  name : String
  /-- Where it is written. -/
  span : Span
deriving DecidableEq, Repr, Inhabited

/-- A node of the syntax tree, with its parts and the range of the source that it was read from. -/
inductive Node
  /-- A sequence of statements: a whole program or the body of a declaration. -/
  | root (statements : List Node) (span : Span)
  /-- The declaration of a finite automaton. -/
  | finite (name : Identifier) (body : Node) (span : Span)
  /-- The declaration of a pushdown automaton; without stack names it has one stack. -/
  | pushdown (name : Identifier) (stackNames : List Identifier) (body : Node) (span : Span)
  /-- The declaration of a Turing machine; without tape names it has one tape. -/
  | turing (name : Identifier) (tapes : List Identifier) (body : Node) (span : Span)
  /-- The declaration of a grammar. -/
  | grammar (name : Identifier) (start : Option Identifier) (body : Node) (span : Span)
  /-- A declaration by an expression. -/
  | assignment (kind : MachineKind) (name : Identifier) (value : Node) (span : Span)
  /-- A sequence in brackets, or a single item without them. -/
  | list (items : List Node) (span : Span)
  /-- A name. -/
  | identifier (id : Identifier)
  /-- A symbol written as a character; its escapes are resolved. -/
  | character (value : String) (span : Span)
  /-- A string; its escapes are resolved. -/
  | string (value : String) (span : Span)
  /-- A symbol or a shift for the tape of a given name. -/
  | qualified (tape : Identifier) (value : Node) (span : Span)
  /-- A movement of a head. -/
  | shift (direction : Direction) (span : Span)
  /-- A reference to a non-terminal. -/
  | nonTerminal (name : String) (span : Span)
  /-- The choice of the initial state. -/
  | initial (state : Identifier) (span : Span)
  /-- The choice of final states. -/
  | final (states : List Identifier) (span : Span)
  /-- A line to print. -/
  | print (message : String) (span : Span)
  /-- A test of an automaton on some inputs. -/
  | test (automaton : Identifier) (inputs : List String) (span : Span)
  /-- The productions of one head, one per alternative. -/
  | production (head : String) (alternatives : List (List Node)) (span : Span)
  /-- A transition of a finite automaton. -/
  | finiteTransition (source : Identifier) (condition : Node) (target : Identifier) (span : Span)
  /-- A transition of a pushdown automaton. -/
  | pushdownTransition (source : Identifier) (condition : Node) (pop : List Node)
      (target : Identifier) (push : List Node) (span : Span)
  /-- A transition of a Turing machine. -/
  | turingTransition (source : Identifier) (read : List Node) (target : Identifier)
      (write : List Node) (shift : List Node) (span : Span)
  /-- Two automata combined. -/
  | binary (op : BinaryOp) (left right : Node) (span : Span)
  /-- An automaton changed. -/
  | unary (op : UnaryOp) (operand : Node) (span : Span)
deriving Repr, Inhabited

/-- The kind of a node, by which its handler is found. -/
inductive NodeKind
  | root
  | finite
  | pushdown
  | turing
  | grammar
  | assignment
  | list
  | identifier
  | character
  | string
  | qualified
  | shift
  | nonTerminal
  | initial
  | final
  | print
  | test
  | production
  | finiteTransition
  | pushdownTransition
  | turingTransition
  | binary
  | unary
deriving DecidableEq, Repr, Inhabited

namespace NodeKind

/-- Every kind, in the order of declaration. -/
def all : List NodeKind :=
  [.root, .finite, .pushdown, .turing, .grammar, .assignment, .list, .identifier, .character,
   .string, .qualified, .shift, .nonTerminal, .initial, .final, .print, .test, .production,
   .finiteTransition, .pushdownTransition, .turingTransition, .binary, .unary]

/-- The kind as written in messages and in encoded values. -/
def tag : NodeKind → String
  | .root => "Root"
  | .finite => "Finite"
  | .pushdown => "Pushdown"
  | .turing => "Turing"
  | .grammar => "Grammar"
  | .assignment => "Assignment"
  | .list => "List"
  | .identifier => "Identifier"
  | .character => "Character"
  | .string => "Str"
  | .qualified => "Qualified"
  | .shift => "Shift"
  | .nonTerminal => "NonTerminal"
  | .initial => "Initial"
  | .final => "Final"
  | .print => "Print"
  | .test => "Test"
  | .production => "Production"
  | .finiteTransition => "FiniteTransition"
  | .pushdownTransition => "PushdownTransition"
  | .turingTransition => "TuringTransition"
  | .binary => "Binary"
  | .unary => "Unary"

/-- The kind with a given tag. -/
def ofTag? (tag : String) : Option NodeKind := all.find? fun kind => kind.tag == tag

end NodeKind

namespace Node

/-- The kind of a node, without anything that the node holds. -/
def kind : Node → NodeKind
  | .root .. => .root
  | .finite .. => .finite
  | .pushdown .. => .pushdown
  | .turing .. => .turing
  | .grammar .. => .grammar
  | .assignment .. => .assignment
  | .list .. => .list
  | .identifier .. => .identifier
  | .character .. => .character
  | .string .. => .string
  | .qualified .. => .qualified
  | .shift .. => .shift
  | .nonTerminal .. => .nonTerminal
  | .initial .. => .initial
  | .final .. => .final
  | .print .. => .print
  | .test .. => .test
  | .production .. => .production
  | .finiteTransition .. => .finiteTransition
  | .pushdownTransition .. => .pushdownTransition
  | .turingTransition .. => .turingTransition
  | .binary .. => .binary
  | .unary .. => .unary

/-- The range of the source that a node was read from. -/
def span : Node → Span
  | .root _ span => span
  | .finite _ _ span => span
  | .pushdown _ _ _ span => span
  | .turing _ _ _ span => span
  | .grammar _ _ _ span => span
  | .assignment _ _ _ span => span
  | .list _ span => span
  | .identifier id => id.span
  | .character _ span => span
  | .string _ span => span
  | .qualified _ _ span => span
  | .shift _ span => span
  | .nonTerminal _ span => span
  | .initial _ span => span
  | .final _ span => span
  | .print _ span => span
  | .test _ _ span => span
  | .production _ _ span => span
  | .finiteTransition _ _ _ span => span
  | .pushdownTransition _ _ _ _ _ span => span
  | .turingTransition _ _ _ _ _ span => span
  | .binary _ _ _ span => span
  | .unary _ _ span => span

/-- The items of a list; any other node is its own only item. -/
def items : Node → List Node
  | .list items _ => items
  | node => [node]

/-- The name, if the node is one. -/
def identifier? : Node → Option Identifier
  | .identifier id => some id
  | _ => none

/-- The text, if the node is a string. -/
def string? : Node → Option String
  | .string value _ => some value
  | _ => none

end Node

end MachineLang

import MachineLang.Tree.Node
import MachineLang.Parser.Basic

/-!
# Grammar rules

The rules of a grammar are named, and refer to each other by name, so that they can be registered in
any order and call each other in circles. A rule is a `Combinator`: a way of putting other rules
together, or one of the leaves of the language.
-/

namespace MachineLang

/-- A rule that reads its own tokens and builds one node. -/
inductive Leaf
  | finite
  | pushdown
  | turing
  | grammar
  | production
  | initial
  | final
  | print
  | test
  | finiteTransition
  | pushdownTransition
  | turingTransition
  | qualifiedSymbol
  | qualifiedShift
  | shift
  | parenthesized
  | identifier
  | character
  | string
  | nonTerminal
deriving DecidableEq, Repr

/-- One way to go on from a choice. -/
structure Branch where
  /-- The kind of the next token that selects the branch. -/
  kind : TokenKind
  /-- The rule to go on with. -/
  rule : String
  /-- Whether the selecting token is read before the rule runs. -/
  consume : Bool := false
deriving DecidableEq, Repr

/-- A grammar rule as data: what is read, and by which other rules, which are called by their
names. -/
inductive Combinator
  /-- One of the leaves of the language. -/
  | leaf (leaf : Leaf)
  /-- Goes on by the kind of the next token, which is read under `mode`. -/
  | choose (mode : Option LexMode) (branches : List Branch) (fallback : Option String)
  /-- The first rule that succeeds. -/
  | alternative (rules : List String)
  /-- Statements up to `closing`, separated by newlines or semicolons if at all. -/
  | root (statement : String) (opening : Option TokenKind) (closing : TokenKind)
  /-- A bracketed, separated sequence, or one bare element. -/
  | list (element : String) (brackets : Option (TokenKind × TokenKind)) (separator : TokenKind)
  /-- Operators between operands, grouping to the left. -/
  | binary (operand : String) (operators : List (TokenKind × BinaryOp))
  /-- Operators in front of an operand. -/
  | unary (operand : String) (operators : List (TokenKind × UnaryOp))
deriving DecidableEq, Repr

/-- The rules of a grammar by name. A later rule hides an earlier one of its name. -/
structure RuleTable where
  /-- The rules, the latest first. -/
  rules : List (String × Combinator)
deriving DecidableEq, Repr

namespace RuleTable

/-- The table without rules, in which every name is unknown. -/
def empty : RuleTable := ⟨[]⟩

/-- Adds a rule under a name; a rule that was there under the name gives way to it. -/
def register (table : RuleTable) (name : String) (rule : Combinator) : RuleTable :=
  ⟨(name, rule) :: table.rules⟩

/-- The rule of a name, which is the last one that was added under it. -/
def find? (table : RuleTable) (name : String) : Option Combinator := table.rules.lookup name

/-- Whether there is a rule of a name. -/
def contains (table : RuleTable) (name : String) : Bool := (table.find? name).isSome

end RuleTable

end MachineLang

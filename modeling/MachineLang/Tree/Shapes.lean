import MachineLang.Tree.Node

/-!
# Shapes of trees

Which nodes stand where in the tree of a program. A name in a program has no spaces in it; a
sequence of statements is a node of its own, and the productions of a grammar stand in another one.
-/

namespace MachineLang

/-- The name has no space in it. -/
def PlainName (name : String) : Prop := ' ' ∉ name.toList

namespace Node

/-- What is read, popped or pushed on one tape. -/
inductive IsCondition : Node → Prop
  | character (value : String) (span : Span) : IsCondition (.character value span)
  | string (value : String) (span : Span) : IsCondition (.string value span)
  | identifier (id : Identifier) : IsCondition (.identifier id)

/-- A symbol for a tape, which may be given by name. -/
inductive IsTapeSymbol : Node → Prop
  | bare {n : Node} (h : IsCondition n) : IsTapeSymbol n
  | qualified (tape : Identifier) {n : Node} (h : IsCondition n) (span : Span) :
      IsTapeSymbol (.qualified tape n span)

/-- A move of a head, whose tape may be given by name. -/
inductive IsTapeShift : Node → Prop
  | bare (direction : Direction) (span : Span) : IsTapeShift (.shift direction span)
  | qualified (tape : Identifier) (direction : Direction) (inner span : Span) :
      IsTapeShift (.qualified tape (.shift direction inner) span)

/-- A symbol of an alternative of a production. -/
inductive IsItem : Node → Prop
  | string (value : String) (span : Span) : IsItem (.string value span)
  | nonTerminal (name : String) (span : Span) : IsItem (.nonTerminal name span)

/-- An expression that stands for an automaton, made of names and operators. -/
inductive IsExpression : Node → Prop
  | identifier {id : Identifier} (h : PlainName id.name) : IsExpression (.identifier id)
  | binary (op : BinaryOp) {left right : Node} (hleft : IsExpression left)
      (hright : IsExpression right) (span : Span) : IsExpression (.binary op left right span)
  | unary (op : UnaryOp) {operand : Node} (h : IsExpression operand) (span : Span) :
      IsExpression (.unary op operand span)

/-- A transition of a machine, of the form that its rule reads. -/
inductive IsTransition : Node → Prop
  | finite (source : Identifier) {condition : Node} (h : IsCondition condition)
      (target : Identifier) (span : Span) :
      IsTransition (.finiteTransition source condition target span)
  | pushdown (source : Identifier) {condition : Node} (h : IsCondition condition)
      {pop push : List Node} (hpop : ∀ n ∈ pop, IsTapeSymbol n) (target : Identifier)
      (hpush : ∀ n ∈ push, IsTapeSymbol n) (span : Span) :
      IsTransition (.pushdownTransition source condition pop target push span)
  | turing (source : Identifier) {read write shift : List Node} (hread : ∀ n ∈ read, IsTapeSymbol n)
      (target : Identifier) (hwrite : ∀ n ∈ write, IsTapeSymbol n) (hshift : ∀ n ∈ shift,
        IsTapeShift n)
      (span : Span) : IsTransition (.turingTransition source read target write shift span)

/-- The productions of one head, of the form that their rule reads. -/
inductive IsProduction : Node → Prop
  | production (head : String) {alternatives : List (List Node)}
      (h : ∀ items ∈ alternatives, ∀ n ∈ items, IsItem n) (span : Span) :
      IsProduction (.production head alternatives span)

/-- A statement of a program or of the body of a machine. -/
inductive IsStatement : Node → Prop
  | finite {name : Identifier} (hname : PlainName name.name) {nodes : List Node}
      (h : ∀ n ∈ nodes, IsStatement n) (inner span : Span) :
      IsStatement (.finite name (.root nodes inner) span)
  | pushdown {name : Identifier} (hname : PlainName name.name) (stackNames : List Identifier)
      {nodes : List Node} (h : ∀ n ∈ nodes, IsStatement n) (inner span : Span) :
      IsStatement (.pushdown name stackNames (.root nodes inner) span)
  | turing {name : Identifier} (hname : PlainName name.name) (tapes : List Identifier)
      {nodes : List Node} (h : ∀ n ∈ nodes, IsStatement n) (inner span : Span) :
      IsStatement (.turing name tapes (.root nodes inner) span)
  | grammar {name : Identifier} (hname : PlainName name.name) (start : Option Identifier)
      {nodes : List Node} (h : ∀ n ∈ nodes, IsProduction n) (inner span : Span) :
      IsStatement (.grammar name start (.root nodes inner) span)
  | assignment (kind : MachineKind) {name : Identifier} (hname : PlainName name.name) {value : Node}
      (h : IsExpression value) (span : Span) : IsStatement (.assignment kind name value span)
  | initial (state : Identifier) (span : Span) : IsStatement (.initial state span)
  | final (states : List Identifier) (span : Span) : IsStatement (.final states span)
  | print (message : String) (span : Span) : IsStatement (.print message span)
  | test {automaton : Identifier} (hname : PlainName automaton.name) (inputs : List String)
      (span : Span) :
      IsStatement (.test automaton inputs span)
  | transition {n : Node} (h : IsTransition n) : IsStatement n

/-- A program: a sequence of statements, each of the form that its rule reads. -/
def IsModule (n : Node) : Prop := ∃ nodes span, n = .root nodes span ∧ ∀ m ∈ nodes, m.IsStatement

end Node

end MachineLang

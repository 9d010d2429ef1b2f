import MachineLang.Automaton.Basic

/-!
# Bound values

What names can be bound to while a program is evaluated: the scopes of declarations, and, while the
body of a declaration is evaluated, what its statements have contributed so far.
-/

namespace MachineLang

/-- A value for one tape, which is given by name or by position. -/
structure TapeValue (α : Type) where
  /-- The name of the tape, if it is given by name. -/
  tape : Option Identifier
  /-- The value. -/
  value : α
deriving DecidableEq, Repr

/-- What a transition of each kind is written with. -/
inductive TransitionForm
  /-- What is read. -/
  | finite (read : Symbol)
  /-- What is read, popped and pushed. -/
  | pushdown (read : Symbol) (pop push : List (TapeValue Symbol))
  /-- What is read and written, and how the heads move. -/
  | turing (read write : List (TapeValue Symbol)) (shift : List (TapeValue Direction))
deriving DecidableEq, Repr

/-- The kind of machines for which a transition is written. -/
def TransitionForm.kind : TransitionForm → MachineKind
  | finite .. => .finite
  | pushdown .. => .pushdown
  | turing .. => .turing

/-- A transition as written, before it is checked against its automaton. -/
structure DeclaredTransition where
  /-- The state it leaves. -/
  source : State
  /-- The state it enters. -/
  target : State
  /-- The rest of it. -/
  form : TransitionForm
  /-- Where it is written. -/
  span : Span
deriving DecidableEq, Repr

/-- The number of a scope, in the order in which scopes are opened. -/
abbrev ScopeId := Nat

/-- The value of a name: what a program declares, or what the body of a declaration collects. -/
inductive Value
  /-- The scope of a declaration, whose result is what was declared. -/
  | declaration (scope : ScopeId)
  /-- A state. -/
  | state (name : State)
  /-- A list of states. -/
  | states (names : List State)
  /-- A list of transitions. -/
  | transitions (transitions : List DeclaredTransition)
  /-- A list of productions. -/
  | productions (productions : List Production)
deriving DecidableEq, Repr

/-- The sort of a value as named in messages. -/
def Value.sort : Value → String
  | declaration _ => "declaration"
  | state _ => "state"
  | states _ => "state list"
  | transitions _ => "transition list"
  | productions _ => "production list"

end MachineLang

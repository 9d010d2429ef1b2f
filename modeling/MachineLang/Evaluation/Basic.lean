import MachineLang.Evaluation.Declaration
import MachineLang.Tree.Height

/-!
# Evaluation

An `Evaluator` is a computation over a `Session`: the scopes, the printed lines and the outcomes of
the tests so far. A failure keeps what was done before. Nodes are evaluated by the handlers of a
table; a handler is given the function that visits further nodes.
-/

namespace MachineLang

/-- The outcome of a test on one input. -/
structure TestOutcome where
  /-- The name of the automaton. -/
  automaton : String
  /-- The input. -/
  input : String
  /-- Whether it was accepted; nothing if this was not decided. -/
  accepted : Option Bool
deriving DecidableEq, Repr, Inhabited

/-- What evaluation has done so far; later programs of the session find it as earlier ones leave
it. -/
structure Session where
  /-- The scopes. -/
  scopes : ScopeTree
  /-- The printed lines. -/
  output : List String
  /-- The outcomes of the tests. -/
  tests : List TestOutcome
deriving Repr, Inhabited

/-- The session before anything is evaluated: one scope without names, no lines and no outcomes. -/
def Session.start : Session := ⟨.initial, [], []⟩

/-- A computation that changes a session and may fail. -/
abbrev Evaluator := ExceptT EvaluationError (StateM Session)

/-- Evaluates a node in a scope. The answer is the automaton that an expression stands for. -/
abbrev Visit := Node → ScopeId → Evaluator (Option Automaton)

/-- Evaluates a node in a scope, with a function that visits further nodes. -/
abbrev Handler := Visit → Visit

namespace Evaluator

/-- A failure that is independent of the session. -/
def ofExcept {α : Type} : Except EvaluationError α → Evaluator α
  | .ok a => pure a
  | .error e => throw e

/-- Reads the scopes of the session as they are now. -/
def scopes : Evaluator ScopeTree := return (← get).scopes

/-- Changes the scopes, which may fail; the error is told with the place of what asked for the
change. -/
def changeScopes (error : BindingError → EvaluationError)
    (change : ScopeTree → Except BindingError ScopeTree) : Evaluator Unit := do
  match change (← scopes) with
  | .ok scopes => modify fun s => { s with scopes }
  | .error e => throw (error e)

/-- Adds a scope inside another one, and tells its number. -/
def enterScope (parent : ScopeId) : Evaluator ScopeId := do
  let (id, scopes) := (← scopes).child parent
  modify fun s => { s with scopes }
  return id

/-- Gives a declaration its result: its scope gets the automaton, and its name the scope. -/
def finish (outer inner : ScopeId) (name : Identifier) (result : Automaton) : Evaluator Unit := do
  modify fun s => { s with scopes := s.scopes.setResult inner result }
  changeScopes (·.at name.span) fun t => t.define outer name.name (.declaration inner)

/-- Prints a line, which is added behind those printed before. -/
def print (line : String) : Evaluator Unit :=
  modify fun s => { s with output := s.output ++ [line] }

/-- Records the outcome of a test behind those of earlier tests. -/
def record (outcome : TestOutcome) : Evaluator Unit :=
  modify fun s => { s with tests := s.tests ++ [outcome] }

/-- The automaton of a name, looked up from a scope outwards. A name that stands for something else,
or for a declaration that is not finished, is an error at the place of the name. -/
def automatonOf (name : Identifier) (scope : ScopeId) : Evaluator Automaton := do
  let scopes ← scopes
  match scopes.lookup scope name.name with
  | .error e => throw (e.at name.span)
  | .ok (.declaration declared) =>
    match scopes.result? declared with
    | some a => return a
    | none => throw (.usedBeforeDefinition name.name name.span)
  | .ok value => throw (.kindMismatch "automaton" value.sort name.span)

end Evaluator

/-- How much deeper than a tree its evaluation may nest when handlers visit nodes of their own. -/
def spareDepth : Nat := 1000

/-- Visits a node with a table of handlers. Visits nest at most `depth` deep. -/
def HandlerTable.visitWithin (table : HandlerTable Handler) : Nat → Visit
  | 0, node, _ => throw (.endless node.span)
  | depth + 1, node, scope =>
    match table.resolve node.kind with
    | .ok handler => handler (table.visitWithin depth) node scope
    | .error e => throw (.dispatch e)

/-- Evaluates a node in a scope, with steps enough for every node in it and for what handlers visit
besides. -/
def HandlerTable.evaluateIn (table : HandlerTable Handler) (node : Node) (scope : ScopeId) :
    Evaluator Unit :=
  discard (table.visitWithin (node.height + spareDepth) node scope)

end MachineLang

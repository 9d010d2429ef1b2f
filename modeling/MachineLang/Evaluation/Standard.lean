import MachineLang.Evaluation.Basic

/-!
# The standard handlers

What each kind of node does when it is evaluated. A declaration opens a scope, in which the
statements of its body collect the initial state, the final states and the transitions under
reserved names; names in programs have no spaces, so they cannot clash with these.
-/

namespace MachineLang

/-- The reserved name of the initial state, which no program can write since it has a space in
it. -/
def initialStateName : String := "initial state"

/-- The reserved name of the final states, under which a body collects them. -/
def finalStatesName : String := "final states"

/-- The reserved name of the transitions, under which a body collects them. -/
def transitionsName : String := "transition list"

/-- The reserved name of the productions, under which a body collects them. -/
def productionsName : String := "production list"

/-- The name of the input tape of a pushdown automaton. -/
def inputTapeName : String := "input"

/-- The name of the only stack of a pushdown automaton without stack names. -/
def defaultStackName : String := "stack"

/-- The declared tape names, or the default one if there are none. -/
def tapeNames (declared : List Identifier) (default : String) : List String :=
  if declared.isEmpty then [default] else declared.map Identifier.name

/-- Adds states to a list of states, and leaves any other value as it is. -/
def Value.addStates (states : List State) : Value → Value
  | .states before => .states (before ++ states)
  | value => value

/-- Adds a transition to a list of transitions. -/
def Value.addTransition (t : DeclaredTransition) : Value → Value
  | .transitions before => .transitions (before ++ [t])
  | value => value

/-- Adds productions to a list of productions, and leaves any other value as it is. -/
def Value.addProductions (productions : List Production) : Value → Value
  | .productions before => .productions (before ++ productions)
  | value => value

namespace Evaluator

/-- The final states that were collected in a scope. -/
def collectedStates (scopes : ScopeTree) (scope : ScopeId) : List State :=
  match scopes.lookup scope finalStatesName with
  | .ok (.states states) => states
  | _ => []

/-- The transitions that were collected in a scope. -/
def collectedTransitions (scopes : ScopeTree) (scope : ScopeId) : List DeclaredTransition :=
  match scopes.lookup scope transitionsName with
  | .ok (.transitions transitions) => transitions
  | _ => []

/-- The productions that were collected in a scope. -/
def collectedProductions (scopes : ScopeTree) (scope : ScopeId) : List Production :=
  match scopes.lookup scope productionsName with
  | .ok (.productions productions) => productions
  | _ => []

/-- The initial state that was set in a scope. -/
def collectedInitial? (scopes : ScopeTree) (scope : ScopeId) : Option State :=
  match scopes.lookup scope initialStateName with
  | .ok (.state state) => some state
  | _ => none

/-- The automaton that an expression stands for; a statement in its place is an error. -/
def expression (visit : Visit) (node : Node) (scope : ScopeId) : Evaluator Automaton := do
  match ← visit node scope with
  | some a => return a
  | none => throw (.unsupported (node.kind.tag ++ " is not an automaton expression") node.span)

/-- Evaluates the declaration of a machine: its name is declared, its body is evaluated in a scope
of its own, and the machine is built from what the body collects there. -/
def declareMachine (visit : Visit) (kind : MachineKind) (name : Identifier) (tapes : List String)
    (body : Node) (span : Span) (scope : ScopeId) : Evaluator Unit := do
  changeScopes (·.at name.span) fun t => t.declare scope name.name
  let inner ← enterScope scope
  changeScopes (·.at span) fun t => t.declare inner initialStateName
  changeScopes (·.at span) fun t => t.bind inner finalStatesName (.states [])
  changeScopes (·.at span) fun t => t.bind inner transitionsName (.transitions [])
  let _ ← visit body inner
  let scopes ← scopes
  match collectedInitial? scopes inner with
  | none => throw (.missingInitialState name.name span)
  | some initial =>
    let declaration : Declaration :=
      ⟨name.name, tapes, initial, collectedStates scopes inner, collectedTransitions scopes inner⟩
    finish scope inner name (.machine (← ofExcept (declaration.machine kind)))

/-- Evaluates the declaration of a grammar. Without a start symbol the head of the first production
is one. -/
def declareGrammar (visit : Visit) (name : Identifier) (start : Option Identifier) (body : Node)
    (span : Span) (scope : ScopeId) : Evaluator Unit := do
  changeScopes (·.at name.span) fun t => t.declare scope name.name
  let inner ← enterScope scope
  changeScopes (·.at span) fun t => t.bind inner productionsName (.productions [])
  let _ ← visit body inner
  let productions := collectedProductions (← scopes) inner
  match start.map Identifier.name <|> productions.head?.map Production.head with
  | none => throw (.missingStartSymbol name.name span)
  | some start => finish scope inner name (.grammar ⟨start, productions⟩)

/-- Evaluates a declaration by an expression, whose automaton has to be of the declared kind. -/
def assign (visit : Visit) (kind : MachineKind) (name : Identifier) (value : Node)
    (scope : ScopeId) : Evaluator Unit := do
  changeScopes (·.at name.span) fun t => t.declare scope name.name
  let automaton ← expression visit value scope
  if automaton.kind? ≠ some kind then
    throw (.kindMismatch kind.name automaton.kindName value.span)
  finish scope (← enterScope scope) name automaton

/-- Tests an automaton on an input, and records what comes of it; a grammar cannot be tested. -/
def testOn (maxLayers : Nat) (name : String) (automaton : Automaton) (span : Span)
    (input : String) : Evaluator Unit := do
  match automaton.testWithin [input.toList] maxLayers with
  | none => throw (.unsupported ("cannot test a " ++ automaton.kindName) span)
  | some (.error e) => throw (.machine e)
  | some (.ok accepted) => record ⟨name, input, accepted⟩

/-- Combines two automata, which have to be of one kind; whatever goes wrong is an error at the
place of the operation, or of the machines themselves. -/
def combine (op : BinaryOp) (left right : Automaton) (span : Span) : Evaluator Automaton := do
  if left.kind? ≠ right.kind? then throw (.kindMismatch left.kindName right.kindName span)
  match Automaton.combine op left right with
  | some (.ok a) => if Automaton.canCombine op left right then return a else throw (.overflow span)
  | some (.error e) => throw (.machine e)
  | none =>
    throw (.unsupported ("'" ++ op.name ++ "' is not defined for a " ++ left.kindName) span)

/-- Changes an automaton by an operator for one operand, which has to be a finite automaton. -/
def change (op : UnaryOp) (operand : Automaton) (span : Span) : Evaluator Automaton :=
  match operand with
  | @Automaton.machine .finite m =>
    if Automaton.canChange op m then return .machine (Automaton.change op m)
    else throw (.overflow span)
  | _ =>
    throw (.unsupported
      ("'" ++ op.name ++ "' is only defined for a " ++ MachineKind.finite.name) span)

end Evaluator

namespace Handler

/-- A handler was given a node of another kind than its own. -/
def mismatch (expected : NodeKind) (node : Node) : Evaluator (Option Automaton) :=
  throw (.dispatch (.mismatch expected node.kind))

/-- The handler of statements: they stand for no automaton. -/
def statement (evaluate : Evaluator Unit) : Evaluator (Option Automaton) := do
  evaluate
  return none

/-- Refuses a node, at its place, as one of a kind that is never evaluated. -/
def unsupported : Handler := fun _ node _ =>
  throw (.unsupported (node.kind.tag ++ " nodes cannot be evaluated") node.span)

/-- Evaluates statements in turn and stops at the first one that fails. -/
def root : Handler := fun visit node scope =>
  match node with
  | .root statements _ => statement (statements.forM fun node => discard (visit node scope))
  | node => mismatch .root node

/-- Declares a machine with a body, whose tapes are named by its kind or by the declaration. -/
def declaration : Handler := fun visit node scope =>
  match node with
  | .finite name body span =>
    statement (Evaluator.declareMachine visit .finite name [Machine.defaultTape] body span scope)
  | .pushdown name stackNames body span =>
    statement (Evaluator.declareMachine visit .pushdown name
      (inputTapeName :: tapeNames stackNames defaultStackName) body span scope)
  | .turing name tapes body span =>
    statement (Evaluator.declareMachine visit .turing name (tapeNames tapes Machine.defaultTape)
      body span scope)
  | node => mismatch .finite node

/-- Declares a grammar, whose productions are collected while its body is evaluated. -/
def grammar : Handler := fun visit node scope =>
  match node with
  | .grammar name start body span =>
    statement (Evaluator.declareGrammar visit name start body span scope)
  | node => mismatch .grammar node

/-- Declares an automaton by an expression, under a name that is not declared yet. -/
def assignment : Handler := fun visit node scope =>
  match node with
  | .assignment kind name value _ => statement (Evaluator.assign visit kind name value scope)
  | node => mismatch .assignment node

/-- Sets the initial state of the declaration around it. -/
def initial : Handler := fun _ node scope =>
  match node with
  | .initial state span =>
    statement (Evaluator.changeScopes (BindingError.inStatement "initial" span) fun t =>
      t.define scope initialStateName (.state state.name))
  | node => mismatch .initial node

/-- Adds to the final states of the declaration around it. -/
def final : Handler := fun _ node scope =>
  match node with
  | .final states span =>
    statement (Evaluator.changeScopes (BindingError.inStatement "final" span) fun t =>
      t.update scope finalStatesName (Value.addStates (states.map Identifier.name)))
  | node => mismatch .final node

/-- Prints a line: the text of the statement as it is. -/
def print : Handler := fun _ node _ =>
  match node with
  | .print message _ => statement (Evaluator.print message)
  | node => mismatch .print node

/-- Tests an automaton; `maxLayers` bounds how far a test goes. -/
def test (maxLayers : Nat) : Handler := fun _ node scope =>
  match node with
  | .test name inputs span => statement do
    let automaton ← Evaluator.automatonOf name scope
    inputs.forM (Evaluator.testOn maxLayers name.name automaton span)
  | node => mismatch .test node

/-- Adds to the productions of the declaration around it. -/
def production : Handler := fun _ node scope =>
  match node with
  | .production head alternatives span => statement do
    let bodies ← Evaluator.ofExcept (alternatives.mapM productionBody)
    Evaluator.changeScopes (BindingError.inStatement "production" span) fun t =>
      t.update scope productionsName (Value.addProductions (bodies.map (Production.mk head)))
  | node => mismatch .production node

/-- Adds to the transitions of the declaration around it. -/
def transition : Handler := fun _ node scope => statement do
  let t ← Evaluator.ofExcept (declaredTransitionOf node)
  Evaluator.changeScopes (BindingError.inStatement "transition" t.span) fun scopes =>
    scopes.update scope transitionsName (Value.addTransition t)

/-- Looks up an automaton by its name, from the scope of the node outwards. -/
def identifier : Handler := fun _ node scope =>
  match node with
  | .identifier name => some <$> Evaluator.automatonOf name scope
  | node => mismatch .identifier node

/-- Combines two automata: the left operand is evaluated before the right one. -/
def binary : Handler := fun visit node scope =>
  match node with
  | .binary op left right span => do
    let left ← Evaluator.expression visit left scope
    let right ← Evaluator.expression visit right scope
    some <$> Evaluator.combine op left right span
  | node => mismatch .binary node

/-- Changes an automaton, once its operand is evaluated. -/
def unary : Handler := fun visit node scope =>
  match node with
  | .unary op operand span => do
    let operand ← Evaluator.expression visit operand scope
    some <$> Evaluator.change op operand span
  | node => mismatch .unary node

end Handler

/-- The handlers of all kinds of nodes that can be evaluated, and the refusal of the others. Tests
explore at most `maxLayers` layers. -/
def HandlerTable.standard (maxLayers : Nat) : HandlerTable Handler := .ofList [
  (.any, Handler.unsupported),
  (.kind .root, Handler.root),
  (.kind .finite, Handler.declaration),
  (.kind .pushdown, Handler.declaration),
  (.kind .turing, Handler.declaration),
  (.kind .grammar, Handler.grammar),
  (.kind .assignment, Handler.assignment),
  (.kind .initial, Handler.initial),
  (.kind .final, Handler.final),
  (.kind .print, Handler.print),
  (.kind .test, Handler.test maxLayers),
  (.kind .production, Handler.production),
  (.kind .finiteTransition, Handler.transition),
  (.kind .pushdownTransition, Handler.transition),
  (.kind .turingTransition, Handler.transition),
  (.kind .identifier, Handler.identifier),
  (.kind .binary, Handler.binary),
  (.kind .unary, Handler.unary)]

end MachineLang

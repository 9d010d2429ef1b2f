import MachineLang.Evaluation.Dispatch
import MachineLang.Scope.Basic

/-!
# Evaluation errors
-/

namespace MachineLang

/-- Why a program cannot be evaluated, and where. -/
inductive EvaluationError
  /-- A name has a meaning already. -/
  | redefinition (name : String) (span : Span)
  /-- A name is declared and has no value yet. -/
  | usedBeforeDefinition (name : String) (span : Span)
  /-- A name is not declared at all. -/
  | notDeclared (name : String) (span : Span)
  /-- The body of a declaration does not say where computations begin. -/
  | missingInitialState (automaton : String) (span : Span)
  /-- A grammar has neither a start symbol nor a production. -/
  | missingStartSymbol (grammar : String) (span : Span)
  /-- Something that cannot be evaluated. -/
  | unsupported (feature : String) (span : Span)
  /-- One sort of thing stands where another one has to. -/
  | kindMismatch (expected found : String) (span : Span)
  /-- An automaton has no tape of this name. -/
  | unknownTape (tape automaton : String) (span : Span)
  /-- There are more values than tapes. -/
  | tooManyTapes (automaton : String) (expected found : Nat) (span : Span)
  /-- A statement that belongs in the body of a declaration stands outside of one. -/
  | outsideAutomaton (statement : String) (span : Span)
  /-- A machine cannot be built, combined or started. -/
  | machine (error : MachineError)
  /-- A node cannot be handled. -/
  | dispatch (error : DispatchError)
  /-- The number in a new name does not fit into 64 bits. -/
  | overflow (span : Span)
  /-- Handlers call each other without end. -/
  | endless (span : Span)
deriving DecidableEq, Repr

namespace EvaluationError

/-- The error in words, with the place that it is about where it is known. -/
def message : EvaluationError → String
  | redefinition name span => (BindingError.redefinition name).message ++ " at " ++ span.text
  | usedBeforeDefinition name span =>
    (BindingError.usedBeforeDefinition name).message ++ " at " ++ span.text
  | notDeclared name span => (BindingError.notDeclared name).message ++ " at " ++ span.text
  | missingInitialState automaton _ => "Automaton '" ++ automaton ++ "' has no initial state"
  | missingStartSymbol grammar _ => "Grammar '" ++ grammar ++ "' has no start symbol"
  | unsupported feature span => feature ++ " at " ++ span.text
  | kindMismatch expected found span =>
    "Expected " ++ expected ++ ", found " ++ found ++ " at " ++ span.text
  | unknownTape tape automaton span =>
    "Unknown tape '" ++ tape ++ "' in automaton '" ++ automaton ++ "' at " ++ span.text
  | tooManyTapes automaton expected found span =>
    "Transition addresses " ++ toString found ++ " tapes but automaton '" ++ automaton
      ++ "' has " ++
      toString expected ++ " at " ++ span.text
  | outsideAutomaton statement span =>
    "'" ++ statement ++ "' statement outside of an automaton body at " ++ span.text
  | machine error => error.message
  | dispatch error => error.message
  | overflow span => "Number of a state name too large at " ++ span.text
  | endless span => "Evaluation does not end at " ++ span.text

/-- Where the error is, if it has a place. -/
def span? : EvaluationError → Option Span
  | redefinition _ span => some span
  | usedBeforeDefinition _ span => some span
  | notDeclared _ span => some span
  | missingInitialState _ span => some span
  | missingStartSymbol _ span => some span
  | unsupported _ span => some span
  | kindMismatch _ _ span => some span
  | unknownTape _ _ span => some span
  | tooManyTapes _ _ _ span => some span
  | outsideAutomaton _ span => some span
  | machine _ => none
  | dispatch _ => none
  | overflow span => some span
  | endless span => some span

end EvaluationError

/-- The error at a place where a name is used. -/
def BindingError.at : BindingError → Span → EvaluationError
  | redefinition name, span => .redefinition name span
  | usedBeforeDefinition name, span => .usedBeforeDefinition name span
  | notDeclared name, span => .notDeclared name span

/-- The error of a statement that adds to the declaration around it: there is none if the name that
collects such statements is not declared. -/
def BindingError.inStatement (statement : String) (span : Span) : BindingError → EvaluationError
  | notDeclared _ => .outsideAutomaton statement span
  | error => error.at span

end MachineLang

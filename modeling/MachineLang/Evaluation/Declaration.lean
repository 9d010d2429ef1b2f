import MachineLang.Evaluation.Error

/-!
# Declarations

Once the body of a declaration has been evaluated, what its statements contributed makes up a
`Declaration`. `Declaration.machine` checks it and builds the machine: every value of a transition
is put on the tape that it is written for (`arrange`).
-/

namespace MachineLang

/-- Puts values on tapes, behind values that are there. The next value without a tape name belongs
on the tape at `position`. -/
def arrangeFrom {α : Type} (automaton : String) (tapes : List String) (found : Nat) (span : Span) :
    Nat → List (TapeValue α) → List α → Except EvaluationError (List α)
  | _, [], arranged => .ok arranged
  | position, ⟨some tape, value⟩ :: rest, arranged =>
    match tapes.findIdx? (· == tape.name) with
    | some index => arrangeFrom automaton tapes found span position rest (arranged.set index value)
    | none => .error (.unknownTape tape.name automaton tape.span)
  | position, ⟨none, value⟩ :: rest, arranged =>
    if position < tapes.length then
      arrangeFrom automaton tapes found span (position + 1) rest (arranged.set position value)
    else .error (.tooManyTapes automaton tapes.length found span)

/-- One value per tape. Values without a tape name belong on the first tapes, in order, and a tape
without a value gets the neutral one. -/
def arrange {α : Type} (automaton : String) (tapes : List String) (span : Span) (neutral : α)
    (values : List (TapeValue α)) : Except EvaluationError (List α) :=
  arrangeFrom automaton tapes values.length span 0 values (List.replicate tapes.length neutral)

/-- The declaration of an automaton with what its body says. -/
structure Declaration where
  /-- The name of the automaton. -/
  name : String
  /-- The names of its tapes. -/
  tapes : List String
  /-- The state in which computations begin. -/
  initial : State
  /-- The final states. -/
  finals : List State
  /-- The transitions. -/
  transitions : List DeclaredTransition
deriving Repr

namespace Declaration

/-- A transition of the automaton, checked and with its values put on tapes. -/
def transition (d : Declaration) : (k : MachineKind) → DeclaredTransition →
    Except EvaluationError (Transition k)
  | .finite, ⟨source, target, .finite read, _⟩ => .ok ⟨source, [read], target, ()⟩
  | .pushdown, ⟨source, target, .pushdown read pop push, span⟩ => do
    let stackNames := d.tapes.drop 1
    let pop ← arrange d.name stackNames span epsilon pop
    let push ← arrange d.name stackNames span epsilon push
    return ⟨source, read :: pop, target, StackAction.mk push⟩
  | .turing, ⟨source, target, .turing read write shift, span⟩ => do
    let read ← arrange d.name d.tapes span epsilon read
    let write ← arrange d.name d.tapes span epsilon write
    let shift ← arrange d.name d.tapes span .stay shift
    return ⟨source, read, target, TapeAction.mk write shift⟩
  | k, t =>
    .error (.kindMismatch (k.name ++ " transition") (t.form.kind.name ++ " transition") t.span)

/-- The machine that is declared: each transition is put on the tapes first, and the machine is
built from all of them. -/
def machine (d : Declaration) (k : MachineKind) : Except EvaluationError (Machine k) := do
  let transitions ← d.transitions.mapM (d.transition k)
  let definition : Definition k :=
    ⟨transitions, d.initial, .ofList d.finals, d.tapes, .empty, .empty, k.bounded⟩
  (Machine.new definition).mapError .machine

end Declaration

/-- The symbols of an alternative of a production; empty strings add nothing. -/
def productionBody : List Node → Except EvaluationError (List GrammarSymbol)
  | [] => .ok []
  | .string value _ :: rest => do
    let symbols ← productionBody rest
    return if value.isEmpty then symbols else .terminal value :: symbols
  | .nonTerminal name _ :: rest => do return .nonTerminal name :: (← productionBody rest)
  | node :: _ => .error (.dispatch (.mismatch .nonTerminal node.kind))

/-- The symbol that a node stands for. The name of another symbol may be written there, but is not
supported. -/
def symbolOf : Node → Except EvaluationError Symbol
  | .character value _ => .ok value.toList
  | .string value _ => .ok value.toList
  | .identifier id =>
    .error (.unsupported "name-reference transition conditions are not supported yet" id.span)
  | node => .error (.dispatch (.mismatch .character node.kind))

/-- The symbol for a tape that a node stands for. -/
def tapeSymbolOf : Node → Except EvaluationError (TapeValue Symbol)
  | .qualified tape value _ => return ⟨some tape, ← symbolOf value⟩
  | node => return ⟨none, ← symbolOf node⟩

/-- The direction that a node stands for. -/
def directionOf : Node → Except EvaluationError Direction
  | .shift direction _ => .ok direction
  | node => .error (.dispatch (.mismatch .shift node.kind))

/-- The move of a head that a node stands for. -/
def tapeShiftOf : Node → Except EvaluationError (TapeValue Direction)
  | .qualified tape value _ => return ⟨some tape, ← directionOf value⟩
  | node => return ⟨none, ← directionOf node⟩

/-- The transition that a node stands for, with its tapes as they are written. -/
def declaredTransitionOf : Node → Except EvaluationError DeclaredTransition
  | .finiteTransition source condition target span => do
    return ⟨source.name, target.name, .finite (← symbolOf condition), span⟩
  | .pushdownTransition source condition pop target push span => do
    let read ← symbolOf condition
    let pop ← pop.mapM tapeSymbolOf
    let push ← push.mapM tapeSymbolOf
    return ⟨source.name, target.name, .pushdown read pop push, span⟩
  | .turingTransition source read target write shift span => do
    let read ← read.mapM tapeSymbolOf
    let write ← write.mapM tapeSymbolOf
    let shift ← shift.mapM tapeShiftOf
    return ⟨source.name, target.name, .turing read write shift, span⟩
  | node => .error (.dispatch (.mismatch .finiteTransition node.kind))

end MachineLang

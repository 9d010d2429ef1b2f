import MachineLang.Machine.Tape
import MachineLang.Tree.Node

/-!
# What tells the kinds of machines apart

A transition reads one symbol from each tape and, besides changing the state, carries an `Action`:
nothing for a finite automaton, the words to push for a pushdown automaton, the words to write and
the moves of the heads for a Turing machine. The functions here say, for each kind, how tapes are
loaded, read and changed, and when a machine accepts. Everything else about machines is the same for
all kinds.
-/

namespace MachineLang

/-- The name of a state, which is what tells states apart. -/
abbrev State := String

/-- What a transition reads from one tape; it may have any length. -/
abbrev Symbol := Word

/-- The symbol that reads nothing, pops nothing and writes nothing. -/
def epsilon : Symbol := []

/-- The symbol of a blank cell, which is a space. -/
def blank : Symbol := [blankChar]

/-- What a pushdown transition pushes: a word for each stack, its first character on top. -/
structure StackAction where
  /-- The words, one per stack. -/
  push : List Symbol
deriving DecidableEq, Repr, Inhabited

/-- What a Turing transition does to each tape. -/
structure TapeAction where
  /-- The words to write, one per tape; the empty word leaves the cells as they are. -/
  write : List Symbol
  /-- The moves of the heads, one per tape. -/
  shift : List Direction
deriving DecidableEq, Repr, Inhabited

/-- What a transition does besides changing the state. -/
def Action : MachineKind → Type
  | .finite => Unit
  | .pushdown => StackAction
  | .turing => TapeAction

instance (k : MachineKind) : DecidableEq (Action k) :=
  match k with
  | .finite => inferInstanceAs (DecidableEq Unit)
  | .pushdown => inferInstanceAs (DecidableEq StackAction)
  | .turing => inferInstanceAs (DecidableEq TapeAction)

instance (k : MachineKind) : Repr (Action k) :=
  match k with
  | .finite => inferInstanceAs (Repr Unit)
  | .pushdown => inferInstanceAs (Repr StackAction)
  | .turing => inferInstanceAs (Repr TapeAction)

namespace MachineKind

/-- Whether the tapes of a kind are bounded unless stated otherwise. -/
def bounded : MachineKind → Bool
  | finite => true
  | pushdown => true
  | turing => false

/-- The action of a transition that only changes the state. -/
def neutral (tapes : Nat) : (k : MachineKind) → Action k
  | finite => ()
  | pushdown => StackAction.mk (List.replicate (tapes - 1) epsilon)
  | turing => TapeAction.mk (List.replicate tapes epsilon) (List.replicate tapes .stay)

/-- Whether an action addresses exactly `tapes` tapes. The input of a pushdown automaton counts as
one. -/
def fits (tapes : Nat) : (k : MachineKind) → Action k → Bool
  | finite, _ => true
  | pushdown, (a : StackAction) => a.push.length + 1 == tapes
  | turing, (a : TapeAction) => a.write.length == tapes && a.shift.length == tapes

/-- A tape at the start of a computation. The tapes of a pushdown automaton are always bounded. -/
def load (k : MachineKind) (content : Word) (bounded : Bool) : Tape :=
  match k with
  | pushdown => .ofWord content true
  | _ => .ofWord content bounded

/-- One symbol per tape, `width` characters long; from a stack only its top is read. -/
def read (k : MachineKind) (width : Nat) (tapes : List Tape) : List Symbol :=
  match k with
  | pushdown =>
    match tapes with
    | [] => []
    | input :: rest => input.read width :: rest.map fun stack => stack.read 1
  | _ => tapes.map fun tape => tape.read width

/-- Moves each head past the symbol that was read from its tape. -/
def skip : List Symbol → List Tape → List Tape
  | symbol :: symbols, tape :: tapes => tape.shift symbol.length :: skip symbols tapes
  | _, tapes => tapes

/-- Moves each head as `skip` does, unless one cannot move so far. -/
def skip? : List Symbol → List Tape → Option (List Tape)
  | symbol :: symbols, tape :: tapes => do
    return (← tape.shift? symbol.length) :: (← skip? symbols tapes)
  | _, tapes => some tapes

/-- Replaces the symbol that was read from each stack by the word to push. -/
def replace : List Symbol → List Symbol → List Tape → List Tape
  | pop :: pops, push :: pushes, stack :: rest =>
    (stack.popFront pop.length).pushFront push :: replace pops pushes rest
  | _, _, tapes => tapes

/-- Writes a word on each tape and moves its head. -/
def writeAndMove : List Symbol → List Direction → List Tape → List Tape
  | word :: words, direction :: directions, tape :: tapes =>
    (tape.write word).shift direction.offset :: writeAndMove words directions tapes
  | _, _, tapes => tapes

/-- Writes and moves as `writeAndMove` does, unless a word cannot be stored or a head cannot
move. -/
def writeAndMove? : List Symbol → List Direction → List Tape → Option (List Tape)
  | word :: words, direction :: directions, tape :: tapes => do
    let written ← tape.write? word
    return (← written.shift? direction.offset) :: (← writeAndMove? words directions tapes)
  | _, _, tapes => some tapes

/-- The tapes after a transition that read `pattern`. -/
def act : (k : MachineKind) → List Symbol → Action k → List Tape → List Tape
  | finite, pattern, _, tapes => skip pattern tapes
  | pushdown, pattern, (a : StackAction), tapes =>
    match tapes, pattern with
    | [], _ => []
    | tapes, [] => tapes
    | input :: rest, symbol :: pops =>
      input.shift symbol.length :: replace pops a.push rest
  | turing, _, (a : TapeAction), tapes => writeAndMove a.write a.shift tapes

/-- The tapes after a transition, unless one of them cannot be changed so. -/
def act? : (k : MachineKind) → List Symbol → Action k → List Tape → Option (List Tape)
  | finite, pattern, _, tapes => skip? pattern tapes
  | pushdown, pattern, (a : StackAction), tapes =>
    match tapes, pattern with
    | [], _ => some []
    | tapes, [] => some tapes
    | input :: rest, symbol :: pops =>
      return (← input.shift? symbol.length) :: replace pops a.push rest
  | turing, _, (a : TapeAction), tapes => writeAndMove? a.write a.shift tapes

/-- Whether a machine accepts in a final state with these tapes: a finite automaton has to have read
all its tapes, a pushdown automaton its input. -/
def acceptsTapes : MachineKind → List Tape → Bool
  | finite, tapes => tapes.all Tape.isAtEnd
  | pushdown, tapes => tapes.head?.all Tape.isAtEnd
  | turing, _ => true

end MachineKind

end MachineLang

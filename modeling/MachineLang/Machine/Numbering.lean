import MachineLang.Machine.Basic

/-!
# Turing machines with numbered states

The layout of Turing machines for exchange with other programs: states go by numbers, the initial
state has the number zero, and the others follow in the order of their names.
-/

namespace MachineLang

/-- A state with its number and its name, marked if it is the initial one or accepting. -/
structure NumberedState where
  /-- The number. -/
  id : Nat
  /-- The name. -/
  name : State
  /-- Whether computations begin there. -/
  initial : Bool
  /-- Whether the state is final. -/
  accepting : Bool
deriving DecidableEq, Repr

/-- What a transition does to one tape: what it reads and writes there, and how it moves the
head. -/
structure TapeStep where
  /-- What is read. -/
  read : Symbol
  /-- What is written. -/
  write : Symbol
  /-- How the head moves. -/
  shift : Direction
deriving DecidableEq, Repr

/-- A transition between numbered states, with one step for each tape. -/
structure NumberedTransition where
  /-- The number of the state it leaves. -/
  source : Nat
  /-- The number of the state it enters. -/
  target : Nat
  /-- What it does to each tape. -/
  tapes : List TapeStep
deriving DecidableEq, Repr

/-- A Turing machine with numbered states, as it is handed to programs that know states by
numbers. -/
structure NumberedMachine where
  /-- The number of tapes. -/
  tapes : Nat
  /-- The states, in the order of their numbers. -/
  states : List NumberedState
  /-- The transitions. -/
  transitions : List NumberedTransition
deriving DecidableEq, Repr

/-- The initial of a direction, by which a step tells it. -/
def Direction.letter : Direction → Char
  | left => 'L'
  | right => 'R'
  | stay => 'S'

/-- The steps on each tape: what is read and written there, and how the head moves. The three lists
are as long as each other in a machine that is built. -/
def tapeSteps : List Symbol → List Symbol → List Direction → List TapeStep
  | read :: reads, write :: writes, shift :: shifts =>
    ⟨read, write, shift⟩ :: tapeSteps reads writes shifts
  | _, _, _ => []

namespace Machine

/-- The states in the order of their numbers. -/
def numberedOrder {k : MachineKind} (m : Machine k) : List State :=
  m.initial :: (m.states.erase m.initial).toList

/-- The number of a state, which is its place in the order; a state that is not in the order would
be given the number 0. -/
def numberOf {k : MachineKind} (m : Machine k) (state : State) : Nat :=
  (m.numberedOrder.findIdx? (· == state)).getD 0

/-- The machine with numbered states: the initial state is number 0, and the others follow in
increasing order. -/
def withNumbers (m : Machine .turing) : NumberedMachine where
  tapes := m.tapeCount
  states := m.numberedOrder.zipIdx.map fun (state, id) =>
    ⟨id, state, decide (state = m.initial), m.finals.contains state⟩
  transitions := m.transitions.map fun t =>
    let a : TapeAction := t.action
    ⟨m.numberOf t.source, m.numberOf t.target, tapeSteps t.read a.write a.shift⟩

end Machine

end MachineLang

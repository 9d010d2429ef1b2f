import MachineLang.Machine.Name
import MachineLang.Ordered.Map

/-!
# Machines

A `Machine` is a finite automaton, a pushdown automaton or a Turing machine with any number of
tapes, given by its transitions. It is built from a `Definition`, which lists the transitions one by
one; the states and the alphabet are those that the transitions mention and those that the
definition adds (`Machine.build`). `Machine.new` refuses a definition with a transition that does
not address every tape.
-/

namespace MachineLang

/-- A transition of a machine: it leaves a state if its pattern is what the tapes show, does its
action and enters the target. -/
structure Transition (k : MachineKind) where
  /-- The state it leaves. -/
  source : State
  /-- What it reads, one symbol per tape. -/
  read : List Symbol
  /-- The state it enters. -/
  target : State
  /-- What else it does. -/
  action : Action k
deriving DecidableEq, Repr

/-- The end of a transition: the state that it enters and what it does on the way. -/
structure Target (k : MachineKind) where
  /-- The state that is entered. -/
  state : State
  /-- What else is done. -/
  action : Action k
deriving DecidableEq, Repr

/-- Why a machine cannot be built, combined or started. -/
inductive MachineError
  /-- A transition does not address every tape. -/
  | tapeCount (source target : State) (expected found : Nat)
  /-- Machines with different numbers of tapes cannot be combined. -/
  | incompatibleTapes (left right : Nat)
  /-- There are more inputs than tapes. -/
  | tapeIndex (index count : Nat)
deriving DecidableEq, Repr

/-- The error in words, as it is shown where a machine is declared or combined. -/
def MachineError.message : MachineError → String
  | tapeCount source target expected found =>
    "Transition " ++ source ++ " -> " ++ target ++ " reads " ++ toString found ++
      " tapes, expected " ++ toString expected
  | incompatibleTapes left right =>
    "Cannot combine machines with " ++ toString left ++ " and " ++ toString right ++ " tapes"
  | tapeIndex index count =>
    "Tape index " ++ toString index ++ " is out of bounds (machine has " ++ toString count ++
      " tapes)"

/-- A machine as plain data: what it is built from, and what it is encoded as. -/
structure Definition (k : MachineKind) where
  /-- The transitions. -/
  transitions : List (Transition k)
  /-- The state in which computations begin. -/
  initial : State
  /-- The states in which a machine may accept. -/
  finals : SortedSet State := .empty
  /-- The names of the tapes; without any there is one tape. -/
  tapes : List String := []
  /-- States besides those of the transitions. -/
  states : SortedSet State := .empty
  /-- Symbols besides those of the transitions. -/
  alphabet : SortedSet Symbol := .empty
  /-- Whether the tapes are bounded. -/
  bounded : Bool
deriving DecidableEq, Repr

/-- The transitions that leave one state, by what they read. -/
abbrev Choices (k : MachineKind) := SortedMap (List Symbol) (List (Target k))

/-- A machine as it runs: its transitions are grouped by state and by pattern, and its alphabet is
known. -/
structure Machine (k : MachineKind) where
  /-- The transitions, by the state they leave and by what they read. -/
  choices : SortedMap State (Choices k)
  /-- The state in which computations begin. -/
  initial : State
  /-- The states in which the machine may accept. -/
  finals : SortedSet State
  /-- The names of the tapes. -/
  tapes : List String
  /-- The states. -/
  states : SortedSet State
  /-- The symbols that are read, other than the empty one and the blank. -/
  alphabet : SortedSet Symbol
  /-- Whether the tapes are bounded. -/
  bounded : Bool
deriving DecidableEq, Repr

namespace Machine

variable {k : MachineKind}

/-- Adds a target behind those that are there, unless it is one of them. -/
def addTarget (target : Target k) (targets : List (Target k)) : List (Target k) :=
  if targets.contains target then targets else targets ++ [target]

/-- Adds a transition behind those with the same state and pattern, unless it is one of them. -/
def addTransition (choices : SortedMap State (Choices k)) (t : Transition k) :
    SortedMap State (Choices k) :=
  choices.update t.source fun byRead =>
    (byRead.getD .empty).update t.read fun targets =>
      addTarget ⟨t.target, t.action⟩ (targets.getD [])

/-- The name of the only tape of a machine without tape names. -/
def defaultTape : String := "tape"

/-- Builds a machine from a definition whose transitions address every tape. -/
def build (d : Definition k) : Machine k where
  choices := d.transitions.foldl addTransition .empty
  initial := d.initial
  finals := d.finals
  tapes := if d.tapes.isEmpty then [defaultTape] else d.tapes
  states := ((d.states.insert d.initial).union d.finals).insertAll
    (d.transitions.flatMap fun t => [t.source, t.target])
  alphabet := (d.alphabet.insertAll (d.transitions.flatMap Transition.read)).filter fun symbol =>
    symbol ≠ epsilon ∧ symbol ≠ blank
  bounded := d.bounded

/-- Whether a transition addresses exactly `tapes` tapes, in its pattern and in its action. -/
def fits (tapes : Nat) (t : Transition k) : Bool :=
  t.read.length == tapes && k.fits tapes t.action

/-- Builds a machine, unless some transition does not address every tape. -/
def new (d : Definition k) : Except MachineError (Machine k) :=
  let tapes := max 1 d.tapes.length
  match d.transitions.find? fun t => !fits tapes t with
  | some t => .error (.tapeCount t.source t.target tapes t.read.length)
  | none => .ok (build d)

/-- The number of tapes, the input or the first tape included. -/
def tapeCount (m : Machine k) : Nat := m.tapes.length

/-- The transitions that leave one state, in the order of what they read; those that read the same
are in the order of their targets. -/
def transitionsOf (source : State) (choices : Choices k) : List (Transition k) :=
  choices.entries.flatMap fun (read, targets) =>
    targets.map fun target => ⟨source, read, target.state, target.action⟩

/-- The transitions, by the state they leave and by what they read. -/
def transitions (m : Machine k) : List (Transition k) :=
  m.choices.entries.flatMap fun (source, choices) => transitionsOf source choices

/-- The machine as plain data, from which the same machine is built again. -/
def definition (m : Machine k) : Definition k :=
  ⟨m.transitions, m.initial, m.finals, m.tapes, m.states, m.alphabet, m.bounded⟩

/-- The length of the longest symbol, or 1 if there is none; no more than this is read at once from
a tape. -/
def width (m : Machine k) : Nat := m.alphabet.toList.foldl (fun w symbol => max w symbol.length) 1

/-- The transitions that leave a state, in the order of what they read. -/
def choicesAt (m : Machine k) (state : State) : List (List Symbol × List (Target k)) :=
  match m.choices.find? state with
  | some choices => choices.entries
  | none => []

end Machine

/-- Whether a pattern matches what was read. An empty symbol matches anything, unless the match is
to be literal. -/
def matchesRead (literal : Bool) : List Symbol → List Symbol → Bool
  | [], [] => true
  | p :: pattern, r :: read =>
    (p == r || (!literal && p == epsilon)) && matchesRead literal pattern read
  | _, _ => false

end MachineLang

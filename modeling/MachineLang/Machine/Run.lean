import MachineLang.Machine.Basic
import MachineLang.Machine.Discovery

/-!
# Computations

A computation goes through layers of configurations. The first layer is the initial configuration;
each further one holds the successors of the configurations of the layer before that do not accept,
without repetitions. `Machine.testWithin` looks for an accepting configuration in a bounded number
of layers, and tells a computation that has died out from one that is still undecided.

A computation that begins with inputs keeps its heads on the stored cells or just behind them, so
that only its memory can run out; here it has as much as it needs. A configuration may also be
given, with heads anywhere. `Machine.step?` gives its successors unless a head or the cells up to it
are too far away for 64 bits and for memory.
-/

namespace MachineLang

/-- A point of a computation: a state, the tapes, and whether the machine accepts there. -/
structure Configuration where
  /-- The state. -/
  state : State
  /-- Whether the machine accepts here. -/
  accepted : Bool
  /-- The tapes. -/
  tapes : List Tape
deriving DecidableEq, Repr, Inhabited

namespace Machine

variable {k : MachineKind}

/-- The configuration of a state and tapes; whether it accepts follows from both. -/
def configuration (m : Machine k) (state : State) (tapes : List Tape) : Configuration :=
  ⟨state, m.finals.contains state && k.acceptsTapes tapes, tapes⟩

/-- The tapes at the start of a computation; tapes without an input are empty. -/
def loadTapes (m : Machine k) (inputs : List Word) : List Tape :=
  (List.range m.tapeCount).map fun i => k.load (inputs.getD i []) m.bounded

/-- The configuration in which a computation begins. More inputs than tapes are an error; tapes
without an input are empty. -/
def initialConfiguration (m : Machine k) (inputs : List Word) : Except MachineError Configuration :=
  if m.tapeCount < inputs.length then .error (.tapeIndex (inputs.length - 1) m.tapeCount)
  else .ok (m.configuration m.initial (m.loadTapes inputs))

/-- The successors of a configuration by the transitions that match what is read with a given
width. -/
def stepAt (m : Machine k) (c : Configuration) (width : Nat) : List Configuration :=
  let read := k.read width c.tapes
  (m.choicesAt c.state).flatMap fun (pattern, targets) =>
    if matchesRead false pattern read then
      targets.map fun target =>
        m.configuration target.state (k.act pattern target.action c.tapes)
    else []

/-- The successors by the largest width, up to a given one, that has any. -/
def stepFrom (m : Machine k) (c : Configuration) : Nat → List Configuration
  | 0 => []
  | width + 1 =>
    let successors := m.stepAt c (width + 1)
    if successors.isEmpty then m.stepFrom c width else successors

/-- The successors of a configuration: the longest reads that match decide. -/
def step (m : Machine k) (c : Configuration) : List Configuration := m.stepFrom c m.width

/-- The successors by the transitions that match, unless one of these cannot change the tapes. -/
def stepAt? (m : Machine k) (c : Configuration) (width : Nat) : Option (List Configuration) := do
  let read := k.read width c.tapes
  let successors ← (m.choicesAt c.state).mapM fun (pattern, targets) =>
    if matchesRead false pattern read then
      targets.mapM fun target =>
        (m.configuration target.state ·) <$> k.act? pattern target.action c.tapes
    else some []
  return successors.flatten

/-- The successors by the largest width that has any, unless finding them fails. -/
def stepFrom? (m : Machine k) (c : Configuration) : Nat → Option (List Configuration)
  | 0 => some []
  | width + 1 => do
    let successors ← m.stepAt? c (width + 1)
    if successors.isEmpty then m.stepFrom? c width else return successors

/-- The successors of a configuration, unless a transition that matches cannot change the tapes. -/
def step? (m : Machine k) (c : Configuration) : Option (List Configuration) :=
  m.stepFrom? c m.width

/-- The layer behind a layer: the successors of those of its configurations that do not accept, in
order, each only where it occurs first. -/
def nextLayer (m : Machine k) (layer : List Configuration) : List Configuration :=
  newOnes id [] ((layer.filter fun c => !c.accepted).flatMap m.step)

/-- The first `count` layers from a given one on, as far as they are not empty. -/
def layersFrom (m : Machine k) : Nat → List Configuration → List (List Configuration)
  | 0, _ => []
  | count + 1, layer =>
    if layer.isEmpty then [] else layer :: m.layersFrom count (m.nextLayer layer)

/-- The first `count` layers of a computation, from that of its first configuration on. -/
def layers (m : Machine k) (inputs : List Word) (count : Nat) :
    Except MachineError (List (List Configuration)) := do
  return m.layersFrom count [← m.initialConfiguration inputs]

/-- Looks for an accepting configuration in `limit` layers from a given one on. The answer is
negative if the computation dies out, and missing if it goes on behind the last layer. -/
def verdictFrom (m : Machine k) : Nat → List Configuration → Option Bool
  | limit, layer =>
    if layer.isEmpty then some false
    else
      match limit with
      | 0 => none
      | limit + 1 =>
        if layer.any Configuration.accepted then some true
        else m.verdictFrom limit (m.nextLayer layer)

/-- Runs a machine for at most `limit` layers. -/
def testWithin (m : Machine k) (inputs : List Word) (limit : Nat) :
    Except MachineError (Option Bool) := do
  return m.verdictFrom limit [← m.initialConfiguration inputs]

/-- How many layers a test explores unless stated otherwise. -/
def defaultLimit : Nat := 10000

/-- Whether a machine accepts a word on its first tape; a word that is not decided within the
default number of layers is not accepted. -/
def accepts (m : Machine k) (input : Word) : Bool :=
  match m.testWithin [input] defaultLimit with
  | .ok (some true) => true
  | _ => false

end Machine

end MachineLang

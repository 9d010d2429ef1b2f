import MachineLang.Machine.Reach

/-!
# Suspicious machines

`Machine.analyze` looks for states that cannot be reached, for states that lead to no final state,
for states with more than one way to go on, and for machines without final states.
-/

namespace MachineLang

/-- Something suspicious about a machine, with the states that it concerns in increasing order. -/
inductive Finding
  /-- There are no final states. -/
  | noFinalStates
  /-- These states cannot be reached from the initial state. -/
  | unreachable (states : List State)
  /-- No final state can be reached from these states. -/
  | dead (states : List State)
  /-- These states have more than one way to go on. -/
  | nonDeterministic (states : List State)
deriving DecidableEq, Repr

namespace Finding

/-- The states that a finding is about. -/
def states : Finding → List State
  | noFinalStates => []
  | unreachable states => states
  | dead states => states
  | nonDeterministic states => states

/-- The finding as named in encoded values. -/
def tag : Finding → String
  | noFinalStates => "NoFinalStates"
  | unreachable _ => "UnreachableStates"
  | dead _ => "DeadStates"
  | nonDeterministic _ => "NonDeterministic"

/-- The finding in words, as the command line shows it. -/
def text : Finding → String
  | noFinalStates => "No final states"
  | unreachable states => "Unreachable states: " ++ String.intercalate ", " states
  | dead states => "States that cannot reach a final state: " ++ String.intercalate ", " states
  | nonDeterministic states => "Non-deterministic states: " ++ String.intercalate ", " states

end Finding

/-- Whether two patterns can match the same read: on each tape they are equal, or one of them is
empty. -/
def overlap : List Symbol → List Symbol → Bool
  | [], [] => true
  | x :: xs, y :: ys => (x == y || x == epsilon || y == epsilon) && overlap xs ys
  | _, _ => false

/-- Whether some pattern of a list can match the same read as a later one. -/
def anyOverlap : List (List Symbol) → Bool
  | [] => false
  | pattern :: rest => rest.any (overlap pattern) || anyOverlap rest

namespace Machine

variable {k : MachineKind}

/-- Whether there is more than one way to go on by these transitions. -/
def isAmbiguous (choices : Choices k) : Bool :=
  choices.entries.any (fun e => decide (1 < e.2.length)) || anyOverlap choices.keys

/-- The states with more than one way to go on. -/
def nonDeterministicStates (m : Machine k) : List State :=
  (m.choices.entries.filter fun e => isAmbiguous e.2).map Prod.fst

/-- Whether no state has more than one way to go on. -/
def isDeterministic (m : Machine k) : Bool := m.nonDeterministicStates.isEmpty

/-- Whether an automaton is deterministic and has no transition that reads nothing. -/
def isStrictlyDeterministic (m : Machine .finite) : Bool :=
  m.isDeterministic && m.choices.entries.all fun e =>
    e.2.keys.all fun pattern => pattern.any (· != epsilon)

/-- The states that cannot be reached from the initial one. -/
def unreachableStates (m : Machine k) : List State :=
  (m.states.difference (m.reachable m.initial none)).toList

/-- The states from which no final state can be reached. -/
def deadStates (m : Machine k) : List State :=
  m.states.toList.filter fun state => (m.reachable state none).isDisjoint m.finals

/-- A finding about some states, if there are any. -/
def findingAbout (finding : List State → Finding) (states : List State) : List Finding :=
  if states.isEmpty then [] else [finding states]

/-- Everything suspicious about a machine, in a fixed order. States that lead nowhere are only
listed if there is a final state to lead to. -/
def analyze (m : Machine k) : List Finding :=
  (if m.finals.isEmpty then [.noFinalStates] else []) ++
    findingAbout .unreachable m.unreachableStates ++
    (if m.finals.isEmpty then [] else findingAbout .dead m.deadStates) ++
    findingAbout .nonDeterministic m.nonDeterministicStates

end Machine

end MachineLang

import MachineLang.Machine.Basic
import MachineLang.Machine.Discovery

/-!
# Reachable states

Reachability in the graph of a machine, whatever is on the tapes: by all transitions, or by those
that read a given symbol from every tape.
-/

namespace MachineLang.Machine

variable {k : MachineKind}

/-- The states that are one transition away. With a symbol, only transitions count that read it from
every tape. -/
def neighbours (m : Machine k) (symbol : Option Symbol) (state : State) : List State :=
  (m.choicesAt state).flatMap fun (read, targets) =>
    if symbol.all fun s => matchesRead true read (List.replicate m.tapeCount s) then
      targets.map Target.state
    else []

/-- The number of transitions, as they are listed. -/
def size (m : Machine k) : Nat := m.transitions.length

/-- The states that can be reached, in the order of a breadth-first search. A state is expanded only
if it is the origin or the target of a transition. -/
def reachableInOrder (m : Machine k) (symbol : Option Symbol) (origin : State) : List State :=
  discover id (m.neighbours symbol) (m.size + 1) [origin]

/-- The states that can be reached from a state, itself included. -/
def reachable (m : Machine k) (origin : State) (symbol : Option Symbol) : SortedSet State :=
  .ofList (m.reachableInOrder symbol origin)

/-- The states that can be reached from a state without reading. -/
def closure (m : Machine k) (state : State) : SortedSet State := m.reachable state (some epsilon)

/-- The closure of every state: the states that can be reached from it without reading. -/
def closures (m : Machine k) : SortedMap State (SortedSet State) :=
  .ofList (m.states.toList.map fun state => (state, m.closure state))

end MachineLang.Machine

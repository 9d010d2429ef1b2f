import MachineLang.Machine.Basic

/-!
# Renaming states

Before two machines are joined, the states of the second are given names that the first does not use
(`Machine.apart`), unless the numbers in them become too large (`Machine.apart?`).
`Transition.rename` applies a renaming, and `Machine.epsilonTransition` builds the bridges between
the parts of a joined machine.
-/

namespace MachineLang

/-- New names for some states; the others keep theirs. -/
abbrev Renaming := SortedMap State State

namespace Renaming

/-- The new name of a state; a state without one keeps its own. -/
def rename (r : Renaming) (state : State) : State := (r.find? state).getD state

end Renaming

/-- The transition between the new names of its states. -/
def Transition.rename {k : MachineKind} (r : Renaming) (t : Transition k) : Transition k :=
  { t with source := r.rename t.source, target := r.rename t.target }

/-- Pairs states with names that are not in `own`. A state whose name is there gets a fresh one,
which is neither in `taken` nor given to another state. -/
def namesApart (own : SortedSet State) : List String → List State → List (State × State)
  | _, [] => []
  | taken, state :: rest =>
    if own.contains state then
      let name := freshName state taken
      (state, name) :: namesApart own (name :: taken) rest
    else (state, state) :: namesApart own taken rest

/-- The searches for fresh names that `namesApart` makes: from which name, and with which names
taken. -/
def searchesApart (own : SortedSet State) : List String → List State → List (State × List String)
  | _, [] => []
  | taken, state :: rest =>
    if own.contains state then
      (state, taken) :: searchesApart own (freshName state taken :: taken) rest
    else searchesApart own taken rest

/-- The pairs of `namesApart`, unless one of its searches fails. -/
def namesApart? (own : SortedSet State) : List String → List State → Option (List (State × State))
  | _, [] => some []
  | taken, state :: rest =>
    if own.contains state then do
      let name ← freshName? state taken
      return (state, name) :: (← namesApart? own (name :: taken) rest)
    else return (state, state) :: (← namesApart? own taken rest)

namespace Machine

variable {k : MachineKind}

/-- Names for the states of another machine that are not names of this one's. -/
def apart (m other : Machine k) : Renaming :=
  .ofList (namesApart m.states (m.states.toList ++ other.states.toList) other.states.toList)

/-- The searches for new names of the states of another machine. -/
def searches (m other : Machine k) : List (State × List String) :=
  searchesApart m.states (m.states.toList ++ other.states.toList) other.states.toList

/-- Names for the states of another machine, unless the search for one of them fails. -/
def apart? (m other : Machine k) : Option Renaming :=
  (namesApart? m.states (m.states.toList ++ other.states.toList) other.states.toList).map .ofList

/-- A transition that reads nothing and only changes the state. -/
def epsilonTransition (m : Machine k) (source target : State) : Transition k :=
  ⟨source, List.replicate m.tapeCount epsilon, target, k.neutral m.tapeCount⟩

/-- Refuses a pair of machines with different numbers of tapes. -/
def sameTapes (m other : Machine k) : Except MachineError Unit :=
  if m.tapeCount = other.tapeCount then .ok ()
  else .error (.incompatibleTapes m.tapeCount other.tapeCount)

end Machine

end MachineLang

import MachineLang.Machine.Reach
import MachineLang.Machine.Rename

/-!
# Numbering the states of a machine

`Machine.reenumerate` gives the states that can be reached from the initial one new names, in the
order of a breadth-first search, and drops all others.
-/

namespace MachineLang

/-- Gives names to states in turn. The state with number `i` gets the `i`-th proposed name, or else,
if there is none or it is in use, its default name or a version of it. -/
def nameInTurn (names : Nat → Option State) : Nat → List String → List State → List (State × State)
  | _, _, [] => []
  | i, used, state :: rest =>
    let name := ((names i).filter fun name => !used.contains name).getD
      (freshName (numberedName i) used)
    (state, name) :: nameInTurn names (i + 1) (name :: used) rest

namespace Machine

variable {k : MachineKind}

/-- The new names of the states that can be reached. -/
def numbering (m : Machine k) (names : Nat → Option State) : Renaming :=
  .ofList (nameInTurn names 0 [] (m.reachableInOrder none m.initial))

/-- The part of a machine that can be reached, under the new names that it has there. -/
def restrictTo (m : Machine k) (r : Renaming) : Machine k :=
  build {
    transitions := (m.transitions.filter fun t => r.contains t.source).map (Transition.rename r)
    initial := r.rename m.initial
    finals := .ofList (m.finals.toList.filterMap r.find?)
    tapes := m.tapes
    alphabet := m.alphabet
    bounded := m.bounded }

/-- The machine with the proposed names for its states, given in the order of a breadth-first
search. States that cannot be reached are dropped. -/
def reenumerate (m : Machine k) (names : Nat → Option State) : Machine k :=
  m.restrictTo (m.numbering names)

/-- The machine with its states numbered, under the default names. -/
def numbered (m : Machine k) : Machine k := m.reenumerate fun i => some (numberedName i)

end Machine

end MachineLang

import MachineLang.Machine.Reach
import MachineLang.Machine.Union

/-!
# The subset construction

A deterministic automaton follows all paths of a finite automaton at once: its states are sets of
states, closed under transitions that read nothing, and each is named by its members.
`Machine.intersection` follows two automata at once in the same way, and accepts where both do.
-/

namespace MachineLang.Machine

/-- The states in which a set of states can end by reading a symbol and then nothing. -/
def successorSet (m : Machine .finite) (states : SortedSet State) (symbol : Symbol) :
    SortedSet State :=
  .ofList (states.toList.flatMap fun state =>
    (m.choicesAt state).flatMap fun (pattern, targets) =>
      if matchesRead true pattern (List.replicate m.tapeCount symbol) then
        targets.flatMap fun target => (m.closure target.state).toList
      else [])

/-- The sets that follow a set, with the symbols that lead to them. -/
def successorSets (m : Machine .finite) (states : SortedSet State) :
    List (Symbol × SortedSet State) :=
  (m.alphabet.toList.map fun symbol => (symbol, m.successorSet states symbol)).filter fun next =>
    !next.2.isEmpty

/-- More than the number of sets of states. -/
def subsetBound (m : Machine .finite) : Nat := Nat.pow 2 m.states.toList.length + 1

/-- The sets of states that words lead to. -/
def subsets (m : Machine .finite) : List (SortedSet State) :=
  discover compositeName (fun states => (m.successorSets states).map Prod.snd) m.subsetBound
    [m.closure m.initial]

/-- The transitions that leave a set of states. -/
def subsetTransitions (m : Machine .finite) (states : SortedSet State) :
    List (Transition .finite) :=
  (m.successorSets states).map fun (symbol, next) =>
    ⟨compositeName states, List.replicate m.tapeCount symbol, compositeName next, ()⟩

/-- The automaton of the sets of states that words lead to; `accepting` tells which of them
accept. -/
def subsetMachine (m : Machine .finite) (accepting : SortedSet State → Bool) : Machine .finite :=
  let subsets := m.subsets
  build {
    transitions := subsets.flatMap m.subsetTransitions
    initial := compositeName (m.closure m.initial)
    finals := .ofList ((subsets.filter accepting).map compositeName)
    tapes := m.tapes
    alphabet := m.alphabet
    bounded := m.bounded }

/-- A deterministic automaton for the same words: its states stand for sets of states, and a set is
final if one of its states is. -/
def determinize (m : Machine .finite) : Machine .finite :=
  m.subsetMachine fun states => !states.isDisjoint m.finals

/-- The automaton of the words that both automata accept. -/
def intersection (m other : Machine .finite) : Except MachineError (Machine .finite) := do
  m.sameTapes other
  let r := m.apart other
  let otherFinals := SortedSet.ofList (other.finals.toList.map r.rename)
  return (m.unionRenamed other r).subsetMachine fun states =>
    !states.isDisjoint m.finals && !states.isDisjoint otherFinals

end MachineLang.Machine

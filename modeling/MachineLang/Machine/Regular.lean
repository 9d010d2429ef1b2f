import MachineLang.Machine.Rename

/-!
# The regular operations

Complement, concatenation, iteration and reversal of finite automata.
-/

namespace MachineLang.Machine

/-- The automaton with its final states exchanged for the others. It accepts the other words if the
automaton is deterministic and has a transition for every state and symbol. -/
def complement (m : Machine .finite) : Machine .finite :=
  build { m.definition with finals := m.states.difference m.finals }

/-- The automaton of a word of the first automaton followed by one of the second. -/
def concatenateRenamed (m other : Machine .finite) (r : Renaming) : Machine .finite :=
  build {
    transitions := m.transitions ++ other.transitions.map (Transition.rename r) ++
      m.finals.toList.map fun state => m.epsilonTransition state (r.rename other.initial)
    initial := m.initial
    finals := .ofList (other.finals.toList.map r.rename)
    tapes := m.tapes
    states := m.states.insertAll (other.states.toList.map r.rename)
    alphabet := m.alphabet.union other.alphabet
    bounded := m.bounded }

/-- The automaton of a word of the first automaton followed by one of the second. -/
def concatenate (m other : Machine .finite) : Except MachineError (Machine .finite) := do
  m.sameTapes other
  return m.concatenateRenamed other (m.apart other)

/-- Whether 64 bits suffice for the number in the name of a new initial state. -/
def canStart (m : Machine .finite) : Bool := (freshName? m.initial m.states.toList).isSome

/-- The automaton of any number of words of an automaton, one behind the other. -/
def star (m : Machine .finite) : Machine .finite :=
  let start := freshName m.initial m.states.toList
  build { m.definition with
    transitions := m.transitions ++ [m.epsilonTransition start m.initial] ++
      m.finals.toList.map fun state => m.epsilonTransition state start
    finals := m.finals.insert start
    initial := start }

/-- The transition turned around, with its symbols reversed. -/
def reverseTransition (t : Transition .finite) : Transition .finite :=
  ⟨t.target, t.read.map List.reverse, t.source, t.action⟩

/-- The automaton of the reversed words: its transitions are turned around, and a new initial state
leads to the states that were final. -/
def reverse (m : Machine .finite) : Machine .finite :=
  let start := freshName m.initial m.states.toList
  build {
    transitions := m.transitions.map reverseTransition ++
      m.finals.toList.map fun state => m.epsilonTransition start state
    initial := start
    finals := .single m.initial
    tapes := m.tapes
    states := m.states
    alphabet := .ofList (m.alphabet.toList.map List.reverse)
    bounded := m.bounded }

end MachineLang.Machine

import MachineLang.Machine.Rename

/-!
# Union

The union of two machines is both of them side by side, with a new initial state that leads without
reading into the initial state of either.
-/

namespace MachineLang.Machine

variable {k : MachineKind}

/-- The union, with the states of the other machine renamed. -/
def unionRenamed (m other : Machine k) (r : Renaming) : Machine k :=
  let renamed := other.states.toList.map r.rename
  let initial := freshName m.initial (m.states.toList ++ renamed)
  build {
    transitions := m.transitions ++ other.transitions.map (Transition.rename r) ++
      [m.epsilonTransition initial m.initial,
       m.epsilonTransition initial (r.rename other.initial)]
    initial := initial
    finals := m.finals.insertAll (other.finals.toList.map r.rename)
    tapes := m.tapes
    states := m.states.insertAll renamed
    alphabet := m.alphabet.union other.alphabet
    bounded := m.bounded }

/-- Whether 64 bits suffice for the numbers in the new names of a union. -/
def canUnite (m other : Machine k) : Bool :=
  match m.apart? other with
  | some r =>
    (freshName? m.initial (m.states.toList ++ other.states.toList.map r.rename)).isSome
  | none => false

/-- The machine that accepts what either machine accepts. -/
def union (m other : Machine k) : Except MachineError (Machine k) := do
  m.sameTapes other
  return m.unionRenamed other (m.apart other)

end MachineLang.Machine

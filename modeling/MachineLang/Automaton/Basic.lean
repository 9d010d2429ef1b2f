import MachineLang.Grammar.Basic
import MachineLang.Machine.Regular
import MachineLang.Machine.Reenumerate
import MachineLang.Machine.Run
import MachineLang.Machine.Subset

/-!
# Automata

What a declaration declares: a machine of any kind, or a grammar.
-/

namespace MachineLang

/-- What a program declares under a name: a machine of one of the three kinds, or a grammar. -/
inductive Automaton
  /-- A machine. -/
  | machine {kind : MachineKind} (m : Machine kind)
  /-- A grammar. -/
  | grammar (g : Grammar)
deriving DecidableEq, Repr

namespace Automaton

instance : Inhabited Automaton := ⟨.grammar default⟩

/-- The kind of a machine; a grammar has none. -/
def kind? : Automaton → Option MachineKind
  | @machine kind _ => some kind
  | grammar _ => none

/-- The kind as named in messages. -/
def kindName (a : Automaton) : String := (a.kind?.map MachineKind.name).getD "grammar"

/-- Runs a machine for at most `limit` layers. A grammar cannot be run. -/
def testWithin (a : Automaton) (inputs : List Word) (limit : Nat) :
    Option (Except MachineError (Option Bool)) :=
  match a with
  | machine m => some (m.testWithin inputs limit)
  | grammar _ => none

/-- The result of an operator on two automata, or nothing if it is not defined for their kinds. -/
def combine (op : BinaryOp) (left right : Automaton) : Option (Except MachineError Automaton) :=
  match op, left, right with
  | .union, @machine k a, @machine l b =>
    if h : l = k then some (machine <$> a.union (h ▸ b)) else none
  | .intersection, @machine .finite a, @machine .finite b => some (machine <$> a.intersection b)
  | .concatenate, @machine .finite a, @machine .finite b => some (machine <$> a.concatenate b)
  | _, _, _ => none

/-- The result of an operator on a finite automaton. -/
def change (op : UnaryOp) (m : Machine .finite) : Machine .finite :=
  match op with
  | .complement => m.complement
  | .determinize => m.determinize
  | .reenumerate => m.numbered
  | .star => m.star
  | .reverse => m.reverse

/-- Whether 64 bits suffice for the numbers in the new names when two automata are combined. -/
def canCombine (op : BinaryOp) (left right : Automaton) : Bool :=
  match op, left, right with
  | .union, @machine k a, @machine l b => if h : l = k then a.canUnite (h ▸ b) else true
  | .intersection, @machine .finite a, @machine .finite b => a.canUnite b
  | .concatenate, @machine .finite a, @machine .finite b => (a.apart? b).isSome
  | _, _, _ => true

/-- Whether 64 bits suffice for the numbers in the new names when an automaton is changed. -/
def canChange (op : UnaryOp) (m : Machine .finite) : Bool :=
  match op with
  | .star | .reverse => m.canStart
  | .complement | .determinize | .reenumerate => true

end Automaton

end MachineLang

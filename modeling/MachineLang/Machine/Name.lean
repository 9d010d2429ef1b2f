import MachineLang.Ordered.Set
import MachineLang.Machine.Kind

/-!
# State names

Composite states are named by the sorted names of their members, joined by commas. `freshName` finds
a name that is not taken: the name itself, or else its stem with the next free number. It counts in
exact numbers. A program counts with 64 bits, so that a search that comes to a larger number fails:
`freshName?` gives a name only if all numbers of the search fit.
-/

namespace MachineLang

/-- The number of numbers that 64 bits can tell apart. -/
def versionLimit : Nat := 18446744073709551616

/-- The name of a set of states: their names in increasing order, joined by commas. -/
def compositeName (states : SortedSet State) : State := String.intercalate "," states.toList

/-- The parts of a text between the occurrences of a character. -/
def splitAtChar (c : Char) : List Char → List (List Char)
  | [] => [[]]
  | d :: ds =>
    if d = c then [] :: splitAtChar c ds
    else
      match splitAtChar c ds with
      | [] => [[d]]
      | part :: parts => (d :: part) :: parts

/-- The names that a composite name joins, if none of them has a comma in it. -/
def splitComposite (name : State) : List State := (splitAtChar ',' name.toList).map String.ofList

/-- The name without the digits at its end. -/
def stem (name : List Char) : List Char := (name.reverse.dropWhile Char.isDigit).reverse

/-- The digits at the end of a name. -/
def versionDigits (name : List Char) : List Char := (name.reverse.takeWhile Char.isDigit).reverse

/-- The number at the end of a name, if there is one and it fits into 64 bits. -/
def version? (base : State) : Option Nat :=
  match versionDigits base.toList with
  | [] => none
  | digits =>
    let version := digits.foldl (fun n c => 10 * n + (c.toNat - '0'.toNat)) 0
    if version < versionLimit then some version else none

/-- The number that the search for a fresh name begins with: one more than that of the name, or one
if the name has no number or one that is too large to count with. -/
def firstVersion (base : State) : Nat :=
  match version? base with
  | some version => version + 1
  | none => 1

/-- The name with another number at its end. -/
def versionName (base : State) (version : Nat) : State :=
  .ofList (stem base.toList) ++ toString version

/-- The next number from a given one on whose name is not taken. No more than `tries` numbers are
skipped. -/
def freshVersionFrom (base : State) (taken : List State) : Nat → Nat → Nat
  | 0, version => version
  | tries + 1, version =>
    if taken.contains (versionName base version) then
      freshVersionFrom base taken tries (version + 1)
    else version

/-- The number that the search for a fresh name ends with. Of one more number than there are taken
names, one gives a free name. -/
def freshVersion (base : State) (taken : List State) : Nat :=
  freshVersionFrom base taken taken.length (firstVersion base)

/-- A name that is not taken: `base` itself, or its stem with a number. -/
def freshName (base : State) (taken : List State) : State :=
  if taken.contains base then versionName base (freshVersion base taken) else base

/-- The fresh name, unless the search for it comes to a number that does not fit into 64 bits. The
last number of the search is the largest one. -/
def freshName? (base : State) (taken : List State) : Option State :=
  if taken.contains base && versionLimit ≤ freshVersion base taken then none
  else some (freshName base taken)

/-- The default name of the state with number `i`. -/
def numberedName (i : Nat) : State := "q" ++ toString i

end MachineLang

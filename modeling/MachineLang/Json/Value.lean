/-!
# JSON values

Values as they cross the boundary of the program. Objects keep their fields in order, and may repeat
them. Numbers other than integers of 64 bits are told apart from them, but carry no value, since
nothing encoded here uses them.
-/

namespace MachineLang

/-- A JSON value. Of numbers only integers are told apart, since nothing else is read back. -/
inductive Json
  /-- The null value. -/
  | null
  /-- A truth value. -/
  | bool (b : Bool)
  /-- An integer that 64 bits can hold, with or without a sign. -/
  | int (n : Int)
  /-- Any other number. -/
  | fraction
  /-- A text. -/
  | string (s : String)
  /-- A sequence of values. -/
  | array (items : List Json)
  /-- Named values, in order. -/
  | object (fields : List (String × Json))
deriving Repr, Inhabited

namespace Json

/-- A number that counts something, as an integer. -/
def nat (n : Nat) : Json := .int n

/-- A sequence of texts as an array of strings. -/
def strings (texts : List String) : Json := .array (texts.map .string)

/-- The first field of a name. -/
def field? (name : String) : Json → Option Json
  | .object fields => fields.lookup name
  | _ => none

end Json

end MachineLang

/-!
# The size of numbers

How the digits of a number are gathered, and which numbers are too large to be read. A number keeps
as many digits as 64 bits can hold, and a power of ten stands for the others. It is too large if the
product of the two is beyond the range of double precision numbers.
-/

namespace MachineLang.Json

/-- The number that a sequence of digits stands for. -/
def digitsValue (digits : List Char) : Nat :=
  digits.foldl (fun n c => 10 * n + (c.toNat - '0'.toNat)) 0

/-- Appends digits to a number as long as 64 bits can hold it, and gives back the digits that are
left. -/
def appendDigits (n : Nat) : List Char → Nat × List Char
  | [] => (n, [])
  | c :: digits =>
    let longer := 10 * n + (c.toNat - '0'.toNat)
    if longer < 18446744073709551616 then appendDigits longer digits else (n, c :: digits)

/-- The double precision number closest to a natural number: 53 significant bits, and of two numbers
equally close the one whose last bit is zero. -/
def toDouble (n : Nat) : Nat :=
  -- The weight of the last significant bit.
  let unit := Nat.pow 2 (Nat.log2 n - 52)
  let below := n / unit
  let rest := n % unit
  if 2 * rest < unit ∨ (2 * rest = unit ∧ below % 2 = 0) then below * unit else (below + 1) * unit

/-- The exponent of the largest power of ten in the range of double precision numbers. -/
def maxScale : Nat := 308

/-- Whether `significand * 10 ^ exponent` is too large for a double precision number. The product is
taken of the double precision numbers closest to its factors, and is too large from halfway between
the largest finite number and the next power of two on. -/
def isTooLarge (significand : Nat) (exponent : Int) : Bool :=
  if significand = 0 ∨ exponent < 0 then false
  else if maxScale < exponent then true
  else Nat.pow 2 1024 - Nat.pow 2 970 ≤
    toDouble significand * toDouble (Nat.pow 10 exponent.toNat)

end MachineLang.Json

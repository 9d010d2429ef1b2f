import MachineLang.Json.Number
import MachineLang.Json.Value
import MachineLang.Text.Offset

/-!
# Reading JSON

`Json.ofText?` reads a whole text. A text that is cut short (`unfinished`) is told apart from one
that is wrong where it stands (`malformed`). Values are nested at most `maxDepth` deep.
-/

namespace MachineLang.Json

/-- Why a text is not JSON: it goes wrong somewhere, or it ends too early. -/
inductive ReadError
  /-- No text goes on like this. -/
  | malformed
  /-- The text ends too early. -/
  | unfinished
deriving DecidableEq, Repr

/-- How deep values may be nested, so that no text makes a reader run out of memory. -/
def maxDepth : Nat := 127

/-- The text without the spacing in front of it. -/
def skipSpace (text : List Char) : List Char :=
  text.dropWhile fun c => c == ' ' || c == '\n' || c == '\t' || c == '\r'

/-- The value of a hexadecimal digit. -/
def hexValue? (c : Char) : Option Nat :=
  if '0' ≤ c ∧ c ≤ '9' then some (c.toNat - '0'.toNat)
  else if 'a' ≤ c ∧ c ≤ 'f' then some (c.toNat - 'a'.toNat + 10)
  else if 'A' ≤ c ∧ c ≤ 'F' then some (c.toNat - 'A'.toNat + 10)
  else none

/-- The code unit that four hexadecimal digits stand for. -/
def hexUnit? (a b c d : Char) : Option Nat := do
  return ((← hexValue? a) * 16 + (← hexValue? b)) * 256 + (← hexValue? c) * 16 + (← hexValue? d)

/-- What is wrong with a text that ought to begin with four hexadecimal digits, but has fewer than
four characters: it is cut short, unless it still has four bytes. -/
def shortHex (text : List Char) : ReadError :=
  if byteLength text < 4 then .unfinished else .malformed

/-- Whether a code unit is the first of a pair. -/
def isLeading (n : Nat) : Bool := 0xD800 ≤ n && n ≤ 0xDBFF

/-- Whether a code unit is the second of a pair. -/
def isTrailing (n : Nat) : Bool := 0xDC00 ≤ n && n ≤ 0xDFFF

/-- The character that a letter behind a backslash stands for. -/
def shortEscape? : Char → Option Char
  | '"' => some '"'
  | '\\' => some '\\'
  | '/' => some '/'
  | 'b' => some '\x08'
  | 'f' => some '\x0c'
  | 'n' => some '\n'
  | 'r' => some '\r'
  | 't' => some '\t'
  | _ => none

/-- The rest of a string whose opening quote has been read; `before` holds its characters in
reverse. -/
def readString (before : List Char) : List Char → Except ReadError (String × List Char)
  | [] => .error .unfinished
  | '"' :: rest => .ok (.ofList before.reverse, rest)
  | '\\' :: rest =>
    match rest with
    | [] => .error .unfinished
    | 'u' :: a :: b :: c :: d :: rest =>
      match hexUnit? a b c d with
      | none => .error .malformed
      | some n =>
        if isTrailing n then .error .malformed
        else if isLeading n then
          match rest with
          | [] => .error .unfinished
          | ['\\'] => .error .unfinished
          | '\\' :: 'u' :: a :: b :: c :: d :: rest =>
            match hexUnit? a b c d with
            | none => .error .malformed
            | some m =>
              if isTrailing m then
                readString
                  (Char.ofNat (0x10000 + (n - 0xD800) * 0x400 + (m - 0xDC00)) :: before) rest
              else .error .malformed
          | '\\' :: 'u' :: short => .error (shortHex short)
          | _ => .error .malformed
        else readString (Char.ofNat n :: before) rest
    | 'u' :: short => .error (shortHex short)
    | c :: rest =>
      match shortEscape? c with
      | some c => readString (c :: before) rest
      | none => .error .malformed
  | c :: rest => if c.toNat < 0x20 then .error .malformed else readString (c :: before) rest

/-- A number of 64 bits without fraction and exponent. Zero with a sign, and what 64 bits cannot
hold together with a sign, is no integer. -/
def integer (negative : Bool) (n : Nat) : Json :=
  if negative then if n = 0 ∨ 9223372036854775808 < n then .fraction else .int (-n)
  else .int n

/-- The digits in front of a text, at least one. -/
def readDigits (text : List Char) : Except ReadError (List Char × List Char) :=
  match text with
  | [] => .error .unfinished
  | c :: _ =>
    if c.isDigit then .ok (text.takeWhile Char.isDigit, text.dropWhile Char.isDigit)
    else .error .malformed

/-- The exponent of a number, whose letter has been read. -/
def readExponent (text : List Char) : Except ReadError (Int × List Char) :=
  match text with
  | '-' :: rest => do
    let (digits, rest) ← readDigits rest
    return (-(digitsValue digits : Int), rest)
  | '+' :: rest => do
    let (digits, rest) ← readDigits rest
    return ((digitsValue digits : Int), rest)
  | text => do
    let (digits, rest) ← readDigits text
    return ((digitsValue digits : Int), rest)

/-- A number that is no integer. -/
def fractional (significand : Nat) (exponent : Int) (rest : List Char) :
    Except ReadError (Json × List Char) :=
  if isTooLarge significand exponent then .error .malformed else .ok (.fraction, rest)

/-- Whether a text begins with the letter of an exponent. -/
def beginsExponent (text : List Char) : Bool := text.head? == some 'e' || text.head? == some 'E'

/-- The rest of a number that is no integer behind its last digit: perhaps an exponent, which moves
the one that the digits before it account for. -/
def readScale (significand : Nat) (exponent : Int) (text : List Char) :
    Except ReadError (Json × List Char) := do
  if beginsExponent text then
    let (scale, rest) ← readExponent (text.drop 1)
    fractional significand (exponent + scale) rest
  else fractional significand exponent text

/-- A number whose sign has been read. Its digits make up the significand until 64 bits cannot hold
one more. Each digit before the point that is left out then counts as a power of ten, and those
behind the point do not matter. -/
def readNumber (negative : Bool) (text : List Char) : Except ReadError (Json × List Char) := do
  let (whole, rest) ← readDigits text
  -- A leading zero stands alone.
  if whole.head? = some '0' ∧ 1 < whole.length then throw .malformed
  let (significand, omitted) := appendDigits 0 whole
  match rest with
  | '.' :: rest =>
    let (part, rest) ← readDigits rest
    let (significand, ignored) := appendDigits significand part
    readScale significand (omitted.length - (part.length - ignored.length : Nat)) rest
  | rest =>
    if omitted.isEmpty && !beginsExponent rest then return (integer negative significand, rest)
    else readScale significand omitted.length rest

/-- A fixed word, which stands for the given value. A text that ends in the middle of it is
unfinished. -/
def readWord (value : Json) : List Char → List Char → Except ReadError (Json × List Char)
  | [], rest => .ok (value, rest)
  | _ :: _, [] => .error .unfinished
  | c :: cs, d :: rest => if c = d then readWord value cs rest else .error .malformed

/-- The rest of an array behind its first item or its opening bracket: `first` says which. -/
def readItems (item : List Char → Except ReadError (Json × List Char)) :
    Nat → Bool → List Json → List Char → Except ReadError (List Json × List Char)
  | 0, _, _, _ => .error .unfinished
  | steps + 1, first, before, text =>
    match skipSpace text with
    | [] => .error .unfinished
    | ']' :: rest => .ok (before.reverse, rest)
    | c :: rest => do
      let text ← if first then pure (c :: rest)
        else if c ≠ ',' then throw .malformed
        else match skipSpace rest with
          | [] => throw .unfinished
          | ']' :: _ => throw .malformed
          | text => pure text
      let (value, rest) ← item text
      readItems item steps false (value :: before) rest

/-- The next field name of an object behind its first field or its opening brace, or nothing at the
closing brace. -/
def readNextName (first : Bool) (text : List Char) :
    Except ReadError (Option String × List Char) := do
  match skipSpace text with
  | [] => throw .unfinished
  | '\x7d' :: rest => return (none, rest)
  | c :: rest =>
    let text ← if first then pure (c :: rest)
      else if c = ',' then pure (skipSpace rest) else throw .malformed
    match text with
    | [] => throw .unfinished
    | '"' :: rest =>
      let (name, rest) ← readString [] rest
      return (some name, rest)
    | _ => throw .malformed

/-- The colon behind the name of a field. -/
def readColon (text : List Char) : Except ReadError (List Char) :=
  match skipSpace text with
  | [] => .error .unfinished
  | ':' :: rest => .ok rest
  | _ => .error .malformed

/-- The rest of an object behind its first field or its opening brace. -/
def readFields (item : List Char → Except ReadError (Json × List Char)) :
    Nat → Bool → List (String × Json) → List Char →
      Except ReadError (List (String × Json) × List Char)
  | 0, _, _, _ => .error .unfinished
  | steps + 1, first, before, text => do
    match ← readNextName first text with
    | (none, rest) => return (before.reverse, rest)
    | (some name, rest) =>
      let (value, rest) ← item (← readColon rest)
      readFields item steps false ((name, value) :: before) rest

/-- A value, nested at most `depth` deep, whose arrays and objects have fewer than `limit` items. -/
def readValue (limit : Nat) : Nat → List Char → Except ReadError (Json × List Char)
  | depth, text =>
    match skipSpace text with
    | [] => .error .unfinished
    | 'n' :: rest => readWord .null "ull".toList rest
    | 't' :: rest => readWord (.bool true) "rue".toList rest
    | 'f' :: rest => readWord (.bool false) "alse".toList rest
    | '-' :: rest => readNumber true rest
    | '"' :: rest => do
      let (s, rest) ← readString [] rest
      return (.string s, rest)
    | '[' :: rest =>
      match depth with
      | 0 => .error .malformed
      | depth + 1 => do
        let (items, rest) ← readItems (readValue limit depth) limit true [] rest
        return (.array items, rest)
    | '\x7b' :: rest =>
      match depth with
      | 0 => .error .malformed
      | depth + 1 => do
        let (fields, rest) ← readFields (readValue limit depth) limit true [] rest
        return (.object fields, rest)
    | c :: rest => if c.isDigit then readNumber false (c :: rest) else .error .malformed

/-- Makes sure that nothing but spacing is left. -/
def readEnd (text : List Char) : Except ReadError Unit :=
  if (skipSpace text).isEmpty then .ok () else .error .malformed

/-- Reads a text that holds one value, with nothing but spacing around it. -/
def ofText? (text : String) : Except ReadError Json := do
  let text := text.toList
  let (value, rest) ← readValue (text.length + 1) maxDepth text
  readEnd rest
  return value

end MachineLang.Json

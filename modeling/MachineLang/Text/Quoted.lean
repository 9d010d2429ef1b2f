import MachineLang.Text.Unprintable
import MachineLang.Text.Combining

/-!
# Quoted text

How a text is written in messages: between double quotes, with a backslash before quotes and
backslashes, short escapes for the common controls, and the code point in braces for any other
character that would not show as itself.
-/

namespace MachineLang

/-- A hexadecimal digit in lower case. -/
def hexDigit (n : Nat) : Char := Nat.digitChar (n % 16)

/-- A number in hexadecimal, without leading zeros. -/
def hexText (n : Nat) : String := String.ofList (Nat.toDigits 16 n)

/-- Whether a character is written as itself between quotes. -/
def showsAsItself (c : Char) : Bool :=
  if c.toNat < 0x7F then 0x20 ≤ c.toNat else !isCombining c && !isUnprintable c

/-- The written form of one character between double quotes. -/
def quotedChar (c : Char) : String :=
  match c with
  | '\x00' => "\\0"
  | '\t' => "\\t"
  | '\r' => "\\r"
  | '\n' => "\\n"
  | '\\' => "\\\\"
  | '"' => "\\\""
  | c => if showsAsItself c then c.toString else "\\u\x7b" ++ hexText c.toNat ++ "\x7d"

/-- The written form of a text, between double quotes. -/
def quoted (text : String) : String :=
  "\"" ++ String.join (text.toList.map quotedChar) ++ "\""

end MachineLang

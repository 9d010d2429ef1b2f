import MachineLang.Json.Value
import MachineLang.Text.Quoted

/-!
# JSON texts

The two layouts of a JSON value: `compact` without any spacing, and `pretty` with one item to a line
and an indentation of two spaces.
-/

namespace MachineLang.Json

/-- One character inside a JSON string. -/
def stringChar (c : Char) : String :=
  match c with
  | '"' => "\\\""
  | '\\' => "\\\\"
  | '\n' => "\\n"
  | '\r' => "\\r"
  | '\t' => "\\t"
  | '\x08' => "\\b"
  | '\x0c' => "\\f"
  | c =>
    if c.toNat < 0x20 then "\\u00" ++ String.ofList [hexDigit (c.toNat / 16), hexDigit c.toNat]
    else c.toString

/-- A JSON string: the text between quotes, with escapes where a character needs one. -/
def stringText (s : String) : String := "\"" ++ String.join (s.toList.map stringChar) ++ "\""

/-- A number, as written where numbers other than integers do not occur. -/
def intText (n : Int) : String := toString n

mutual

/-- The value without spacing, so that equal values are printed alike. -/
def compact : Json → String
  | null => "null"
  | bool b => if b then "true" else "false"
  | int n => intText n
  | fraction => "0.5"
  | string s => stringText s
  | array items => "[" ++ String.intercalate "," (compactItems items) ++ "]"
  | object fields => "\x7b" ++ String.intercalate "," (compactFields fields) ++ "\x7d"

/-- The items of an array without spacing. -/
def compactItems : List Json → List String
  | [] => []
  | item :: items => compact item :: compactItems items

/-- The fields of an object without spacing. -/
def compactFields : List (String × Json) → List String
  | [] => []
  | (name, value) :: fields => (stringText name ++ ":" ++ compact value) :: compactFields fields

end

/-- The spacing at the start of a line. -/
def indentText (depth : Nat) : String := "\n" ++ String.ofList (List.replicate (2 * depth) ' ')

/-- Lines between brackets, or nothing between them if there are no lines. -/
def inLines (opening closing : String) (depth : Nat) (lines : List String) : String :=
  if lines.isEmpty then opening ++ closing
  else opening ++ String.intercalate "," lines ++ indentText depth ++ closing

mutual

/-- The value with one item to a line, inside `depth` others. -/
def prettyAt (depth : Nat) : Json → String
  | null => "null"
  | bool b => if b then "true" else "false"
  | int n => intText n
  | fraction => "0.5"
  | string s => stringText s
  | array items => inLines "[" "]" depth (prettyItems (depth + 1) items)
  | object fields => inLines "\x7b" "\x7d" depth (prettyFields (depth + 1) fields)

/-- The items of an array, each on a line of its own. -/
def prettyItems (depth : Nat) : List Json → List String
  | [] => []
  | item :: items => (indentText depth ++ prettyAt depth item) :: prettyItems depth items

/-- The fields of an object, each on a line of its own. -/
def prettyFields (depth : Nat) : List (String × Json) → List String
  | [] => []
  | (name, value) :: fields =>
    (indentText depth ++ stringText name ++ ": " ++ prettyAt depth value) ::
      prettyFields depth fields

end

/-- The value with one item to a line. -/
def pretty (value : Json) : String := prettyAt 0 value

end MachineLang.Json

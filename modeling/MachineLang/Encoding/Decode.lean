import MachineLang.Encoding.Parts
import MachineLang.Json.Reader

/-!
# Decoding

`Tagged.decode` reads back what `Tagged.encode` writes. A machine is rebuilt from its definition,
and refused if the definition is. The sort of a value is checked as soon as it is met in the text,
so a text with an unknown sort is unfit even if it is malformed further on; the rest of a value is
checked once all of it has been read.
-/

namespace MachineLang

/-- Why a text cannot be decoded; text that is cut short is told from text that is wrong. -/
inductive DecodeError
  /-- The text is not JSON. -/
  | malformed
  /-- The text ends too early. -/
  | unfinished
  /-- The text is JSON, but no such value; `cause` is what is wrong with a machine. -/
  | unfit (cause : Option MachineError)
deriving DecidableEq, Repr

namespace DecodeError

/-- The error of a text that is not JSON. -/
def ofRead : Json.ReadError → DecodeError
  | .malformed => malformed
  | .unfinished => unfinished

/-- The kind of error as named in answers. -/
def category : DecodeError → String
  | malformed => "Syntax"
  | unfinished => "Eof"
  | unfit _ => "Data"

/-- What is wrong with a machine, in words. -/
def message? : DecodeError → Option String
  | unfit cause => cause.map MachineError.message
  | _ => none

end DecodeError

namespace Tagged

/-- A value that has to be there; without it the text is JSON, but no such value. -/
def fit {α : Type} : Option α → Except DecodeError α
  | some a => .ok a
  | none => .error (.unfit none)

/-- A value of a given sort. -/
def ofContent : TaggedSort → Json → Except DecodeError Tagged
  | .machine k, j => do
    let definition ← fit (Definition.ofJson? k j)
    match Machine.new definition with
    | .ok m => return automaton (.machine m)
    | .error e => throw (.unfit (some e))
  | .grammar, j => (automaton ∘ .grammar) <$> fit (Grammar.ofJson? j)
  | .token, j => token <$> fit (Token.ofJson? j)
  | .configuration, j => configuration <$> fit (Configuration.ofJson? j)
  | .outcome, j => outcome <$> fit (TestOutcome.ofJson? j)
  | .graph, j => graph <$> fit (Graph.ofJson? j)

/-- Part of a text as JSON. -/
def reading {α : Type} (result : Except Json.ReadError α) : Except DecodeError α :=
  result.mapError DecodeError.ofRead

/-- A value inside the outermost one, which may be nested one level less deep. -/
def readInner (text : List Char) : Except DecodeError (Json × List Char) :=
  reading (Json.readValue (text.length + 1) (Json.maxDepth - 1) text)

/-- The sort of a value. -/
def readSort (text : List Char) : Except DecodeError (TaggedSort × List Char) :=
  match Json.skipSpace text with
  | '[' :: _ => .error (.unfit none)
  | '\x7b' :: _ => .error (.unfit none)
  | text => do
    match ← readInner text with
    | (.string tag, rest) => return (← fit (TaggedSort.ofTag? tag), rest)
    | _ => throw (.unfit none)

/-- The rest of an object behind its first field or its opening brace, as its sort and its other
fields. -/
def readFields : Nat → Bool → Option TaggedSort → List (String × Json) → List Char →
    Except DecodeError (TaggedSort × Json × List Char)
  | 0, _, _, _, _ => .error .unfinished
  | steps + 1, first, sort, before, text => do
    match ← reading (Json.readNextName first text) with
    | (none, rest) => return (← fit sort, .object before.reverse, rest)
    | (some name, rest) =>
      if name = "type" then
        if sort.isSome then throw (.unfit none)
        let (sort, rest) ← readSort (← reading (Json.readColon rest))
        readFields steps false (some sort) before rest
      else
        let (value, rest) ← readInner (← reading (Json.readColon rest))
        readFields steps false sort ((name, value) :: before) rest

/-- The rest of an array behind its opening bracket, as the sort that is its first item and its
other items. -/
def readItems (text : List Char) : Except DecodeError (TaggedSort × Json × List Char) :=
  match Json.skipSpace text with
  | [] => .error .unfinished
  | ']' :: _ => .error (.unfit none)
  | text => do
    let (sort, rest) ← readSort text
    let (items, rest) ← reading (Json.readItems
      (Json.readValue (text.length + 1) (Json.maxDepth - 1)) (text.length + 1) false [] rest)
    return (sort, .array items, rest)

/-- Reads back an encoded value: its sort is told by a field, wherever that stands, and the other
fields say the rest. -/
def decode (text : String) : Except DecodeError Tagged := do
  let text := text.toList
  let (sort, content, rest) ←
    match Json.skipSpace text with
    | '\x7b' :: rest => readFields (text.length + 1) true none [] rest
    | '[' :: rest => readItems rest
    | text => do
      let _ ← reading (Json.readValue (text.length + 1) Json.maxDepth text)
      throw (.unfit none)
  let value ← ofContent sort content
  reading (Json.readEnd rest)
  return value

end Tagged

end MachineLang

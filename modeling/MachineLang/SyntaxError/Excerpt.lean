import MachineLang.SyntaxError.Basic
import MachineLang.Text.Offset

/-!
# Syntax errors shown in their source

An error is drawn under the line where it stands, with carets below its range and the expectation at
the bottom. A range over several lines shows the first and the last of them. Line breaks inside the
drawn text are made visible where the range begins or ends with one. An error whose place is not in
the source keeps its one-line message.
-/

namespace MachineLang

/-- What is drawn of a source around an error. -/
structure Excerpt where
  /-- The place where the carets begin. -/
  start : Location
  /-- The place where the carets end, or nothing for a single place. -/
  stop : Option Location
  /-- The line where the range begins. -/
  line : List Char
  /-- The line where the range ends, if it is another one. -/
  lastLine : Option (List Char)
deriving DecidableEq, Repr

namespace Excerpt

/-- Whether a character breaks a line. -/
def isBreak (c : Char) : Bool := c == '\n' || c == '\r'

/-- The text with line breaks made visible. -/
def showBreaks (text : List Char) : List Char :=
  text.map fun c => if c = '\r' then '␍' else if c = '\n' then '␊' else c

/-- The text without line breaks, so that it is shown on one line. -/
def dropBreaks (text : List Char) : List Char := text.filter fun c => !isBreak c

/-- The part of the last line of `before` that stands at its end. -/
def lineStart (before : List Char) : List Char :=
  (before.reverse.takeWhile (· != '\n')).reverse

/-- The rest of the first line of a text, with its newline. -/
def lineEnd (text : List Char) : List Char :=
  text.takeWhile (· != '\n') ++ (text.dropWhile (· != '\n')).take 1

/-- The lines of a text, each with its newline. -/
def linesOf : List Char → List (List Char)
  | [] => []
  | c :: cs =>
    match linesOf cs with
    | [] => [[c]]
    | l :: ls => if c = '\n' then [c] :: l :: ls else (c :: l) :: ls

/-- The excerpt around a single place: the line on which it is, and a caret under it. -/
def ofPlace (before after : List Char) : Excerpt :=
  let line := lineStart before ++ lineEnd after
  let visible := after.head?.any isBreak
  { start := Location.start.advance before
    stop := none
    line := if visible then showBreaks line else dropBreaks line
    lastLine := none }

/-- The excerpt around a range: `before` stands in front of it and `after` behind it. -/
def ofRange (before range after : List Char) : Excerpt :=
  let stop := Location.start.advance (before ++ range)
  -- A range that ends just behind a newline ends, for the eye, behind the newline's own mark.
  let stop :=
    if stop.column = 1 then
      let visual := Location.start.advance (before ++ range.dropLast)
      { visual with column := visual.column + 1 }
    else stop
  let visible := range.head?.any isBreak || range.tail.getLast?.any isBreak
  let lines := linesOf range
  -- The last line goes on behind the range, unless the range has taken its newline.
  let close (line : List Char) : List Char :=
    if line.getLast? = some '\n' then line else line ++ lineEnd after
  let first := lineStart before ++
    (if lines.length = 1 then close (lines.headD []) else lines.headD [])
  { start := Location.start.advance before
    stop := some stop
    line := if visible then showBreaks first else dropBreaks first
    lastLine :=
      if lines.length < 2 then none
      else
        let last := close (lines.getLastD [])
        some (if visible then last else showBreaks last) }

/-- The carets under a range from column `start` to column `stop`. -/
def underlineRange (line : List Char) (start stop : Nat) : List Char :=
  -- A range that ends to the left of its beginning is underlined between the two columns.
  let (low, high) := if stop < start then (stop - 1, start + 1) else (start, stop)
  let indent := (line.take (low - 1)).map fun c => if c = '\t' then '\t' else ' '
  let width := high - low
  indent ++ if width ≤ 1 then ['^'] else '^' :: List.replicate (width - 2) '-' ++ ['^']

/-- The carets under a single place. -/
def underlinePlace (line : List Char) (start : Nat) : List Char :=
  (line.take (start - 1)).map (fun c => if c = '\t' then '\t' else ' ') ++ "^---".toList

/-- The text of a number, filled up with spaces on the left. -/
def padded (width n : Nat) : String :=
  let digits := toString n
  String.ofList (List.replicate (width - digits.length) ' ') ++ digits

/-- The drawing of an excerpt, with a message at the bottom. -/
def draw (e : Excerpt) (message : String) : String :=
  let lastNumber := (e.stop.map Location.line).getD e.start.line
  let width := (toString (max e.start.line lastNumber)).length
  let gap := String.ofList (List.replicate width ' ')
  let underline :=
    match e.stop with
    | some stop => underlineRange e.line e.start.column stop.column
    | none => underlinePlace e.line e.start.column
  let head := [gap ++ "--> " ++ e.start.text, gap ++ " |",
    padded width e.start.line ++ " | " ++ String.ofList e.line]
  let continued :=
    match e.lastLine with
    | none => []
    | some last =>
      (if lastNumber - e.start.line > 1 then [gap ++ " | ..."] else []) ++
        [padded width lastNumber ++ " | " ++ String.ofList last]
  let foot := [gap ++ " | " ++ String.ofList underline, gap ++ " |", gap ++ " = " ++ message]
  String.intercalate "\n" (head ++ continued ++ foot)

end Excerpt

namespace SyntaxError

/-- The expected kinds as a list in a sentence. -/
def expectation (kinds : List TokenKind) : String :=
  match kinds.map TokenKind.name with
  | [] => "unknown parsing error"
  | [a] => "expected " ++ a
  | [a, b] => "expected " ++ a ++ " or " ++ b
  | names => "expected " ++ String.intercalate ", " names.dropLast ++ ", or " ++ names.getLastD ""

/-- What is written under the excerpt of an error. -/
def caption : SyntaxError → String
  | unexpectedToken _ expected => expectation expected
  | unexpectedEnd _ expected => expectation expected
  | invalid violation _ => violation.message

/-- The excerpt of a source around a range, if the range begins in it. A range that is empty, turned
around or cut off by the end of the source is drawn as the place where it begins. -/
def excerpt? (span : Span) (source : List Char) : Option Excerpt := do
  let (before, after) ← splitAtByte? span.start.offset source
  if span.start.offset < span.stop.offset then
    match splitAtByte? (span.stop.offset - span.start.offset) after with
    | some (range, rest) => return Excerpt.ofRange before range rest
    | none => return Excerpt.ofPlace before after
  else return Excerpt.ofPlace before after

/-- The error drawn in its source, or its message if it cannot be located there. -/
def render (e : SyntaxError) (source : String) : String :=
  if e.span.start.isValid then
    match excerpt? e.span source.toList with
    | some excerpt => excerpt.draw e.caption
    | none => e.message
  else e.message

end SyntaxError

end MachineLang

/-!
# Positions in a source text

A `Location` names a place in a source text three times over: by the number of UTF-8 bytes before it
and by its line and column, both counted from one. A `Span` is a half-open range between two
locations. `Location.advance` is the only way positions move: it walks over the text that was
consumed.
-/

namespace MachineLang

/-- The largest offset, which no text can reach. -/
def maxOffset : Nat := 18446744073709551615

/-- A place in a source text, counted in bytes from its start and in lines and columns. -/
structure Location where
  /-- The number of UTF-8 bytes before the place. -/
  offset : Nat
  /-- The line, counted from one. -/
  line : Nat
  /-- The column in characters, counted from one. -/
  column : Nat
deriving DecidableEq, Repr, Inhabited

namespace Location

/-- The place before the first character: nothing is in front of it, and counting begins at one. -/
def start : Location := ⟨0, 1, 1⟩

/-- Stands for a place that is not in the source at all. -/
def invalid : Location := ⟨maxOffset, 0, 0⟩

/-- The place one character further on: on the same line, unless the character ends it. -/
def next (l : Location) (c : Char) : Location :=
  if c = '\n' then ⟨l.offset + c.utf8Size, l.line + 1, 1⟩
  else ⟨l.offset + c.utf8Size, l.line, l.column + 1⟩

/-- The place reached by consuming `text`, one character after the other. -/
def advance (l : Location) (text : List Char) : Location := text.foldl next l

/-- Whether 64 bits suffice for the three numbers of the place. -/
def fits (l : Location) : Bool := l.offset ≤ maxOffset && l.line ≤ maxOffset && l.column ≤ maxOffset

/-- The place reached by consuming `text`, unless one of the places on the way has a number that
does not fit into 64 bits. -/
def advance? (l : Location) (text : List Char) : Option Location :=
  text.foldlM (fun l c => if (l.next c).fits then some (l.next c) else none) l

/-- Whether the place can be pointed at, as every place of a source can; only the one that stands
for no place cannot. -/
def isValid (l : Location) : Bool := l != invalid

/-- The place as written in messages: line and column. -/
def text (l : Location) : String :=
  if l.isValid then toString l.line ++ ":" ++ toString l.column else "<unknown>"

@[simp] theorem advance_nil (l : Location) : l.advance [] = l := rfl

@[simp] theorem advance_cons (l : Location) (c : Char) (cs : List Char) :
    l.advance (c :: cs) = (l.next c).advance cs := rfl

/-- Walking over two texts in turn is walking over them joined. -/
theorem advance_append (l : Location) (s t : List Char) :
    l.advance (s ++ t) = (l.advance s).advance t := List.foldl_append

end Location

/-- A half-open range of a source text: the place where it stops is not in it. -/
structure Span where
  /-- Where the range begins. -/
  start : Location
  /-- Where the range ends. -/
  stop : Location
deriving DecidableEq, Repr, Inhabited

namespace Span

/-- Stands for a range that is not in the source at all. -/
def invalid : Span := ⟨.invalid, .invalid⟩

/-- The empty range at a place, for errors that are about no text. -/
def point (l : Location) : Span := ⟨l, l⟩

/-- A range is written in messages as the place where it begins. -/
def text (s : Span) : String := s.start.text

end Span

end MachineLang

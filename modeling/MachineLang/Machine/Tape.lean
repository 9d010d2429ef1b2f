/-!
# Tapes

A tape is a row of cells with a head. An unbounded tape stands for one that is blank beyond its
stored cells on both sides: it grows when the head leaves the stored cells. A bounded tape keeps its
content, and its head stays between the first cell and the place behind the last one. The front of a
tape also serves as the top of a stack.

Positions and lengths are exact numbers, and tapes have as many cells as they need. A program has 64
bits for a position and so many bytes for what it stores, and it stops where that is not enough.
`read?`, `write?` and `shift?` say when: they give nothing there, and otherwise what `read`, `write`
and `shift` give.
-/

namespace MachineLang

/-- A sequence of characters: the contents of a tape, or what is read or written at once. -/
abbrev Word := List Char

/-- The character of cells that were never written. -/
def blankChar : Char := ' '

/-- The number of positions that 64 bits can tell apart. -/
def positionCount : Nat := 18446744073709551616

/-- The most bytes that a text or a row of cells can take. -/
def byteLimit : Nat := 9223372036854775807

/-- The most cells that can be stored, with four bytes for each of them. -/
def cellLimit : Nat := 2305843009213693951

/-- A row of cells with a head. Only a part of the cells is stored; a bounded tape has no others,
and an unbounded one is blank there. -/
structure Tape where
  /-- The stored cells. -/
  cells : List Char
  /-- The number of stored cells to the left of the head. -/
  head : Nat
  /-- The character of the cells that are not stored. -/
  blank : Char
  /-- Whether the tape keeps its content. -/
  bounded : Bool
deriving DecidableEq, Repr, Inhabited

namespace Tape

/-- A tape that holds a word, with the head on its first character. -/
def ofWord (content : Word) (bounded : Bool) : Tape := ⟨content, 0, blankChar, bounded⟩

/-- Whether the head is behind the last cell. -/
def isAtEnd (t : Tape) : Bool := t.cells.length ≤ t.head

/-- The `width` characters from the head on. Behind its last cell a bounded tape has no more
characters, and an unbounded one has blanks. -/
def read (t : Tape) (width : Nat) : Word :=
  let stored := (t.cells.drop t.head).take width
  if t.bounded then stored else stored ++ List.replicate (width - stored.length) t.blank

/-- The characters that are read, unless the blanks among them are too many to be put into a
text. -/
def read? (t : Tape) (width : Nat) : Option Word :=
  let stored := (t.cells.drop t.head).take width
  let bytes := (String.ofList stored).utf8ByteSize + (width - stored.length) * t.blank.utf8Size
  if t.bounded || bytes ≤ byteLimit then some (t.read width) else none

/-- Whether a tape has so many cells, or may get so many. A number that does not fit into 64 bits is
too large for either. -/
def canStore (t : Tape) (count : Nat) : Bool := count ≤ t.cells.length || count ≤ cellLimit

/-- Replaces the characters from the head on by those of a word. Cells in between that are not
stored yet become blank. -/
def write (t : Tape) (word : Word) : Tape :=
  if word.isEmpty then t
  else
    let before := t.cells.take t.head ++ List.replicate (t.head - t.cells.length) t.blank
    { t with cells := before ++ word ++ t.cells.drop (t.head + word.length) }

/-- The tape with a word written on it, unless the cells up to the end of the word cannot be
stored. -/
def write? (t : Tape) (word : Word) : Option Tape :=
  if word.isEmpty || t.canStore (t.head + word.length) then some (t.write word) else none

/-- Stores blank cells up to the head, so that there is a cell to be written. -/
def fill (t : Tape) : Tape :=
  { t with cells := t.cells ++ List.replicate (t.head + 1 - t.cells.length) t.blank }

/-- The head as a signed number of 64 bits, as which a bounded tape moves it. Far behind the last
cell that is a negative number. -/
def signedHead (t : Tape) : Int :=
  if t.head ≤ t.cells.length then t.head else (t.head : Int).bmod positionCount

/-- The place where a bounded tape holds a head that is sent to `target`. -/
def clamp (t : Tape) (target : Int) : Nat := (max 0 (min target t.cells.length)).toNat

/-- A place on the tape or just behind it is kept. -/
theorem clamp_of_le (t : Tape) (place : Nat) (h : place ≤ t.cells.length) :
    t.clamp place = place := by
  unfold clamp
  omega

/-- Moves the head `offset` cells to the right. A bounded tape stops it at its ends; an unbounded
one stores the cells that the head reaches. -/
def shift (t : Tape) (offset : Int) : Tape :=
  if t.bounded then { t with head := t.clamp (t.signedHead + offset) }
  else
    match offset with
    | .ofNat right => { t with head := t.head + right }.fill
    | .negSucc left =>
      let missing := left + 1 - t.head
      { t with cells := List.replicate missing t.blank ++ t.cells, head := t.head - (left + 1) }

/-- Whether the head can move `offset` cells to the right: on a bounded tape as long as the sum is a
signed number of 64 bits, on an unbounded one as long as the cells up to the head can be stored. -/
def canShift (t : Tape) (offset : Int) : Bool :=
  if t.bounded then
    let target := t.signedHead + offset
    target ≤ byteLimit && -(byteLimit : Int) ≤ target + 1
  else
    match offset with
    | .ofNat right => t.canStore (t.head + right + 1)
    | .negSucc left => t.canStore (t.cells.length + (left + 1 - t.head))

/-- The tape with its head moved, unless it cannot move so far. -/
def shift? (t : Tape) (offset : Int) : Option Tape :=
  if t.canShift offset then some (t.shift offset) else none

/-- Removes up to `count` characters from the front. -/
def popFront (t : Tape) (count : Nat) : Tape := { t with cells := t.cells.drop count }

/-- Puts a word in front, so that its first character comes first. -/
def pushFront (t : Tape) (word : Word) : Tape := { t with cells := word ++ t.cells }

/-- The tape with brackets around the cell of the head. -/
def text (t : Tape) : String :=
  match t.cells.drop t.head with
  | [] => String.ofList t.cells ++ "[]"
  | c :: after => String.ofList (t.cells.take t.head ++ '[' :: c :: ']' :: after)

end Tape

end MachineLang

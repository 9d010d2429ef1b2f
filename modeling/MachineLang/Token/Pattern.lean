import MachineLang.Text.Blank

/-!
# Token patterns

A small language of regular expressions. `Pattern.Matches` says which texts a pattern describes;
`Pattern.munch` finds the length of the longest prefix that it describes, by taking derivatives
(`Pattern.after`) one character at a time. `Pattern.text` writes a pattern in the usual notation.
-/

namespace MachineLang

/-- An entry of a bracketed set of characters. -/
inductive SetItem
  /-- One character. -/
  | one (c : Char)
  /-- Every character from `low` to `high`. -/
  | range (low high : Char)
  /-- Every white space character. -/
  | blank
deriving DecidableEq, Repr

/-- A set of characters, as it stands in a pattern. -/
inductive CharSet
  /-- Just one character. -/
  | one (c : Char)
  /-- Every character but the newline. -/
  | any
  /-- Every character but white space. -/
  | nonBlank
  /-- The characters that some entry describes. -/
  | oneOf (items : List SetItem)
  /-- The characters that no entry describes. -/
  | noneOf (items : List SetItem)
deriving DecidableEq, Repr

/-- Whether an entry describes a character. -/
def SetItem.contains : SetItem → Char → Bool
  | .one a, c => a == c
  | .range low high, c => low ≤ c && c ≤ high
  | .blank, c => isBlank c

/-- Whether a character is in the set. -/
def CharSet.contains : CharSet → Char → Bool
  | .one a, c => a == c
  | .any, c => c != '\n'
  | .nonBlank, c => !isBlank c
  | .oneOf items, c => items.any (·.contains c)
  | .noneOf items, c => !items.any (·.contains c)

/-- A regular expression, which describes the texts of a token. -/
inductive Pattern
  /-- Describes no text. -/
  | void
  /-- Describes the empty text. -/
  | empty
  /-- Describes the one-character texts of a set. -/
  | set (s : CharSet)
  /-- Describes a text of `p` followed by one of `q`. -/
  | seq (p q : Pattern)
  /-- Describes the texts of `p` and those of `q`. -/
  | alt (p q : Pattern)
  /-- Describes any number of texts of `p`, joined. -/
  | star (p : Pattern)
  /-- Describes one or more texts of `p`, joined. -/
  | plus (p : Pattern)
deriving DecidableEq, Repr

namespace Pattern

/-- The texts that a pattern describes, by the structure of the pattern; how they are found is
another matter. -/
inductive Matches : Pattern → List Char → Prop
  | empty : Matches empty []
  | set {s : CharSet} {c : Char} (h : s.contains c = true) : Matches (set s) [c]
  | seq {p q : Pattern} {s t : List Char} (hp : Matches p s) (hq : Matches q t) :
      Matches (seq p q) (s ++ t)
  | left {p q : Pattern} {s : List Char} (h : Matches p s) : Matches (alt p q) s
  | right {p q : Pattern} {s : List Char} (h : Matches q s) : Matches (alt p q) s
  | done {p : Pattern} : Matches (star p) []
  | more {p : Pattern} {s t : List Char} (hp : Matches p s) (hs : Matches (star p) t) :
      Matches (star p) (s ++ t)
  | plus {p : Pattern} {s t : List Char} (hp : Matches p s) (hs : Matches (star p) t) :
      Matches (plus p) (s ++ t)

/-- The pattern of one character, which stands for itself. -/
def char (c : Char) : Pattern := set (.one c)

/-- The pattern of exactly one text. -/
def literal : List Char → Pattern
  | [] => empty
  | [c] => char c
  | c :: cs => seq (char c) (literal cs)

/-- Whether the empty text is described, so that a match may end here. -/
def nullable : Pattern → Bool
  | void => false
  | empty => true
  | set _ => false
  | seq p q => p.nullable && q.nullable
  | alt p q => p.nullable || q.nullable
  | star _ => true
  | plus p => p.nullable

/-- Whether the pattern is the one without texts. -/
def isVoid : Pattern → Bool
  | void => true
  | _ => false

/-- A sequence, without parts that add nothing, so that derivatives do not grow. -/
def sequence : Pattern → Pattern → Pattern
  | void, _ => void
  | _, void => void
  | empty, q => q
  | p, q => seq p q

/-- A choice, without a branch that adds nothing. -/
def choice : Pattern → Pattern → Pattern
  | void, q => q
  | p, void => p
  | p, q => alt p q

/-- Describes what may follow `c` in a text of the pattern. -/
def after (c : Char) : Pattern → Pattern
  | void => void
  | empty => void
  | set s => if s.contains c then empty else void
  | seq p q =>
    if p.nullable then choice (sequence (p.after c) q) (q.after c) else sequence (p.after c) q
  | alt p q => choice (p.after c) (q.after c)
  | star p => sequence (p.after c) (star p)
  | plus p => sequence (p.after c) (star p)

/-- The length of the longest prefix met so far: `read` characters were read, and the longest prefix
described before had length `best`. -/
def munchFrom (p : Pattern) (read best : Nat) : List Char → Nat
  | [] => if p.nullable then read else best
  | c :: cs =>
    let best := if p.nullable then read else best
    if p.isVoid then best else (p.after c).munchFrom (read + 1) best cs

/-- The length of the longest described prefix of a text, zero if there is none. -/
def munch (p : Pattern) (text : List Char) : Nat := p.munchFrom 0 0 text

/-! ## The written form -/

/-- One character outside brackets, escaped if it would mean something else there. -/
def charText (c : Char) : String :=
  if c = '\n' then "\\n"
  else if "\\.+*?()|[]\x7b\x7d^$".toList.contains c then "\\" ++ c.toString
  else c.toString

/-- One entry inside brackets, escaped if it would mean something else there. -/
def itemText : SetItem → String
  | .one '\n' => "\\n"
  | .one '\t' => "\\t"
  | .one '\r' => "\\r"
  | .one '\\' => "\\\\"
  | .one c => c.toString
  | .range low high => low.toString ++ "-" ++ high.toString
  | .blank => "\\s"

/-- A set of characters in the usual notation. -/
def setText : CharSet → String
  | .one c => charText c
  | .any => "."
  | .nonBlank => "\\S"
  | .oneOf items => "[" ++ String.join (items.map itemText) ++ "]"
  | .noneOf items => "[^" ++ String.join (items.map itemText) ++ "]"

/-- The pattern in the usual notation; `inner` puts brackets around a choice, `atom` around a
sequence as well. -/
def textAt (inner atom : Bool) : Pattern → String
  | void => "[]"
  | empty => ""
  | set s => setText s
  | seq p q =>
    let body := p.textAt true false ++ q.textAt true false
    if atom then "(?:" ++ body ++ ")" else body
  | alt p q =>
    let body := p.textAt false false ++ "|" ++ q.textAt false false
    if inner || atom then "(?:" ++ body ++ ")" else body
  | star p => p.textAt true true ++ "*"
  | plus p => p.textAt true true ++ "+"

/-- The pattern in the usual notation, with brackets where they are needed. -/
def text (p : Pattern) : String := p.textAt false false

end Pattern

end MachineLang

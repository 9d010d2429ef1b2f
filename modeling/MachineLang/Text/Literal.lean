/-!
# Literals

Quoted literals stand between two delimiters, and a backslash in their body makes the next character
stand for itself, except that `n`, `t` and `r` stand for a newline, a tab and a carriage return.
`unescape` reads a body, `unquote` strips the delimiters.
-/

namespace MachineLang

/-- The character that a backslash followed by `c` stands for. -/
def escapedChar (c : Char) : Char :=
  match c with
  | 'n' => '\n'
  | 't' => '\t'
  | 'r' => '\r'
  | c => c

/-- The text that the body of a quoted literal stands for. A backslash at the very end stands for
itself. -/
def unescape : List Char → List Char
  | [] => []
  | ['\\'] => ['\\']
  | '\\' :: c :: cs => escapedChar c :: unescape cs
  | c :: cs => c :: unescape cs

/-- The text between the first and the last character. -/
def unquote (text : List Char) : List Char := text.tail.dropLast

end MachineLang

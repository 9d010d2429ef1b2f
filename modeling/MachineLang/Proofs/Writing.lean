import MachineLang.Parser.Leaf
import MachineLang.Token.Mode
import MachineLang.Tree.Bare

/-!
# Written machines

How machines and their transitions are written, and the trees that stand for them. A written thing
carries what keeps its text in shape: a name is no keyword, a quoted character is none that ends the
literal. The blanks of a line are free (`Layout`).
-/

namespace MachineLang.Written

/-! ## Words and blanks -/

/-- Whether a word may begin with a character. -/
def beginsWord (c : Char) : Bool := (CharSet.oneOf Rule.letter).contains c

/-- Whether a word may go on with a character. -/
def continuesWord (c : Char) : Bool := (CharSet.oneOf Rule.letterOrDigit).contains c

/-- Whether a character is blank space within a line. -/
def isSpace (c : Char) : Bool := (CharSet.oneOf [.one ' ', .one '\t', .one '\r']).contains c

/-- A name that is no keyword, as its author writes it. -/
structure Name where
  /-- The first character. -/
  first : Char
  /-- The other characters. -/
  others : List Char
  /-- A word may begin with the first character. -/
  first_begins : beginsWord first = true
  /-- A word may go on with the others. -/
  others_continue : others.all continuesWord = true
  /-- The name is no keyword. -/
  lookup_eq : keywords.lookup (.ofList (first :: others)) = none

namespace Name

/-- The name as written: its first character and the others behind it. -/
def text (n : Name) : List Char := n.first :: n.others

/-- The name in a tree, where its range is left out. -/
def id (n : Name) : Identifier := ⟨.ofList n.text, .invalid⟩

end Name

/-- Blank space within a line: any number of spaces, tabs and carriage returns. -/
structure Gap where
  /-- The blanks. -/
  chars : List Char
  /-- They are blank. -/
  blank : chars.all isSpace = true

/-- The blanks of a line: at both ends of it, between its words, and in brackets. -/
structure Layout where
  /-- The blanks at both ends. -/
  margin : Gap
  /-- The blanks between words. -/
  between : Gap
  /-- Words are kept apart. -/
  between_ne : between.chars ≠ []
  /-- The blanks in brackets. -/
  inside : Gap

/-! ## Symbols -/

/-- A character of a literal between delimiters `d`. -/
inductive LiteralChar (d : Char)
  /-- A character that stands for itself. -/
  | plain (c : Char) (ne_delimiter : c ≠ d) (ne_backslash : c ≠ '\\') (ne_newline : c ≠ '\n')
  /-- A character behind a backslash. -/
  | escaped (c : Char) (ne_newline : c ≠ '\n')

namespace LiteralChar

variable {d : Char}

/-- The character as written, with a backslash in front of it if it is escaped. -/
def text : LiteralChar d → List Char
  | plain c _ _ _ => [c]
  | escaped c _ => ['\\', c]

/-- The character that is meant, which for an escape is not the one behind the backslash. -/
def value : LiteralChar d → Char
  | plain c _ _ _ => c
  | escaped c _ => escapedChar c

end LiteralChar

/-- A symbol that a transition reads or writes. -/
inductive Symbol
  /-- A quoted character. -/
  | quoted (c : LiteralChar '\'')
  /-- A character by its name. -/
  | named (name : String) (known : (Parser.namedCharacter? name).isSome = true)
  /-- A string. -/
  | string (body : List (LiteralChar '"'))

namespace Symbol

/-- The symbol as written: in single quotes, by its name, or as a string. -/
def text : Symbol → List Char
  | quoted c => '\'' :: (c.text ++ ['\''])
  | named name _ => '$' :: name.toList
  | string body => '"' :: (body.flatMap LiteralChar.text ++ ['"'])

/-- The symbol in a tree, with the character or the string that is meant. -/
def node : Symbol → Node
  | quoted c => .character (.ofList [c.value]) .invalid
  | named name known => .character ((Parser.namedCharacter? name).get known) .invalid
  | string body => .string (.ofList (body.map LiteralChar.value)) .invalid

end Symbol

/-- Something for a tape, which may be given by its name. -/
structure OnTape (α : Type) where
  /-- The name of the tape. -/
  tape : Option Name
  /-- What is for the tape. -/
  value : α

namespace OnTape

variable {α : Type}

/-- What is for the tape, as written. -/
def text (gap : Gap) (text : α → List Char) (x : OnTape α) : List Char :=
  match x.tape with
  | none => text x.value
  | some tape => tape.text ++ (gap.chars ++ ':' :: (gap.chars ++ text x.value))

/-- What is for the tape, in a tree. -/
def node (node : α → Node) (x : OnTape α) : Node :=
  match x.tape with
  | none => node x.value
  | some tape => .qualified tape.id (node x.value) .invalid

end OnTape

/-- A symbol for a tape, with or without the name of the tape in front of it. -/
abbrev TapeSymbol := OnTape Symbol

namespace TapeSymbol

/-- The symbol as written, behind the name of its tape if there is one. -/
def text (gap : Gap) (x : TapeSymbol) : List Char := OnTape.text gap Symbol.text x

/-- The symbol in a tree, with its tape if there is one. -/
def node (x : TapeSymbol) : Node := OnTape.node Symbol.node x

end TapeSymbol

/-- A movement of the head of a tape. -/
abbrev TapeShift := OnTape Direction

namespace TapeShift

/-- The movement as written, behind the name of its tape if there is one. -/
def text (gap : Gap) (x : TapeShift) : List Char := OnTape.text gap (fun d => [d.toChar]) x

/-- The movement in a tree, with its tape if there is one. -/
def node (x : TapeShift) : Node := OnTape.node (fun d => .shift d .invalid) x

end TapeShift

/-! ## Lists -/

/-- The first of some elements and the others, up to the closing bracket. -/
def elementsText (gap : Gap) : List Char → List (List Char) → List Char
  | x, [] => gap.chars ++ (x ++ (gap.chars ++ [']']))
  | x, y :: ys => gap.chars ++ (x ++ (gap.chars ++ ',' :: elementsText gap y ys))

/-- A list in brackets, which may be empty, with commas between its elements. -/
def listText (gap : Gap) : List (List Char) → List Char
  | [] => '[' :: (gap.chars ++ [']'])
  | x :: xs => '[' :: elementsText gap x xs

/-- A list of symbols in brackets. -/
def symbolsText (gap : Gap) (xs : List TapeSymbol) : List Char :=
  listText gap (xs.map (TapeSymbol.text gap))

/-- A list of names in brackets. -/
def namesText (gap : Gap) (names : List Name) : List Char := listText gap (names.map Name.text)

/-- A word and what it introduces, behind a gap, or nothing. -/
def partText (gap : Gap) (word : String) : Option (List Char) → List Char
  | none => []
  | some text => gap.chars ++ (word.toList ++ (gap.chars ++ text))

/-! ## Transitions -/

/-- A transition of one of the three kinds, with everything that is written in it. -/
inductive Transition
  /-- A transition of a finite automaton. -/
  | finite (source : Name) (condition : Symbol) (target : Name)
  /-- A transition of a pushdown automaton, which pops or pushes. -/
  | pushdown (source : Name) (condition : Symbol) (pop : Option (List TapeSymbol)) (target : Name)
      (push : Option (List TapeSymbol)) (either : (pop.isSome || push.isSome) = true)
  /-- A transition of a Turing machine. -/
  | turing (source : Name) (read : List TapeSymbol) (target : Name) (write : List TapeSymbol)
      (shift : List TapeShift)

namespace Transition

/-- The transition as written, in the layout of its line. -/
def text (l : Layout) : Transition → List Char
  | finite source condition target =>
    source.text ++ (l.between.chars ++ (condition.text ++ (l.between.chars ++ ('-' :: '>' ::
      (l.between.chars ++ target.text)))))
  | pushdown source condition pop target push _ =>
    source.text ++ (l.between.chars ++ (condition.text ++
      (partText l.between "pop" (pop.map (symbolsText l.inside)) ++
        (l.between.chars ++ ('-' :: '>' :: (l.between.chars ++ (target.text ++
          partText l.between "push" (push.map (symbolsText l.inside)))))))))
  | turing source read target write shift =>
    source.text ++ (l.between.chars ++ (symbolsText l.inside read ++
      (l.between.chars ++ ('-' :: '>' :: (l.between.chars ++ (target.text ++
        (l.between.chars ++ (symbolsText l.inside write ++
          (l.between.chars ++ listText l.inside (shift.map (TapeShift.text l.inside)))))))))))

/-- The tree that stands for the transition. -/
def node : Transition → Node
  | finite source condition target => .finiteTransition source.id condition.node target.id .invalid
  | pushdown source condition pop target push _ =>
    .pushdownTransition source.id condition.node ((pop.getD []).map TapeSymbol.node) target.id
      ((push.getD []).map TapeSymbol.node) .invalid
  | turing source read target write shift =>
    .turingTransition source.id (read.map TapeSymbol.node) target.id (write.map TapeSymbol.node)
      (shift.map TapeShift.node) .invalid

/-- Whether the transition says that it pushes, pushes nothing, and says nothing of what it pops. -/
def PushesNothing : Transition → Prop
  | pushdown _ _ none _ (some []) _ => True
  | _ => False

/-- The tree that is read: a transition of a Turing machine that writes the name `push`, if all that
the transition says is that it pushes nothing. -/
def read : Transition → Node
  | pushdown source condition none target (some []) _ =>
    .turingTransition source.id [condition.node] target.id [.identifier ⟨"push", .invalid⟩] []
      .invalid
  | t => t.node

end Transition

/-! ## Machines -/

/-- A statement on a line of a machine. -/
inductive Line
  /-- The choice of the initial state. -/
  | initial (layout : Layout) (state : Name)
  /-- The choice of the final states. -/
  | final (layout : Layout) (states : List Name)
  /-- A transition. -/
  | transition (layout : Layout) (t : Transition)

namespace Line

/-- The blanks of the line, of whatever kind its statement is. -/
def layout : Line → Layout
  | initial layout _ => layout
  | final layout _ => layout
  | transition layout _ => layout

/-- The statement on the line, as written. -/
def statement : Line → List Char
  | initial l state => "initial".toList ++ (l.between.chars ++ state.text)
  | final l states => "final".toList ++ (l.between.chars ++ namesText l.inside states)
  | transition l t => t.text l

/-- The line as written, with its end. -/
def text (line : Line) : List Char :=
  line.layout.margin.chars ++ (line.statement ++ (line.layout.margin.chars ++ ['\n']))

/-- The tree of the statement, as its author means it. -/
def node : Line → Node
  | initial _ state => .initial state.id .invalid
  | final _ states => .final (states.map Name.id) .invalid
  | transition _ t => t.node

/-- The tree that is read, which for a transition may be another one than is meant. -/
def read : Line → Node
  | transition _ t => t.read
  | line => line.node

end Line

/-- What a declaration begins with: the kind of the machine, and what its stacks or tapes are
called. -/
inductive Heading
  /-- A finite automaton. -/
  | finite
  /-- A pushdown automaton. -/
  | pushdown (stackNames : Option (List Name))
  /-- A Turing machine. -/
  | turing (tapes : Option (List Name))

/-- No blank, where two words may stand side by side. -/
def Gap.empty : Gap := ⟨[], rfl⟩

/-- A single blank, as most authors write it. -/
def Gap.space : Gap := ⟨[' '], by decide⟩

namespace Heading

/-- The keyword with which a declaration begins. -/
def keyword : Heading → String
  | finite => "finite"
  | pushdown _ => "pushdown"
  | turing _ => "turing"

/-- The kind of token that the keyword is. -/
def kind : Heading → TokenKind
  | finite => .finite
  | pushdown _ => .pushdown
  | turing _ => .turing

/-- What stands behind the name of the machine. -/
def parts : Heading → List Char
  | finite => []
  | pushdown stackNames => partText .space "stacks" (stackNames.map (namesText .space))
  | turing tapes => partText .space "tapes" (tapes.map (namesText .space))

/-- The declaration in a tree, around the tree of its body. -/
def node (name : Identifier) (body : Node) : Heading → Node
  | finite => .finite name body .invalid
  | pushdown stackNames => .pushdown name ((stackNames.getD []).map Name.id) body .invalid
  | turing tapes => .turing name ((tapes.getD []).map Name.id) body .invalid

end Heading

/-- A machine as it is written: its heading, its name and the lines of its body. -/
structure Machine where
  /-- What its declaration begins with. -/
  heading : Heading
  /-- Its name. -/
  name : Name
  /-- Its body. -/
  lines : List Line

namespace Machine

/-- The machine as written, from the first line of its body on. -/
def body (m : Machine) : List Char := m.lines.flatMap Line.text ++ ['\x7d']

/-- The machine as written, with a line for each statement. -/
def text (m : Machine) : List Char :=
  m.heading.keyword.toList ++ (' ' :: (m.name.text ++ (m.heading.parts ++
    (' ' :: '\x7b' :: '\n' :: m.body))))

/-- The tree of a program that is the machine, with the statements of its body. -/
def programOf (m : Machine) (statements : List Node) : Node :=
  .root [m.heading.node m.name.id (.root statements .invalid)] .invalid

end Machine

end MachineLang.Written

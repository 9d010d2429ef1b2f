import MachineLang.Ordered.Set
import MachineLang.Text.Quoted

/-!
# Grammars

A grammar is kept as it was written: its start symbol and its productions, in order. It is neither
classified nor changed.
-/

namespace MachineLang

/-- A symbol in the body of a production. -/
inductive GrammarSymbol
  /-- A text that stands for itself. -/
  | terminal (text : String)
  /-- A name that productions replace. -/
  | nonTerminal (name : String)
deriving DecidableEq, Repr, Inhabited

/-- A production; one without symbols in its body derives the empty word. -/
structure Production where
  /-- The non-terminal that is replaced. -/
  head : String
  /-- The symbols that replace it. -/
  body : List GrammarSymbol
deriving DecidableEq, Repr, Inhabited

/-- A grammar: its start symbol and its productions in the order in which they were written. -/
structure Grammar where
  /-- The start symbol. -/
  start : String
  /-- The productions. -/
  productions : List Production
deriving DecidableEq, Repr, Inhabited

namespace GrammarSymbol

/-- The symbol as written in messages. -/
def text : GrammarSymbol → String
  | terminal text => quoted text
  | nonTerminal name => "<" ++ name ++ ">"

/-- The name of a non-terminal, and nothing for a terminal. -/
def nonTerminal? : GrammarSymbol → Option String
  | terminal _ => none
  | nonTerminal name => some name

/-- The text of a terminal, and nothing for a non-terminal. -/
def terminal? : GrammarSymbol → Option String
  | terminal text => some text
  | nonTerminal _ => none

end GrammarSymbol

/-- The production as written in messages. -/
def Production.text (p : Production) : String :=
  "<" ++ p.head ++ "> ->" ++
    if p.body.isEmpty then " $eps" else String.join (p.body.map fun symbol => " " ++ symbol.text)

namespace Grammar

/-- The start symbol and all non-terminals that head a production or occur in one. -/
def nonTerminals (g : Grammar) : SortedSet String :=
  (SortedSet.single g.start).insertAll
    (g.productions.flatMap fun p => p.head :: p.body.filterMap GrammarSymbol.nonTerminal?)

/-- The terminals that occur in a production. -/
def terminals (g : Grammar) : SortedSet String :=
  .ofList (g.productions.flatMap fun p => p.body.filterMap GrammarSymbol.terminal?)

/-- The productions of one head, in the order of the grammar. -/
def productionsOf (g : Grammar) (head : String) : List Production :=
  g.productions.filter fun p => p.head == head

/-- The non-terminals that head no production. -/
def undefinedNonTerminals (g : Grammar) : SortedSet String :=
  g.nonTerminals.filter fun name => !g.productions.any fun p => p.head == name

/-- The grammar as text, one production per line. -/
def text (g : Grammar) : String :=
  "start <" ++ g.start ++ ">\n" ++ String.join (g.productions.map fun p => p.text ++ "\n")

end Grammar

end MachineLang

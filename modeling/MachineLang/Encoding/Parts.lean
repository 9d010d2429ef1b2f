import MachineLang.Encoding.Machine

/-!
# Parts of encoded values

How the parts of encoded values are read back from JSON. A structure may be given by the names of
its fields, in any order and with others among them, or as a sequence of all its fields. A choice
without content may be given by its name alone.
-/

namespace MachineLang

namespace Json

/-- The text of a string; anything else has none. -/
def string? : Json → Option String
  | string s => some s
  | _ => none

/-- A truth value, which only the two words for it stand for. -/
def bool? : Json → Option Bool
  | bool b => some b
  | _ => none

/-- A number that counts something: an integer that is not negative. -/
def nat? : Json → Option Nat
  | int n => if 0 ≤ n then some n.toNat else none
  | _ => none

/-- A text of a single character. -/
def char? : Json → Option Char
  | string s =>
    match s.toList with
    | [c] => some c
    | _ => none
  | _ => none

/-- A sequence of values of one sort, none of which may be missing. -/
def list? {α : Type} (item : Json → Option α) : Json → Option (List α)
  | array items => items.mapM item
  | _ => none

/-- A sequence of texts, each of which has to be a string. -/
def strings? : Json → Option (List String) := list? string?

/-- A word, which is written as a string of its characters. -/
def word? (j : Json) : Option Word := j.string?.map String.toList

/-- A sequence of words, each written as a string. -/
def words? : Json → Option (List Word) := list? word?

/-- The value of a field that must not be given twice; the inner value is missing if it is not given
at all. -/
def fieldOnce? (fields : List (String × Json)) (name : String) : Option (Option Json) :=
  match fields.filter fun f => f.1 == name with
  | [] => some none
  | [(_, value)] => some (some value)
  | _ => none

/-- The values of the fields of a structure. -/
def structure? (names : List String) : Json → Option (List (Option Json))
  | object fields => names.mapM (fieldOnce? fields)
  | array items => if items.length = names.length then some (items.map some) else none
  | _ => none

/-- Whether a value stands for the absence of content. -/
def isNothing : Json → Bool
  | null => true
  | object [] => true
  | _ => false

/-- A choice without content: the tag alone, or an object with the tag as its only name and nothing
as its content. -/
def choice? {α : Type} (ofTag : String → Option α) : Json → Option α
  | string tag => ofTag tag
  | object [(tag, content)] => if content.isNothing then ofTag tag else none
  | _ => none

/-- A value that may be missing or null. -/
def optional? {α : Type} (item : Json → Option α) : Option Json → Option (Option α)
  | none => some none
  | some null => some none
  | some j => some <$> item j

/-- A value that may be missing, in which case another one stands for it. -/
def orDefault? {α : Type} (item : Json → Option α) (default : α) : Option Json → Option α
  | none => some default
  | some j => item j

end Json

/-- A place from JSON, if its parts are there and are numbers. -/
def Location.ofJson? (j : Json) : Option Location := do
  match ← j.structure? ["offset", "line", "column"] with
  | [some offset, some line, some column] => return ⟨← offset.nat?, ← line.nat?, ← column.nat?⟩
  | _ => none

/-- A token from JSON: its kind by its tag, its text and the two places between which it stands. -/
def Token.ofJson? (j : Json) : Option Token := do
  match ← j.structure? ["kind", "value", "location", "end"] with
  | [some kind, some value, some location, some stop] =>
    return ⟨← kind.choice? TokenKind.ofTag?, ← value.string?, ← Location.ofJson? location,
      ← Location.ofJson? stop⟩
  | _ => none

/-- What a transition does from JSON. -/
def actionOfJson? : (k : MachineKind) → Json → Option (Action k)
  | .finite, j => if j.isNothing then some () else none
  | .pushdown, j => do
    match ← j.structure? ["push"] with
    | [some push] => return StackAction.mk (← push.words?)
    | _ => none
  | .turing, j => do
    match ← j.structure? ["write", "shift"] with
    | [some write, some shift] =>
      return TapeAction.mk (← write.words?) (← shift.list? (Json.choice? Direction.ofTag?))
    | _ => none

/-- A transition from JSON, with the action that machines of the kind have. -/
def Transition.ofJson? (k : MachineKind) (j : Json) : Option (Transition k) := do
  match ← j.structure? ["from", "read", "to", "payload"] with
  | [some source, some read, some target, some action] =>
    return ⟨← source.string?, ← read.words?, ← target.string?, ← actionOfJson? k action⟩
  | _ => none

/-- A definition from JSON. Sets may be written in any order; those of final states, states and
symbols may be missing, and so may the names of the tapes. -/
def Definition.ofJson? (k : MachineKind) (j : Json) : Option (Definition k) := do
  match ← j.structure? ["transitions", "initial", "finals", "tapes", "states",
    "alphabet", "bounded"]
  with
  | [some transitions, some initial, finals, tapes, states, alphabet, some bounded] =>
    return ⟨← transitions.list? (Transition.ofJson? k), ← initial.string?,
      .ofList (← Json.orDefault? Json.strings? [] finals),
      ← Json.orDefault? Json.strings? [] tapes,
      .ofList (← Json.orDefault? Json.strings? [] states),
      .ofList (← Json.orDefault? Json.words? [] alphabet), ← bounded.bool?⟩
  | _ => none

/-- A symbol of a production from JSON. -/
def GrammarSymbol.ofJson? : Json → Option GrammarSymbol
  | .object [("Terminal", .string text)] => some (.terminal text)
  | .object [("NonTerminal", .string name)] => some (.nonTerminal name)
  | _ => none

/-- A production from JSON. -/
def Production.ofJson? (j : Json) : Option Production := do
  match ← j.structure? ["head", "body"] with
  | [some head, some body] => return ⟨← head.string?, ← body.list? GrammarSymbol.ofJson?⟩
  | _ => none

/-- A grammar from JSON. -/
def Grammar.ofJson? (j : Json) : Option Grammar := do
  match ← j.structure? ["start", "productions"] with
  | [some start, some productions] =>
    return ⟨← start.string?, ← productions.list? Production.ofJson?⟩
  | _ => none

/-- A tape from JSON, with its head anywhere, also behind its last cell. -/
def Tape.ofJson? (j : Json) : Option Tape := do
  match ← j.structure? ["cells", "head", "blank", "bounded"] with
  | [some cells, some head, some blank, some bounded] =>
    return ⟨← cells.list? Json.char?, ← head.nat?, ← blank.char?, ← bounded.bool?⟩
  | _ => none

/-- A configuration from JSON. -/
def Configuration.ofJson? (j : Json) : Option Configuration := do
  match ← j.structure? ["state", "accepted", "tapes"] with
  | [some state, some accepted, some tapes] =>
    return ⟨← state.string?, ← accepted.bool?, ← tapes.list? Tape.ofJson?⟩
  | _ => none

/-- An outcome from JSON. -/
def TestOutcome.ofJson? (j : Json) : Option TestOutcome := do
  match ← j.structure? ["automaton", "input", "accepted"] with
  | [some automaton, some input, accepted] =>
    return ⟨← automaton.string?, ← input.string?, ← Json.optional? Json.bool? accepted⟩
  | _ => none

/-- A node of a graph from JSON. -/
def GraphNode.ofJson? (j : Json) : Option GraphNode := do
  match ← j.structure? ["id", "initial", "accepting"] with
  | [some id, some initial, some accepting] =>
    return ⟨← id.string?, ← initial.bool?, ← accepting.bool?⟩
  | _ => none

/-- An edge from JSON. -/
def GraphEdge.ofJson? (j : Json) : Option GraphEdge := do
  match ← j.structure? ["from", "to", "labels"] with
  | [some source, some target, some labels] =>
    return ⟨← source.string?, ← target.string?, ← labels.strings?⟩
  | _ => none

/-- A graph from JSON: its nodes and its edges, each of which has to be readable. -/
def Graph.ofJson? (j : Json) : Option Graph := do
  match ← j.structure? ["nodes", "edges"] with
  | [some nodes, some edges] =>
    return ⟨← nodes.list? GraphNode.ofJson?, ← edges.list? GraphEdge.ofJson?⟩
  | _ => none

end MachineLang

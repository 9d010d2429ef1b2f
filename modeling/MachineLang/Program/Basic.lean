import MachineLang.Evaluation.Standard
import MachineLang.Parser.Standard
import MachineLang.Program.Error

/-!
# Programs

`compile` reads the text of a program, and `evaluate` also runs it. A program that is too large is
refused before it is read.
-/

namespace MachineLang

/-- A program that was evaluated: its tree, its tokens and the session that it leaves. -/
structure Evaluation where
  /-- The tree of the program. -/
  tree : Node
  /-- The tokens of the program. -/
  tokens : List Token
  /-- What the evaluation did. -/
  session : Session
deriving Repr

namespace Evaluation

/-- The lines that the program printed, in order. -/
def output (e : Evaluation) : List String := e.session.output

/-- The outcomes of the tests of the program, in the order in which they were run. -/
def tests (e : Evaluation) : List TestOutcome := e.session.tests

/-- What the program declares, in the order of declaration. -/
def automata (e : Evaluation) : List (String × Automaton) :=
  e.session.scopes.automata ScopeTree.root

/-- What the program declares under a name. -/
def automaton? (e : Evaluation) (name : String) : Option Automaton := e.automata.lookup name

end Evaluation

/-- Reads a program, if it is not too large: its tree and its tokens. -/
def compile (source : String) : Except ProgramError (Node × List Token) :=
  if maxProgramSize < source.utf8ByteSize then .error (.tooLarge source.utf8ByteSize)
  else (parseProgram source).mapError .syntaxError

/-- Reads and runs a program; its tests explore at most `maxLayers` layers. -/
def evaluateWithin (maxLayers : Nat) (source : String) : Except ProgramError Evaluation := do
  let (tree, tokens) ← compile source
  match (HandlerTable.standard maxLayers).evaluateIn tree ScopeTree.root Session.start with
  | (.ok (), session) => return ⟨tree, tokens, session⟩
  | (.error e, _) => throw (.evaluation e)

/-- Reads and runs a program: an error of either kind ends it. -/
def evaluate (source : String) : Except ProgramError Evaluation :=
  evaluateWithin Machine.defaultLimit source

end MachineLang

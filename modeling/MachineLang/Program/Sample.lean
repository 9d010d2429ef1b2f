import MachineLang.Program.Basic
import MachineLang.Text.Blank

/-!
# Sample programs

The programs that come with the library, and how a program gets its name: from the comment on its
first line.
-/

namespace MachineLang

/-- A program and its name. -/
structure Program where
  /-- The name. -/
  name : String
  /-- The text. -/
  source : String
deriving DecidableEq, Repr, Inhabited

namespace Program

/-- The first line of a text, without its line break. -/
def firstLine (text : List Char) : List Char :=
  let line := text.takeWhile (· ≠ '\n')
  if line.length < text.length && line.getLast? == some '\r' then line.dropLast else line

/-- The comment on the first line of a text, if there is anything in it. -/
def title? (source : String) : Option String :=
  match trimBlank (firstLine source.toList) with
  | '/' :: '/' :: comment =>
    match trimBlank comment with
    | [] => none
    | title => some (.ofList title)
  | _ => none

/-- A program, named by the comment on its first line. -/
def ofSource (source : String) : Program := ⟨(title? source).getD "Untitled", source⟩

/-- A program from its lines, with a line end behind each of them. -/
def ofLines (lines : List String) : Program :=
  ofSource (String.join (lines.map fun line => line ++ "\n"))

/-- Words with an even number of `a`. -/
def evenA : Program := .ofLines [
  "// Even number of a",
  "// Accepts the words over \x7ba, b\x7d that contain an even number of a.",
  "",
  "finite even \x7b",
  "  initial e",
  "  final e",
  "",
  "  e a -> o",
  "  e b -> e",
  "  o a -> e",
  "  o b -> o",
  "\x7d",
  "",
  "print \"even: words with an even number of a\"",
  "test even [\"\", \"b\", \"aa\", \"abab\", \"a\", \"bab\"]"]

/-- Words that end with `ab`, and what determinizing and reversing make of them. -/
def endsWithAB : Program := .ofLines [
  "// Ends with ab",
  "// A non-deterministic automaton guessing where the suffix starts, and what",
  "// the subset construction and reversal make of it.",
  "",
  "finite endsAb \x7b",
  "  initial s",
  "  final f",
  "",
  "  s a -> s",
  "  s b -> s",
  "  s a -> m",
  "  m b -> f",
  "\x7d",
  "",
  "finite dfa = reenumerate determinize endsAb",
  "finite startsBa = reverse endsAb",
  "",
  "test endsAb [\"ab\", \"aab\", \"bab\", \"ba\", \"\"]",
  "test dfa [\"ab\", \"aab\", \"bab\", \"ba\", \"\"]",
  "test startsBa [\"ba\", \"bab\", \"ab\"]"]

/-- Two automata combined by every set operator. -/
def setOperations : Program := .ofLines [
  "// Set operations",
  "// Combines two automata over \x7ba, b\x7d with the set operators.",
  "",
  "finite hasA \x7b",
  "  initial s",
  "  final f",
  "  s a -> f",
  "  s b -> s",
  "  f a -> f",
  "  f b -> f",
  "\x7d",
  "",
  "finite hasB \x7b",
  "  initial s",
  "  final f",
  "  s b -> f",
  "  s a -> s",
  "  f a -> f",
  "  f b -> f",
  "\x7d",
  "",
  "finite both = hasA intersection hasB",
  "finite either = hasA union hasB",
  "finite neither = complement determinize either",
  "finite aThenB = hasA concatenate hasB",
  "finite repeated = star (hasA concatenate hasB)",
  "",
  "test both [\"ab\", \"ba\", \"aa\", \"\"]",
  "test either [\"a\", \"b\", \"\"]",
  "test neither [\"\", \"ab\"]",
  "test aThenB [\"ab\", \"ba\", \"a\"]",
  "test repeated [\"\", \"ab\", \"abab\", \"a\"]"]

/-- As many `a` as `b`, counted on a stack. -/
def countedPairs : Program := .ofLines [
  "// a^n b^n",
  "// A pushdown automaton that counts the a on its stack and pops one A per b.",
  "",
  "pushdown balanced stacks [count] \x7b",
  "  initial qs",
  "  final qf",
  "",
  "  qs $eps -> q0 push Z",
  "  q0 a -> q0 push A",
  "  q0 $eps -> q1 push $eps",
  "  q1 b pop A -> q1",
  "  q1 $eps pop Z -> qf",
  "\x7d",
  "",
  "test balanced [\"\", \"ab\", \"aabb\", \"aaabbb\", \"aab\", \"abb\", \"ba\"]"]

/-- The successor of a binary number on one tape. -/
def binaryIncrement : Program := .ofLines [
  "// Binary increment",
  "// Adds one to a binary number written on the tape, most significant bit first.",
  "",
  "turing increment \x7b",
  "  initial right",
  "  final done",
  "",
  "  right 0 -> right 0 >",
  "  right 1 -> right 1 >",
  "  right $blank -> carry $blank <",
  "",
  "  carry 1 -> carry 0 <",
  "  carry 0 -> done 1 -",
  "  carry $blank -> done 1 -",
  "\x7d",
  "",
  "test increment [\"\", \"0\", \"1011\", \"111\", \"12\"]"]

/-- The content of one tape copied to another. -/
def multiTapeCopy : Program := .ofLines [
  "// Multi-tape copy",
  "// Copies the input tape onto an empty second tape, moving both heads together.",
  "",
  "turing copy tapes [source, target] \x7b",
  "  initial copying",
  "  final done",
  "",
  "  copying [a, $blank] -> copying [a, a] [>, >]",
  "  copying [b, $blank] -> copying [b, b] [>, >]",
  "  copying [$blank, $blank] -> done [target: $eps] [source: -, target: <]",
  "\x7d",
  "",
  "test copy [\"\", \"ab\", \"abba\", \"abc\"]"]

/-- The grammar of balanced parentheses, which declares no machine and tests nothing. -/
def balancedParentheses : Program := .ofLines [
  "// Balanced parentheses",
  "// The context-free grammar of balanced parentheses.",
  "",
  "grammar parens start <S> \x7b",
  "  <S> -> \"(\" <S> \")\" <S> | \"\"",
  "\x7d",
  "",
  "print \"parens: balanced parentheses\""]

/-- All sample programs, in the order in which they are listed and numbered. -/
def samples : List Program :=
  [evenA, endsWithAB, setOperations, countedPairs, binaryIncrement, multiTapeCopy,
   balancedParentheses]

end Program

/-- Why there is no such sample program. -/
inductive SampleError
  /-- No sample program has this name. -/
  | notFound (name : String)
  /-- There are not so many sample programs. -/
  | indexOutOfRange (index : Nat)
deriving DecidableEq, Repr

/-- The error in words, with the name or the number that was asked for. -/
def SampleError.message : SampleError → String
  | notFound name => "Program '" ++ name ++ "' not found"
  | indexOutOfRange index => "Program index " ++ toString index ++ " out of range"

namespace Program

/-- The sample program with a given number. -/
def sampleAt (index : Nat) : Except SampleError Program :=
  match samples[index]? with
  | some program => .ok program
  | none => .error (.indexOutOfRange index)

/-- The sample program of a given name. -/
def sampleNamed (name : String) : Except SampleError Program :=
  match samples.find? fun program => program.name == name with
  | some program => .ok program
  | none => .error (.notFound name)

/-- The character that stands for a letter when its case does not matter. The names of the sample
programs are ASCII, and the only other character whose lower case is in ASCII is the Kelvin sign. -/
def foldCase (c : Char) : Char := if c = '\u212a' then 'k' else c.toLower

/-- Whether a text occurs in another one. -/
def occursIn (query : List Char) : List Char → Bool
  | [] => query.isEmpty
  | c :: cs => query.isPrefixOf (c :: cs) || occursIn query cs

/-- The numbers of the sample programs whose names contain a text, whatever the case. -/
def searchSamples (query : String) : List Nat :=
  let query := query.toList.map foldCase
  (List.range samples.length).filter fun i =>
    (samples[i]?).any fun program => occursIn query (program.name.toList.map foldCase)

/-- Reads and runs a program as if it were given as a file. -/
def run (program : Program) : Except ProgramError Evaluation := evaluate program.source

end Program

end MachineLang

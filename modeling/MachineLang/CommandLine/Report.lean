import MachineLang.CommandLine.Options
import MachineLang.Encoding.Machine
import MachineLang.Machine.Analysis
import MachineLang.Program.Sample

/-!
# The command

`respond` carries out what the arguments ask for. It is given the means to read files and the
standard input, and answers with what to print and the exit status: 1 for a program that cannot be
run, 2 if there is no program to run.
-/

namespace MachineLang.CommandLine

/-- What the command prints, and its exit status. -/
structure Outcome where
  /-- The exit status. -/
  status : Nat
  /-- The text for the standard output. -/
  out : String
  /-- The text for the standard error output. -/
  err : String
deriving DecidableEq, Repr

/-- A text as a line. -/
def line (text : String) : String := text ++ "\n"

/-- Texts as lines. -/
def lines (texts : List String) : String := String.join (texts.map line)

/-- The sample programs with their numbers. -/
def listing : String :=
  lines (Program.samples.zipIdx.map fun (program, i) => toString i ++ ": " ++ program.name)

/-- A verdict in words; a test that was stopped at its limit is undecided. -/
def verdictText : Option Bool → String
  | some true => "accepted"
  | some false => "rejected"
  | none => "undecided"

/-- The outcome of a test in words. -/
def outcomeText (o : TestOutcome) : String :=
  o.automaton ++ " " ++ quoted o.input ++ ": " ++ verdictText o.accepted

/-- What is asked for about an automaton: its analysis, its graph and its numbers, in this order. -/
def automatonReport (o : Options) (name : String) (a : Automaton) : List String :=
  match a with
  | .grammar _ => []
  | .machine m =>
    (if o.has .analyze then m.analyze.map fun finding => name ++ ": " ++ finding.text else []) ++
      (if o.has .graph then [(Tagged.graph m.graph).encode] else []) ++
      match a with
      | @Automaton.machine .turing m => if o.has .numbers then [m.withNumbers.toJson.pretty] else []
      | _ => []

/-- What is printed about a program that was run. -/
def report (o : Options) (e : Evaluation) : String :=
  lines ((if o.has .tokens then [(Json.array (e.tokens.map Token.toJson)).pretty] else []) ++
    (if o.has .ast then [e.tree.toJson.pretty] else []) ++ e.output ++ e.tests.map outcomeText ++
    e.automata.flatMap fun (name, a) => automatonReport o name a)

/-- Runs a program, given its text or why that cannot be read. -/
def execute (o : Options) : Except String String → Outcome
  | .error problem => ⟨2, "", line problem⟩
  | .ok source =>
    match evaluateWithin (o.maxSteps.getD Machine.defaultLimit) source with
    | .error e => ⟨1, "", line (e.render source)⟩
    | .ok e => ⟨0, report o e, ""⟩

/-- How the command is used. -/
def usage : String := lines
  ["Usage: machine-lang [OPTIONS] [FILE]",
   "",
   "Arguments:",
   "  [FILE]  The program to run; without one the standard input is read",
   "",
   "Options:",
   "  -p, --program <PROGRAM>      Run a sample program",
   "  -l, --list                   List the sample programs",
   "  -m, --max-steps <MAX_STEPS>  The number of layers that a test explores",
   "      --tokens                 Print the tokens as JSON",
   "      --ast                    Print the syntax tree as JSON",
   "  -g, --graph                  Print the graph of every machine as JSON",
   "  -a, --analyze                Report what is suspicious about every machine",
   "  -e, --export                 Print every Turing machine with numbered states as JSON",
   "  -h, --help                   Print this help",
   "  -V, --version                Print the version"]

/-- The version. -/
def version : String := line "machine-lang 0.0.1"

/-- The text of the program to run, or why it cannot be read. -/
def programText {m : Type → Type} [Monad m] (readFile : String → m (Except String String))
    (readInput : m (Except String String)) (o : Options) : m (Except String String) :=
  match o.program, o.file with
  | some name, _ =>
    return ((Program.sampleNamed name).map Program.source).mapError SampleError.message
  | none, some path =>
    return (← readFile path).mapError fun reason => "Failed to read file " ++ path ++ ": " ++ reason
  | none, none => readInput

/-- Carries out what the arguments ask for. How files and the input are read is left to the
caller. -/
def respond {m : Type → Type} [Monad m] (readFile : String → m (Except String String))
    (readInput : m (Except String String)) (arguments : List String) : m Outcome :=
  match Request.ofArguments arguments with
  | .error e => return ⟨2, "", line e.message⟩
  | .ok .help => return ⟨0, usage, ""⟩
  | .ok .version => return ⟨0, version, ""⟩
  | .ok (.run o) =>
    if o.has .list then return ⟨0, listing, ""⟩
    else return execute o (← programText readFile readInput o)

end MachineLang.CommandLine

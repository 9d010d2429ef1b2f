import MachineLang.Machine.Run

/-!
# Command-line options

`Request.ofArguments` reads the arguments of the command. Options without a value may share one
dash, the value of an option may be attached to it, and behind `--` nothing is an option. No option
may be given twice.
-/

namespace MachineLang.CommandLine

/-- An option that is turned on by being given, and takes no value. -/
inductive Switch
  /-- Show how the command is used. -/
  | help
  /-- Show the version. -/
  | version
  /-- List the sample programs. -/
  | list
  /-- Print the tokens. -/
  | tokens
  /-- Print the syntax tree. -/
  | ast
  /-- Print the graph of every machine. -/
  | graph
  /-- Report what is suspicious about every machine. -/
  | analyze
  /-- Print every Turing machine with numbered states. -/
  | numbers
deriving DecidableEq, Repr

/-- An option that takes a value: the rest of its argument, or the argument behind it. -/
inductive Setting
  /-- The name of a sample program. -/
  | program
  /-- The number of layers that a test explores. -/
  | maxSteps
deriving DecidableEq, Repr

/-- An option as it is looked up by its letter or its name, before its value is read. -/
inductive Choice
  | switch (s : Switch)
  | setting (s : Setting)
deriving DecidableEq, Repr

/-- The options by their long names. -/
def longNames : List (String × Choice) :=
  [("help", .switch .help), ("version", .switch .version), ("list", .switch .list),
   ("tokens", .switch .tokens), ("ast", .switch .ast), ("graph", .switch .graph),
   ("analyze", .switch .analyze), ("export", .switch .numbers), ("program", .setting .program),
   ("max-steps", .setting .maxSteps)]

/-- The options that can be given by a single letter, with the letter of each. -/
def letters : List (Char × Choice) :=
  [('h', .switch .help), ('V', .switch .version), ('l', .switch .list), ('g', .switch .graph),
   ('a', .switch .analyze), ('e', .switch .numbers), ('p', .setting .program),
   ('m', .setting .maxSteps)]

/-- What the command is to do: the switches that were turned on, and the values that were given. -/
structure Options where
  /-- The switches that are on. -/
  switches : List Switch
  /-- The name of a sample program. -/
  program : Option String
  /-- The number of layers that a test explores. -/
  maxSteps : Option Nat
  /-- The file of a program. -/
  file : Option String
deriving Repr, Inhabited

namespace Options

/-- The options of a command without arguments. -/
def none : Options := ⟨[], .none, .none, .none⟩

/-- Whether a switch is on. -/
def has (o : Options) (s : Switch) : Bool := o.switches.contains s

end Options

/-- Why the arguments make no sense. -/
inductive UsageError
  /-- There is no such option. -/
  | unknownOption (text : String)
  /-- An option is given twice. -/
  | repeated
  /-- An option lacks its value. -/
  | missingValue
  /-- A switch has a value. -/
  | surplusValue
  /-- A value is not a number. -/
  | notANumber (text : String)
  /-- There is more than one file. -/
  | surplusFile (text : String)
  /-- Both a file and a sample program are given. -/
  | conflict
deriving DecidableEq, Repr

/-- The error in words, as it is written to the error output. -/
def UsageError.message : UsageError → String
  | unknownOption text => "error: unexpected argument '" ++ text ++ "' found"
  | repeated => "error: an argument cannot be used multiple times"
  | missingValue => "error: a value is required but none was supplied"
  | surplusValue => "error: unexpected value found"
  | notANumber text => "error: invalid value '" ++ text ++ "': not a number"
  | surplusFile text => "error: unexpected argument '" ++ text ++ "' found"
  | conflict => "error: a file cannot be used with '--program <PROGRAM>'"

/-- What the arguments ask for; help and the version are answered as soon as they are met. -/
inductive Request
  /-- To run the command. -/
  | run (options : Options)
  /-- To show how the command is used. -/
  | help
  /-- To show the version. -/
  | version
deriving Repr

/-- Why the reading of arguments stops before all of them are read. -/
inductive Stop
  /-- The arguments make no sense. -/
  | error (e : UsageError)
  /-- An option answers at once. -/
  | answer (r : Request)
deriving Repr

/-- A number that 64 bits can hold, with or without a plus sign. -/
def number? (text : String) : Option Nat :=
  let digits := match text.toList with
    | '+' :: digits => digits
    | digits => digits
  if digits.isEmpty || !digits.all Char.isDigit then none
  else
    let n := digits.foldl (fun n c => 10 * n + (c.toNat - '0'.toNat)) 0
    if n < 18446744073709551616 then some n else none

namespace Options

/-- Turns a switch on. -/
def turnOn (o : Options) (s : Switch) : Except Stop Options :=
  match s with
  | .help => .error (.answer .help)
  | .version => .error (.answer .version)
  | s => if o.has s then .error (.error .repeated) else .ok { o with switches := s :: o.switches }

/-- Gives a setting its value. -/
def give (o : Options) (s : Setting) (value : String) : Except Stop Options :=
  match s with
  | .program =>
    if o.program.isSome then .error (.error .repeated) else .ok { o with program := some value }
  | .maxSteps =>
    if o.maxSteps.isSome then .error (.error .repeated)
    else
      match number? value with
      | some n => .ok { o with maxSteps := some n }
      | .none => .error (.error (.notANumber value))

/-- Sets the file. -/
def useFile (o : Options) (path : String) : Except Stop Options :=
  if o.file.isSome then .error (.error (.surplusFile path)) else .ok { o with file := some path }

end Options

/-- The attached value of an option, without an equals sign in front of it. -/
def attached (value : List Char) : String :=
  match value with
  | '=' :: value => .ofList value
  | value => .ofList value

/-- Reads letters that share a dash. The second answer is the setting at their end that still needs
a value. -/
def readLetters (o : Options) : List Char → Except Stop (Options × Option Setting)
  | [] => .ok (o, none)
  | c :: rest =>
    match letters.lookup c with
    | some (.switch s) => do readLetters (← o.turnOn s) rest
    | some (.setting s) =>
      if rest.isEmpty then .ok (o, some s)
      else do return (← o.give s (attached rest), none)
    | none => .error (.error (.unknownOption (.ofList ['-', c])))

/-- Reads a long option without its dashes. The second answer is the setting that still needs a
value. -/
def readLong (o : Options) (text : List Char) : Except Stop (Options × Option Setting) := do
  let name := String.ofList (text.takeWhile (· ≠ '='))
  match longNames.lookup name, text.dropWhile (· ≠ '=') with
  | some (.switch s), [] => return (← o.turnOn s, none)
  | some (.switch _), _ => throw (.error .surplusValue)
  | some (.setting s), [] => return (o, some s)
  | some (.setting s), value => return (← o.give s (attached value), none)
  | none, _ => throw (.error (.unknownOption ("--" ++ name)))

/-- Reads arguments; `waiting` is a setting whose value is expected next. -/
def readArguments (o : Options) (waiting : Option Setting) : List String → Except Stop Options
  | [] => if waiting.isSome then .error (.error .missingValue) else .ok o
  | argument :: rest =>
    match argument.toList, waiting with
    | ['-', '-'], some _ => .error (.error .missingValue)
    | ['-', '-'], none => rest.foldlM Options.useFile o
    | '-' :: _ :: _, some _ => .error (.error .missingValue)
    | '-' :: '-' :: text, none => do
      let (o, waiting) ← readLong o text
      readArguments o waiting rest
    | '-' :: c :: text, none => do
      let (o, waiting) ← readLetters o (c :: text)
      readArguments o waiting rest
    | _, some s => do readArguments (← o.give s argument) none rest
    | _, none => do readArguments (← o.useFile argument) none rest

/-- What the arguments of the command ask for. -/
def Request.ofArguments (arguments : List String) : Except UsageError Request :=
  match readArguments .none none arguments with
  | .ok o => if o.program.isSome && o.file.isSome then .error .conflict else .ok (.run o)
  | .error (.answer r) => .ok r
  | .error (.error e) => .error e

end MachineLang.CommandLine

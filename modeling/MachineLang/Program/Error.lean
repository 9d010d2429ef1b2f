import MachineLang.Evaluation.Error
import MachineLang.SyntaxError.Excerpt

/-!
# Program errors

Everything that can go wrong between the text of a program and its evaluation.
-/

namespace MachineLang

/-- The largest size of a program in bytes. -/
def maxProgramSize : Nat := 65536

/-- What can be wrong with a file or a folder. -/
inductive FileProblem
  /-- The text of a file cannot be read. -/
  | unreadableFile
  /-- There is no such folder. -/
  | missingFolder
  /-- The entries of a folder cannot be read. -/
  | unreadableFolder
deriving DecidableEq, Repr

/-- What a message says before the path. -/
def FileProblem.opening : FileProblem → String
  | unreadableFile => "Failed to read file"
  | missingFolder => "Directory"
  | unreadableFolder => "Failed to read directory"

/-- The problem in words, with the path of the file that it is about. -/
def FileProblem.message (path : String) : FileProblem → String
  | missingFolder => missingFolder.opening ++ " " ++ path ++ " does not exist"
  | problem => problem.opening ++ " " ++ path

/-- Why a program cannot be loaded, read or evaluated. -/
inductive ProgramError
  /-- The text is not a program. -/
  | syntaxError (error : SyntaxError)
  /-- The program cannot be evaluated. -/
  | evaluation (error : EvaluationError)
  /-- The text is too large. -/
  | tooLarge (bytes : Nat)
  /-- The text cannot be read from a file. -/
  | file (problem : FileProblem) (path : String)
deriving DecidableEq, Repr

namespace ProgramError

/-- The error in words, under a heading that says at which stage it came up. -/
def message : ProgramError → String
  | syntaxError error => "Syntax error: " ++ error.message
  | evaluation error => "Evaluation error: " ++ error.message
  | tooLarge bytes =>
    "Program too large: " ++ toString bytes ++ " bytes (limit is " ++ toString maxProgramSize ++ ")"
  | file problem path => "File error: " ++ problem.message path

/-- The error for a reader of the program: a syntax error is shown in the source. -/
def render (source : String) : ProgramError → String
  | syntaxError error => error.render source
  | error => error.message

end ProgramError

end MachineLang

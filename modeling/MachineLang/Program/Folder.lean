import MachineLang.Program.Basic

/-!
# Programs in folders

`loadFolder` runs all programs in a folder of a `FileTree`: the files whose name ends in `.fsm`, in
the order of their names.
-/

namespace MachineLang

/-- What a path leads to, if anything is there. -/
inductive FileEntry
  /-- A file with its bytes. -/
  | file (content : ByteArray)
  /-- A folder. -/
  | folder

/-- The parts of a path, from the root of the file system on. -/
abbrev EntryPath := List String

/-- The path in one piece, with a slash in front of each part. -/
def EntryPath.text (path : EntryPath) : String := "/" ++ String.intercalate "/" path

/-- The files and folders below a place, by their paths. -/
structure FileTree where
  /-- The paths and what they lead to; of several entries with one path the last counts. -/
  entries : List (EntryPath × FileEntry)

namespace FileTree

/-- What a path leads to. A folder need not be listed if something in it is. -/
def entry? (t : FileTree) (path : EntryPath) : Option FileEntry :=
  if path.isEmpty then some .folder
  else
    match t.entries.reverse.lookup path with
    | some entry => some entry
    | none =>
      if t.entries.any fun e => path.isPrefixOf e.1 then some .folder else none

/-- The names of everything in a folder, in increasing order. -/
def namesIn (t : FileTree) (folder : EntryPath) : List String :=
  (SortedSet.ofList (t.entries.filterMap fun e =>
    if folder.isPrefixOf e.1 then e.1[folder.length]? else none)).toList

end FileTree

/-- Whether a file name ends in the extension of programs, and has something before it. -/
def isProgramName (name : String) : Bool :=
  ".fsm".toList.isSuffixOf name.toList && decide (4 < name.length)

/-- Runs the program in a file. -/
def loadFile (path : EntryPath) (content : ByteArray) : Except ProgramError Evaluation :=
  match String.fromUTF8? content with
  | some source => evaluate source
  | none => .error (.file .unreadableFile path.text)

/-- Runs all programs in a folder. The answers are the names of the files with what came of them. -/
def loadFolder (t : FileTree) (folder : EntryPath) :
    List (Except ProgramError (String × Evaluation)) :=
  match t.entry? folder with
  | none => [.error (.file .missingFolder folder.text)]
  | some (.file _) => [.error (.file .unreadableFolder folder.text)]
  | some .folder =>
    ((t.namesIn folder).filter isProgramName).filterMap fun name =>
      let path := folder ++ [name]
      match t.entry? path with
      | some (.file content) => some ((loadFile path content).map fun e => (name, e))
      | _ => none

end MachineLang

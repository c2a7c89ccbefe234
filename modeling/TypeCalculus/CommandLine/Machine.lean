import TypeCalculus.ResultStore.Basic

/-! What a command finds around it: files, stores, a clock and a place to show results. -/

namespace TypeCalculus.CommandLine

/-- Why a file cannot be read. -/
inductive FileError where
  | notFound
  | notFolder
  | isFolder

/-- What is wrong with the file at a path. -/
def FileError.message (path : String) : FileError → String
  | notFound => "open " ++ path ++ ": no such file or directory"
  | notFolder => "open " ++ path ++ ": not a directory"
  | isFolder => "read " ++ path ++ ": is a directory"

/-- The surroundings of a command. Paths that are not absolute are seen from the working folder. -/
structure Machine (m : Type → Type) where
  /-- The absolute path of the working folder. -/
  workingFolder : String
  /-- Results are shown in colours. -/
  coloured : Bool := false
  /-- A name for the run, which stored results and the journal tell. -/
  run : String := ""
  /-- The time, which stored results tell. -/
  now : Int := 0
  read : String → m (Except FileError String)
  /-- Something is there, a file or a folder. -/
  holds : String → m Bool
  /-- The names in a folder, ascending, with whether they are folders; nothing where there is no folder. -/
  list? : String → m (Option (List (String × Bool)))
  /-- The store that is kept at a path; a new one where none is. -/
  openStore : String → m ResultStore
  keepStore : String → ResultStore → m Unit

end TypeCalculus.CommandLine

import TypeCalculus.CommandLine.Check
import TypeCalculus.ResultStore.Written

/-! The program: its surroundings are the files, the terminal and the clock of the machine it runs on. -/

namespace TypeCalculus.CommandLine

/-- The names in a folder, ascending, with whether they are folders. -/
def namesIn (path : String) : IO (List (String × Bool)) := do
  let entries ← (System.mkFilePath [path]).readDir
  let names ← entries.toList.mapM fun e => return (e.fileName, ← e.path.isDir)
  return names.mergeSort fun a b => decide (a.1 ≤ b.1)

def listed? (path : String) : IO (Option (List (String × Bool))) := do
  try return some (← namesIn path) catch _ => return none

/-- Why a file could not be read. -/
def fileError (path : String) : IO.Error → IO FileError
  | .inappropriateType .. => do
    return if (← listed? path).isSome then .isFolder else .notFolder
  | _ => return .notFound

def readText (path : String) : IO (Except FileError String) := do
  try return .ok (← IO.FS.readFile path) catch e => return .error (← fileError path e)

def isHeld (path : String) : IO Bool := do
  try
    discard (IO.FS.Handle.mk path .read)
    return true
  catch _ => return false

/-- The machine that the program runs on. -/
def thisMachine : IO (Machine IO) := do
  return {
    workingFolder := (← IO.currentDir).toString
    coloured := ← (← IO.getStdout).isTty
    run := hexText (← IO.rand 0 0xFFFFFFFFFFFFFFFF).toUInt64
    now := (← IO.monoNanosNow)
    read := readText
    holds := isHeld
    list? := listed?
    openStore := fun path => return match ← readText path with
      | .ok text => ResultStore.read text
      | .error _ => .empty
    keepStore := fun path s => IO.FS.writeFile path s.write }

/-- Writes the entries that the journal keeps to its file, or to the error output. -/
def writeJournal (o : Outcome) : IO Unit := do
  let level := (Journal.Level.ofName? o.settings.journal.level).getD .info
  let lines := (Journal.kept level o.journal).map fun e => e.object ++ "\n"
  if o.settings.journal.file = "" then
    IO.eprint (String.join lines)
  else
    (← IO.FS.Handle.mk o.settings.journal.file .append).putStr (String.join lines)

end TypeCalculus.CommandLine

open TypeCalculus in
/-- Carries out the command line and gives its exit code. -/
def main (args : List String) : IO UInt32 := do
  let o ← CommandLine.run (← CommandLine.thisMachine) args
  IO.print o.output
  IO.eprint o.errors
  for (name, t) in o.dumped do
    IO.eprintln (name ++ ": " ++ t.print)
  CommandLine.writeJournal o
  return o.code.toUInt32

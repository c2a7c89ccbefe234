import TypeCalculus.CommandLine.Machine
import TypeCalculus.CommandLine.Options
import TypeCalculus.Document.Parse
import TypeCalculus.Path
import TypeCalculus.Runner.Basic

/-! The command line. Its exit code is 0 when every query has an answer, 1 when some query or document
    has a fault, and 2 when the command could not be carried out. -/

namespace TypeCalculus.CommandLine

/-- What a command leaves behind. -/
structure Outcome where
  code : Nat := 0
  output : String := ""
  errors : String := ""
  /-- Queries whose types are shown in full, with these types. -/
  dumped : List (String × Ty) := []
  /-- Entries of the journal, in order. -/
  journal : List Journal.Entry := []
  settings : Settings := .usual

namespace Outcome

/-- Ends with a text on the error output. -/
def refuse (o : Outcome) (text : String) : Outcome :=
  { o with code := 2, errors := o.errors ++ text ++ "\n" }

end Outcome

def version : String := "0.3.0"

def usage : String :=
  "Usage:\n" ++
  "  typeval check [-config file] [-db file] [-dump] [-v] doc.yaml|dir...\n" ++
  "  typeval version\n"

/-- The names that settings have in a folder, the first one first. -/
def settingsNames : List String := ["typeval.yaml", "typeval.yml"]

/-- A file in a folder is a document by its name, unless it holds settings. -/
def isDocumentName (name : String) : Bool :=
  [".yaml", ".yml"].contains (Path.extension name) && !settingsNames.contains name

section Steps

variable {m : Type → Type} [Monad m] (machine : Machine m)

/-- The first path where something is. -/
def firstHeld? : List String → m (Option String)
  | [] => return none
  | p :: ps => do if ← machine.holds p then return some p else firstHeld? ps

/-- The settings nearest to a folder: in it or in a folder above it. -/
def findSettings? (folder : String) : m (Option String) :=
  let start := if Path.isAbsolute folder then Path.clean folder
    else Path.join machine.workingFolder folder
  firstHeld? machine ((Path.ancestors start).flatMap fun f => settingsNames.map (Path.join f))

/-- The documents that arguments name: all documents of a folder, and others as they are. -/
def documentPaths : List String → m (List String)
  | [] => return []
  | arg :: args => do
    let here ← match ← machine.list? arg with
      | some names => pure ((names.filter fun (n, isFolder) => !isFolder && isDocumentName n).map
          fun (n, _) => Path.join arg n)
      | none => pure [arg]
    return here ++ (← documentPaths args)

/-- Reads the settings at a path, or those nearest to the working folder. -/
def loadSettings (path : String) : m (Except String Settings) := do
  let found ← if path = "" then findSettings? machine "." else pure (some path)
  match found with
  | none => return .ok .usual
  | some path =>
    match ← machine.read path with
    | .error e => return .error ("reading config " ++ path ++ ": " ++ e.message path)
    | .ok text => return (Settings.parse path text).mapError (·.message path)

/-- Reads the document at a path. -/
def loadDocument (path : String) : m (Except String Document) := do
  match ← machine.read path with
  | .error e => return .error ("reading document " ++ path ++ ": " ++ e.message path)
  | .ok text => return (Document.parse path text).mapError (·.message path)

/-- What the check of documents goes by. -/
structure Plan where
  dump : Bool
  coloured : Bool
  /-- Several documents are told apart by their paths. -/
  headed : Bool
  /-- The path of the store, if one is kept. -/
  storePath : Option String

/-- Shows the results of a document. -/
def Outcome.show (o : Outcome) (plan : Plan) (index : Nat) (path : String) (results : List Result) :
    Outcome :=
  let head := if plan.headed then (if index > 0 then "\n" else "") ++ "== " ++ path ++ "\n" else ""
  let typed := results.filter fun r => !r.type.isAbsent
  { o with
    code := if Result.someFailed results then 1 else o.code
    output := o.output ++ head ++
      (if plan.coloured then Result.colouredListing results else Result.listing results)
    dumped := o.dumped ++ if plan.dump then typed.map fun r => (r.name, r.type) else [] }

/-- Keeps the store, where it has a path. -/
def keep (plan : Plan) (store : Option ResultStore) : m Unit :=
  match plan.storePath, store with
  | some path, some s => machine.keepStore path s
  | _, _ => pure ()

/-- Checks documents in order. A document that cannot be read is passed over; one that cannot be run ends
    the check. -/
def checkDocuments (plan : Plan) (index : Nat) :
    List String → Runner → Option ResultStore → Outcome → m (Outcome × Runner)
  | [], r, _, o => return (o, r)
  | path :: paths, r, store, o => do
    match ← loadDocument machine path with
    | .error text =>
      checkDocuments plan (index + 1) paths r store
        { o with code := 1, errors := o.errors ++ "Error: " ++ text ++ "\n" }
    | .ok doc =>
      match r.runDocument store false doc with
      | (.error e, r, store) =>
        keep machine plan store
        return (o.refuse ("Error: " ++ e.message), r)
      | (.ok results, r, store) =>
        keep machine plan store
        let r := { r with journal :=
          { level := .info, message := "checked document",
            fields := [("path", .text path), ("queries", .number results.length)] } :: r.journal }
        checkDocuments plan (index + 1) paths r store (o.show plan index path results)

/-- The path that stands for a store that is not kept. -/
def memoryPath : String := ":memory:"

/-- Checks documents under settings. -/
def checkUnder (settings : Settings) (dump : Bool) (paths : List String) : m Outcome := do
  let starting : Journal.Entry :=
    { level := .debug, message := "starting check",
      fields := [("run", .text machine.run), ("documents", .number paths.length),
        ("cache", .flag settings.remembers), ("store", .flag (settings.storePath ≠ ""))] }
  let kept := if settings.storePath = "" || settings.storePath = memoryPath then none
    else some settings.storePath
  let store ← match kept with
    | some path => do pure (some (← machine.openStore path))
    | none => pure (if settings.storePath = "" then none else some .empty)
  let runner := { Runner.new settings machine.run with now := machine.now, journal := [starting] }
  let plan : Plan :=
    { dump, coloured := machine.coloured, headed := paths.length > 1, storePath := kept }
  let (o, r) ← checkDocuments machine plan 0 paths runner store { settings }
  return { o with journal := r.journal.reverse }

/-- The `check` command. -/
def check (args : List String) : m Outcome := do
  match Options.read {} args with
  | .error e =>
    return { code := 2, errors := (e.message?.map (· ++ "\n")).getD "" ++ describeOptions }
  | .ok o =>
    if o.documents.isEmpty then
      return { code := 2, errors := "check: no documents given\n" ++ usage }
    let paths ← documentPaths machine o.documents
    if paths.isEmpty then
      return { code := 2, errors := "check: no documents found\n" }
    match ← loadSettings machine o.config with
    | .error text => return { code := 2, errors := "Error: " ++ text ++ "\n" }
    | .ok settings =>
      let settings := if o.verbose then
        { settings with journal := { settings.journal with level := "debug" } } else settings
      let settings := if o.db = "" then settings else { settings with storePath := o.db }
      checkUnder machine settings o.dump paths

/-- Carries out a command line. -/
def run (args : List String) : m Outcome :=
  match args with
  | [] => return { code := 2, errors := usage }
  | command :: args =>
    if ["version", "-version", "--version"].contains command then
      return { output := "typeval " ++ version ++ "\n" }
    else if command = "check" then check machine args
    else if ["help", "-help", "--help", "-h"].contains command then return { output := usage }
    else return { code := 2, errors := "unknown command " ++ Text.quote command ++ "\n" ++ usage }

end Steps

end TypeCalculus.CommandLine

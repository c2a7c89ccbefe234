import TypeCalculus.CommandLine.Machine
import TypeCalculus.Path

/-! Files, folders and stores in memory. A path is followed component by component, and only folders can
    be left. -/

namespace TypeCalculus.CommandLine

/-- A tree of files, by their components from the root. -/
structure FileTree where
  files : List (List String × String) := []
  folders : List (List String) := []
  stores : List (List String × ResultStore) := []

namespace FileTree

def isFile (t : FileTree) (place : List String) : Bool := (t.files.lookup place).isSome

/-- A folder is there if it was made, or if something lies in it. -/
def isFolder (t : FileTree) (place : List String) : Bool :=
  place.isEmpty || (t.folders ++ t.files.map fun f => f.1.dropLast).any (place.isPrefixOf ·)

/-- Follows components from a place. Only folders can be left, also by a component that stays. -/
def follow (t : FileTree) (place : List String) : List String → Except FileError (List String)
  | [] => .ok place
  | c :: cs =>
    if t.isFolder place then
      if c = "" || c = "." then t.follow place cs
      else if c = ".." then t.follow place.dropLast cs
      else t.follow (place ++ [c]) cs
    else if t.isFile place then .error .notFolder
    else .error .notFound

/-- The place of a path. -/
def place (t : FileTree) (workingFolder path : String) : Except FileError (List String) :=
  if path = "" then .error .notFound
  else
    let start := if Path.isAbsolute path then [] else Path.components workingFolder
    t.follow start (path.splitOn "/")

def readAt (t : FileTree) (place : List String) : Except FileError String :=
  match t.files.lookup place with
  | some text => .ok text
  | none => if t.isFolder place then .error .isFolder else .error .notFound

/-- The names in a folder, ascending. -/
def namesIn (t : FileTree) (folder : List String) : List (String × Bool) :=
  let below (p : List String) : Option String :=
    if folder.isPrefixOf p then (p.drop folder.length).head? else none
  let names := (t.folders ++ t.files.map (·.1)).filterMap below
  let sorted := (names.mergeSort fun a b => decide (a ≤ b)).eraseReps
  sorted.map fun n => (n, t.isFolder (folder ++ [n]))

/-- Puts a store at a place. -/
def putStore (t : FileTree) (place : List String) (s : ResultStore) : FileTree :=
  { t with stores := (place, s) :: t.stores.filter fun (p, _) => p ≠ place }

/-- The place that a store is kept at. -/
def storePlace (workingFolder path : String) : List String :=
  Path.components (if Path.isAbsolute path then Path.clean path else Path.join workingFolder path)

def read (t : FileTree) (workingFolder path : String) : Except FileError String := do
  t.readAt (← t.place workingFolder path)

/-- Something is at a path. -/
def holds (t : FileTree) (workingFolder path : String) : Bool :=
  match t.place workingFolder path with
  | .ok p => t.isFile p || t.isFolder p
  | .error _ => false

/-- The names in the folder at a path, if there is one. -/
def list? (t : FileTree) (workingFolder path : String) : Option (List (String × Bool)) :=
  match t.place workingFolder path with
  | .ok p => if t.isFolder p then some (t.namesIn p) else none
  | .error _ => none

/-- A machine whose files are a tree in memory. -/
def machine (workingFolder : String) : Machine (StateM FileTree) where
  workingFolder := workingFolder
  read path := return (← get).read workingFolder path
  holds path := return (← get).holds workingFolder path
  list? path := return (← get).list? workingFolder path
  openStore path := return ((← get).stores.lookup (storePlace workingFolder path)).getD .empty
  keepStore path s := modify fun t => t.putStore (storePlace workingFolder path) s

end FileTree

end TypeCalculus.CommandLine

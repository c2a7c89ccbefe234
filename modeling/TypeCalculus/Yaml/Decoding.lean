import TypeCalculus.Yaml.Node
import TypeCalculus.Text.Quoted

/-! Reading values of an expected form from nodes. Every place where a node has another form is noted, and
    reading goes on; the notes together are the error. -/

namespace TypeCalculus.Yaml

/-- Why a text could not be read. -/
inductive Failure where
  /-- The text does not follow the grammar. -/
  | malformed
  /-- Nodes have another form than expected. -/
  | mismatch (notes : List String)

def Failure.message : Failure → String
  | malformed => "yaml: malformed text"
  | mismatch notes => "yaml: unmarshal errors:\n  " ++ "\n  ".intercalate notes

/-- How far the reading of values has come. -/
structure Progress where
  /-- Notes made so far, the last one first. -/
  notes : List String := []
  /-- Nodes read so far. -/
  steps : Nat := 0
  /-- Those among them that were reached through an alias. -/
  aliased : Nat := 0
  /-- How many aliases lead to the node being read. -/
  depth : Nat := 0

/-- Aliases account for too large a part of what was read: more than 99 of 100 nodes, and from 400000 nodes
    on less and less, down to 10 of 100 at 4000000. -/
def Progress.isExcessive (p : Progress) : Bool :=
  let beyond := min (p.steps - 400000) 3600000
  100 < p.aliased && 1000 < p.steps &&
    (99 * 3600000 - 89 * beyond) * p.steps < 360000000 * p.aliased

/-- A step of reading values. -/
abbrev Decoding := StateT Progress (Except SyntaxError)

namespace Decoding

def note (line : Nat) (text : String) : Decoding Unit :=
  modify fun p => { p with notes := ("line " ++ toString line ++ ": " ++ text) :: p.notes }

/-- Counts a node. -/
def step : Decoding Unit := do
  let p ← get
  let p := { p with steps := p.steps + 1, aliased := p.aliased + (if p.depth = 0 then 0 else 1) }
  if p.isExcessive then throw .syntaxError
  set p

/-- Reads a node, or the one that an alias refers to. -/
def entering {α : Type} (g : Graph) (n : Node) (read : Node → Decoding α) : Decoding α := do
  step
  match n with
  | .link .. =>
    match g.resolve n with
    | none => throw .syntaxError
    | some target =>
      modify fun p => { p with depth := p.depth + 1 }
      step
      let a ← read target
      modify fun p => { p with depth := p.depth - 1 }
      return a
  | n => read n

/-- Reads with a count of its own. -/
def apart {α : Type} (read : Decoding α) : Decoding α := do
  let p ← get
  set { notes := p.notes : Progress }
  let a ← read
  modify fun q => { p with notes := q.notes }
  return a

/-- Keeps a node as it is. -/
def keep (n : Node) : Decoding Node := do
  step
  return n

/-- The characters that the first `n` bytes of a text hold; a character that is cut counts as one
    replacement character for each of its bytes. -/
def firstBytes : (n : Nat) → List Char → List Char
  | _, [] => []
  | n, c :: cs =>
    if c.utf8Size ≤ n then c :: firstBytes (n - c.utf8Size) cs
    else List.replicate n (Char.ofNat 0xFFFD)

/-- A value as it is shown in a note: long ones are cut. -/
def shown (v : String) : String :=
  if v.utf8ByteSize > 10 then " `" ++ String.ofList (firstBytes 7 v.toList) ++ "...`"
  else " `" ++ v ++ "`"

/-- Notes that a node cannot be read as a type of value. What is tagged as a collection is shown as it is. -/
def mismatch (n : Node) (into : String) : Decoding Unit :=
  let value := if n.tag = "!!seq" || n.tag = "!!map" then n.value else shown n.value
  note n.line ("cannot unmarshal " ++ n.tag ++ value ++ " into " ++ into)

/-- The value of a scalar under its tag. -/
def valueUnder (tag v : String) : Decoding Value :=
  match valueUnder? tag v with
  | some value => pure value
  | none => throw .syntaxError

/-- Notes keys that a mapping gives more than once. Tells whether there are none. -/
def checkKeys : List (Node × Node) → Decoding Bool
  | [] => return true
  | (k, _) :: rest => do
    let same := rest.filter fun (j, _) => j.form = k.form && j.value = k.value
    for (j, _) in same do
      note j.line ("mapping key " ++ Text.quote j.value ++ " already defined at line " ++
        toString k.line)
    let others ← checkKeys rest
    return same.isEmpty && others

/-- Notes that a node cannot be read as a type of value, unless there are other notes on it. -/
def notValue {α : Type} (n : Node) (into : String) : Decoding (Option α) := do
  match n with
  | .mapping _ _ entries => if ← checkKeys entries then mismatch n into
  | n => mismatch n into
  return none

/-- Notes that a scalar cannot be read as a type of value, unless it means nothing. -/
def notScalar {α : Type} (line : Nat) (tag v into : String) : Decoding (Option α) := do
  match ← valueUnder tag v with
  | .null => return none
  | _ =>
    mismatch (.scalar line tag v) into
    return none

/-- Reads a scalar by a function of its value and its text; nothing is read from an empty one. -/
def ofScalar {α : Type} (g : Graph) (into : String) (read : Value → String → Option α) (n : Node) :
    Decoding (Option α) :=
  entering g n fun
  | .scalar line tag v => do
    match ← valueUnder tag v with
    | .null => return none
    | value =>
      match read value v with
      | some a => return some a
      | none =>
        mismatch (.scalar line tag v) into
        return none
  | n => notValue n into

/-- Reads any scalar as text. -/
def string (g : Graph) : Node → Decoding (Option String) :=
  ofScalar g "string" fun value v =>
    match value with
    | .text s => some s
    | _ => some v

/-- Reads a truth value, also by its older spellings. -/
def bool (g : Graph) : Node → Decoding (Option Bool) :=
  ofScalar g "bool" fun value _ =>
    match value with
    | .bool b => some b
    | .text s =>
      if ["y", "Y", "yes", "on"].contains s then some true
      else if ["n", "N", "no", "off"].contains s then some false
      else none
    | _ => none

/-- A number without its fraction, within 64 bits. What is too low counts as the least number, and so does
    the first number that is too high. -/
def truncated? : Binary64 → Option Int
  | .nan => none
  | .infinite negative => if negative then some (-0x8000000000000000) else none
  | .finite negative m e =>
    let size := if e < 0 then m / Nat.pow 2 e.natAbs else m * Nat.pow 2 e.natAbs
    if negative then some (max (-(size : Int)) (-0x8000000000000000))
    else if size < 0x8000000000000000 then some size
    else if size = 0x8000000000000000 then some (-0x8000000000000000)
    else none

/-- Reads a whole number; a fraction is dropped. -/
def int (g : Graph) : Node → Decoding (Option Int) :=
  ofScalar g "int" fun value _ =>
    match value with
    | .int n => if n < 0x8000000000000000 then some n else none
    | .float x => truncated? x
    | _ => none

/-- Reads a sequence item by item; items that give nothing are left out. -/
def list {α : Type} (g : Graph) (into : String) (item : Node → Decoding (Option α)) (n : Node) :
    Decoding (Option (List α)) :=
  entering g n fun
  | .sequence _ _ xs => return some ((← xs.mapM item).filterMap id)
  | .scalar line tag v => notScalar line tag v into
  | n => notValue n into

/-- A key that merges another mapping in. -/
def isMerge : Node → Bool
  | .scalar _ tag v => v = "<<" && tag = "!!merge"
  | _ => false

/-- The nodes that the value of a merging key stands for: one, or each of a sequence. -/
def mergeSources : Node → List Node
  | .sequence _ _ xs => xs
  | n => [n]

/-- The keys of a mapping that mean text, as that text. -/
def textKeys (g : Graph) (entries : List (Node × Node)) : Decoding (List String) := do
  let keys ← entries.mapM fun (k, _) => entering g k fun
    | .scalar _ tag v => do
      match ← valueUnder tag v with
      | .text s => return some s
      | _ => return none
    | _ => return none
  return keys.filterMap id

section Entries

variable {α : Type} (g : Graph) (visit : (key : Node) → (name : String) → (again : Bool) → Node → α → Decoding α)

/-- Visits the entries of one mapping. `here` holds the names visited in it; where mappings are merged,
    `taken` holds the names that are not visited any more. -/
def visitEntries (here : List String) (taken : Option (List String)) (a : α) :
    List (Node × Node) → Decoding (α × Option (List String))
  | [] => return (a, taken)
  | (k, v) :: rest => do
    if isMerge k then visitEntries here taken a rest
    else
      match ← string g k with
      | none => visitEntries here taken a rest
      | some name =>
        if taken.any (·.contains name) then visitEntries here taken a rest
        else
          let a ← visit k name (here.contains name) v a
          visitEntries (name :: here) (taken.map (name :: ·)) a rest

/-- Visits the entries of a mapping, and then those of the mappings merged into it whose names are not
    taken. A mapping that gives a key twice is not visited. -/
def visitMerged : (fuel : Nat) → (taken : Option (List String)) → List (Node × Node) → α →
    Decoding (α × Option (List String))
  | 0, _, _, _ => throw .syntaxError
  | fuel + 1, taken, entries, a => do
    if !(← checkKeys entries) then return (a, taken)
    let (a, taken) ← visitEntries g visit [] taken a entries
    match entries.reverse.find? fun (k, _) => isMerge k with
    | none => return (a, taken)
    | some (_, source) =>
      let names ← match taken with
        | some names => pure names
        | none => textKeys g entries
      let (a, names) ← (mergeSources source).foldlM
        (fun (a, names) n => entering g n fun
          | .mapping _ _ more => visitMerged fuel names more a
          | _ => throw .syntaxError) (a, some names)
      return (a, if taken.isSome then names else none)

end Entries

/-- What becomes of a field of a record. With `strict`, fields that the record does not have are noted. -/
def visitField {α : Type} (into : String) (strict : Bool)
    (field : String → Option (Node → α → Decoding α)) (key : Node) (name : String) (again : Bool)
    (v : Node) (a : α) : Decoding α := do
  match field name with
  | some set =>
    if again then
      note key.line ("field " ++ name ++ " already set in type " ++ into)
      return a
    else set v a
  | none =>
    if strict then note key.line ("field " ++ name ++ " not found in type " ++ into)
    return a

/-- Reads the fields of a record from a node that is no alias. -/
def fields {α : Type} (g : Graph) (into : String) (strict : Bool) (start : α)
    (field : String → Option (Node → α → Decoding α)) : Node → Decoding (Option α)
  | .mapping line tag entries => do
    let fuel := g.allowance (.mapping line tag entries)
    return some (← visitMerged g (visitField into strict field) fuel none entries start).1
  | .scalar line tag v => notScalar line tag v into
  | n => notValue n into

/-- Reads a mapping with named fields into a record. -/
def record {α : Type} (g : Graph) (into : String) (strict : Bool) (start : α)
    (field : String → Option (Node → α → Decoding α)) (n : Node) : Decoding (Option α) :=
  entering g n (fields g into strict start field)

/-- Reads a mapping with named fields into a record that may be missing. A collection tagged as null is
    not one. -/
def optionalRecord {α : Type} (g : Graph) (into : String) (strict : Bool) (start : α)
    (field : String → Option (Node → α → Decoding α)) (n : Node) : Decoding (Option α) :=
  entering g n fun
  | .mapping line "!!null" entries => notValue (.mapping line "!!null" entries) ("*" ++ into)
  | .sequence line "!!null" items => notValue (.sequence line "!!null" items) ("*" ++ into)
  | n => fields g into strict start field n

/-- Sets a field to what is read from its node, if anything is. -/
def setting {α β : Type} (read : Node → Decoding (Option β)) (set : β → α → α) :
    Option (Node → α → Decoding α) :=
  some fun n a => do
    match ← read n with
    | some b => return set b a
    | none => return a

/-- Sets a field to its node. -/
def keeping {α : Type} (set : Node → α → α) : Option (Node → α → Decoding α) :=
  some fun n a => return set (← keep n) a

/-- Puts a node under a name, where it replaces what was there. -/
def put (name : String) (n : Node) (entries : List (String × Node)) : List (String × Node) :=
  (name, n) :: entries.filter (·.1 ≠ name)

/-- Reads a mapping whose values stay nodes. -/
def nodeMap (g : Graph) (into : String) (n : Node) : Decoding (Option (List (String × Node))) :=
  entering g n fun
  | .mapping line tag entries => do
    let visit (_ : Node) (name : String) (_ : Bool) (v : Node) (found : List (String × Node)) :
        Decoding (List (String × Node)) := return put name (← keep v) found
    let fuel := g.allowance (.mapping line tag entries)
    return some (← visitMerged g visit fuel none entries []).1
  | .scalar line tag v => notScalar line tag v into
  | n => notValue n into

end Decoding

/-- Reads a value from the first document of a text. An empty text gives nothing. -/
def decode {α : Type} (text : String) (read : Graph → Node → Decoding (Option α)) :
    Except Failure (Graph × Option α) :=
  match parse text with
  | .error _ => .error .malformed
  | .ok g =>
    match g.root with
    | none => .ok (g, none)
    | some root =>
      match (read g root).run { steps := 1 } with
      | .error _ => .error .malformed
      | .ok (value, p) =>
        if p.notes.isEmpty then .ok (g, value) else .error (.mismatch p.notes.reverse)

end TypeCalculus.Yaml

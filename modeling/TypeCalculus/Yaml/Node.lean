import TypeCalculus.Yaml.Tag
import TypeCalculus.Yaml.Token

/-! Documents as graphs of nodes. A node keeps the line it was written on; an alias refers to a node by
    the number of its anchor, so a node may lead back to itself. -/

namespace TypeCalculus.Yaml

/-- A node of a document. Lines count from one; zero means that a node was not written anywhere. -/
inductive Node where
  | scalar (line : Nat) (tag value : String)
  | sequence (line : Nat) (tag : String) (items : List Node)
  | mapping (line : Nat) (tag : String) (entries : List (Node × Node))
  | link (line : Nat) (name : String) (anchor : Nat)
  deriving Inhabited

namespace Node

def line : Node → Nat
  | scalar l .. | sequence l .. | mapping l .. | link l .. => l

/-- The text of a scalar or the name of an alias; collections have none. -/
def value : Node → String
  | scalar _ _ v => v
  | link _ n _ => n
  | _ => ""

/-- The tag of a node; an alias has none. -/
def tag : Node → String
  | scalar _ t _ | sequence _ t _ | mapping _ t _ => t
  | link .. => ""

/-- A number for the form of a node. -/
def form : Node → Nat
  | scalar .. => 0
  | sequence .. => 1
  | mapping .. => 2
  | link .. => 3

mutual

/-- How many nodes are written in a node. -/
def size : Node → Nat
  | scalar .. => 1
  | link .. => 1
  | sequence _ _ items => 1 + sizeOfItems items
  | mapping _ _ entries => 1 + sizeOfEntries entries
termination_by structural n => n

def sizeOfItems : List Node → Nat
  | [] => 0
  | n :: ns => n.size + sizeOfItems ns
termination_by structural ns => ns

def sizeOfEntries : List (Node × Node) → Nat
  | [] => 0
  | (k, v) :: es => k.size + v.size + sizeOfEntries es
termination_by structural es => es

end

end Node

/-- A document: its root, if it has one, and the nodes behind its anchors. -/
structure Graph where
  root : Option Node := none
  anchors : List (Nat × Node) := []

/-- The node itself, or the one that an alias refers to. -/
def Graph.resolve (g : Graph) (n : Node) : Option Node :=
  match n with
  | .link _ _ a => g.anchors.lookup a
  | n => some n

/-- How deep a walk from a node may go: no chain of nodes that does not lead back into itself is longer. -/
def Graph.allowance (g : Graph) (n : Node) : Nat :=
  g.anchors.foldl (fun size (_, a) => size + a.size) (n.size + 1)

/-- How far the reading of a document has come. -/
structure Reader where
  tokens : List Token
  /-- Anchors by name, the latest first. -/
  names : List (String × Nat) := []
  /-- Anchored nodes that are complete. -/
  anchors : List (Nat × Node) := []
  next : Nat := 0
  /-- Prefixes that tag handles stand for. -/
  handles : List (String × String) := [("!", "!"), ("!!", "tag:yaml.org,2002:")]

abbrev Reading := StateT Reader (Except SyntaxError)

namespace Reading

/-- The next token. -/
def peek : Reading Token := do
  match (← get).tokens with
  | t :: _ => return t
  | [] => throw .syntaxError

def skip : Reading Unit := modify fun r => { r with tokens := r.tokens.tail }

/-- The short form of a tag of the standard namespace. -/
def shortTag (tag : String) : String :=
  let standard := "tag:yaml.org,2002:"
  if standard.toList.isPrefixOf tag.toList then
    "!!" ++ String.ofList (tag.toList.drop standard.length)
  else tag

/-- The tag that a handle and a suffix stand for. -/
def fullTag (handle suffix : String) : Reading String := do
  if handle = "" then return shortTag suffix
  match (← get).handles.lookup handle with
  | some start => return shortTag (start ++ suffix)
  | none => throw .syntaxError

/-- An anchor and a tag before a node, in either order, and the line where they start. -/
structure Properties where
  anchor : Option String := none
  tag : String := ""
  line : Nat

def properties : Reading Properties := do
  let first ← peek
  match first.kind with
  | .anchor name =>
    skip
    match (← peek).kind with
    | .tag handle suffix =>
      skip
      return { anchor := some name, tag := ← fullTag handle suffix, line := first.line }
    | _ => return { anchor := some name, line := first.line }
  | .tag handle suffix =>
    skip
    let anchor ← match (← peek).kind with
      | .anchor name => do
        skip
        pure (some name)
      | _ => pure none
    return { anchor := anchor, tag := ← fullTag handle suffix, line := first.line }
  | _ => return { line := first.line }

/-- An empty scalar. -/
def empty (line : Nat) : Node := .scalar line "!!null" ""

/-- The tag of a scalar: as written, or by its looks. -/
def scalarTag (written : String) (plain : Bool) (text : String) : String :=
  if written ≠ "" && written ≠ "!" then written
  else if !plain then "!!str"
  else if text = "<<" then "!!merge"
  else (valueOf text).tag

def collectionTag (written standard : String) : String :=
  if written ≠ "" && written ≠ "!" then written else standard

/-- Opens the anchor of a node: names used from now on refer to it. -/
def openAnchor (name : Option String) : Reading (Option Nat) := do
  match name with
  | none => return none
  | some name =>
    let r ← get
    set { r with names := (name, r.next) :: r.names, next := r.next + 1 }
    return some r.next

/-- Records the node behind an anchor. -/
def closeAnchor (anchor : Option Nat) (n : Node) : Reading Node := do
  match anchor with
  | none => return n
  | some a =>
    modify fun r => { r with anchors := (a, n) :: r.anchors }
    return n

mutual

/-- Reads a node. In a block it may be an indented collection, and after a key also a sequence that is not
    indented. -/
def node : (fuel : Nat) → (block indentless : Bool) → Reading Node
  | 0, _, _ => throw .syntaxError
  | fuel + 1, block, indentless => do
    let token ← peek
    if let .link name := token.kind then
      skip
      match (← get).names.lookup name with
      | some a => return .link token.line name a
      | none => throw .syntaxError
    let props ← properties
    let token ← peek
    let anchor ← openAnchor props.anchor
    let seqTag := collectionTag props.tag "!!seq"
    let mapTag := collectionTag props.tag "!!map"
    match token.kind with
    | .scalar text plain =>
      skip
      closeAnchor anchor (.scalar props.line (scalarTag props.tag plain text) text)
    | .flowSequenceStart =>
      skip
      closeAnchor anchor (.sequence props.line seqTag (← flowItems fuel true))
    | .flowMappingStart =>
      skip
      closeAnchor anchor (.mapping props.line mapTag (← flowEntries fuel true))
    | kind =>
      if indentless && kind = .blockEntry then
        closeAnchor anchor (.sequence props.line seqTag (← indentlessItems fuel))
      else if block && kind = .blockSequenceStart then
        skip
        closeAnchor anchor (.sequence props.line seqTag (← blockItems fuel))
      else if block && kind = .blockMappingStart then
        skip
        closeAnchor anchor (.mapping props.line mapTag (← blockEntries fuel))
      else if props.anchor.isSome || props.tag ≠ "" then
        closeAnchor anchor (.scalar props.line (scalarTag props.tag true "") "")
      else throw .syntaxError
termination_by structural fuel => fuel

/-- Items of an indented sequence, up to the end of its block. -/
def blockItems : (fuel : Nat) → Reading (List Node)
  | 0 => throw .syntaxError
  | fuel + 1 => do
    let token ← peek
    match token.kind with
    | .blockEntry =>
      skip
      let item ← match (← peek).kind with
        | .blockEntry | .blockEnd => pure (empty token.line)
        | _ => node fuel true false
      return item :: (← blockItems fuel)
    | .blockEnd =>
      skip
      return []
    | _ => throw .syntaxError
termination_by structural fuel => fuel

/-- Items of a sequence that is not indented more than the key before it. -/
def indentlessItems : (fuel : Nat) → Reading (List Node)
  | 0 => throw .syntaxError
  | fuel + 1 => do
    let token ← peek
    match token.kind with
    | .blockEntry =>
      skip
      let item ← match (← peek).kind with
        | .blockEntry | .key | .value | .blockEnd => pure (empty token.line)
        | _ => node fuel true false
      return item :: (← indentlessItems fuel)
    | _ => return []
termination_by structural fuel => fuel

/-- Entries of an indented mapping, up to the end of its block. -/
def blockEntries : (fuel : Nat) → Reading (List (Node × Node))
  | 0 => throw .syntaxError
  | fuel + 1 => do
    let token ← peek
    match token.kind with
    | .key =>
      skip
      let key ← match (← peek).kind with
        | .key | .value | .blockEnd => pure (empty token.line)
        | _ => node fuel true true
      let value ← blockValue fuel
      return (key, value) :: (← blockEntries fuel)
    | .blockEnd =>
      skip
      return []
    | _ => throw .syntaxError
termination_by structural fuel => fuel

def blockValue : (fuel : Nat) → Reading Node
  | 0 => throw .syntaxError
  | fuel + 1 => do
    let token ← peek
    match token.kind with
    | .value =>
      skip
      match (← peek).kind with
      | .key | .value | .blockEnd => return empty token.line
      | _ => node fuel true true
    | _ => return empty token.line
termination_by structural fuel => fuel

/-- Items of a sequence between brackets. A key among them opens a mapping of one entry. -/
def flowItems : (fuel : Nat) → (first : Bool) → Reading (List Node)
  | 0, _ => throw .syntaxError
  | fuel + 1, first => do
    if !first then
      match (← peek).kind with
      | .flowEntry => skip
      | .flowSequenceEnd => pure ()
      | _ => throw .syntaxError
    let token ← peek
    match token.kind with
    | .flowSequenceEnd =>
      skip
      return []
    | .key =>
      skip
      let pair ← flowPair fuel
      return .mapping token.line "!!map" [pair] :: (← flowItems fuel false)
    | _ =>
      let item ← node fuel false false
      return item :: (← flowItems fuel false)
termination_by structural fuel => fuel

/-- The one entry of a mapping inside a sequence between brackets. -/
def flowPair : (fuel : Nat) → Reading (Node × Node)
  | 0 => throw .syntaxError
  | fuel + 1 => do
    let token ← peek
    let key ← match token.kind with
      | .value | .flowEntry | .flowSequenceEnd => do
        skip
        pure (empty token.line)
      | _ => node fuel false false
    let token ← peek
    match token.kind with
    | .value =>
      skip
      match (← peek).kind with
      | .flowEntry | .flowSequenceEnd => return (key, empty token.line)
      | _ => return (key, ← node fuel false false)
    | _ => return (key, empty token.line)
termination_by structural fuel => fuel

/-- Entries of a mapping between braces. -/
def flowEntries : (fuel : Nat) → (first : Bool) → Reading (List (Node × Node))
  | 0, _ => throw .syntaxError
  | fuel + 1, first => do
    if !first then
      match (← peek).kind with
      | .flowEntry => skip
      | .flowMappingEnd => pure ()
      | _ => throw .syntaxError
    let token ← peek
    match token.kind with
    | .flowMappingEnd =>
      skip
      return []
    | .key =>
      skip
      let token ← peek
      let key ← match token.kind with
        | .value | .flowEntry | .flowMappingEnd => pure (empty token.line)
        | _ => node fuel false false
      let value ← flowValue fuel
      return (key, value) :: (← flowEntries fuel false)
    | _ =>
      let key ← node fuel false false
      let value := empty (← peek).line
      return (key, value) :: (← flowEntries fuel false)
termination_by structural fuel => fuel

def flowValue : (fuel : Nat) → Reading Node
  | 0 => throw .syntaxError
  | fuel + 1 => do
    let token ← peek
    match token.kind with
    | .value =>
      skip
      let token ← peek
      match token.kind with
      | .flowEntry | .flowMappingEnd => return empty token.line
      | _ => node fuel false false
    | _ => return empty token.line
termination_by structural fuel => fuel

end

/-- Directives before a document: at most one version, which has to be 1.1, and one meaning for a
    handle. -/
def directives : (fuel : Nat) → (versioned : Bool) → (handles : List String) → Reading Unit
  | 0, _, _ => return
  | fuel + 1, versioned, handles => do
    match (← peek).kind with
    | .versionDirective major minor =>
      if versioned || major ≠ 1 || minor ≠ 1 then throw .syntaxError
      skip
      directives fuel true handles
    | .tagDirective handle tagPrefix =>
      if handles.contains handle then throw .syntaxError
      skip
      modify fun r => { r with handles := (handle, tagPrefix) :: r.handles }
      directives fuel versioned (handle :: handles)
    | _ => return

/-- Reads the first document of a stream; what follows it is looked at only as far as its end. -/
def document (fuel : Nat) : Reading (Option Node) := do
  skip
  match (← peek).kind with
  | .streamEnd => return none
  | .versionDirective .. | .tagDirective .. | .documentStart =>
    directives fuel false []
    let start ← peek
    if start.kind ≠ .documentStart then throw .syntaxError
    skip
    let token ← peek
    let root ← match token.kind with
      | .versionDirective .. | .tagDirective .. | .documentStart | .documentEnd | .streamEnd =>
        pure (empty token.line)
      | _ => node fuel true false
    let _ ← peek
    return some root
  | _ =>
    let root ← node fuel true false
    let _ ← peek
    return some root

end Reading

/-- Reads the first document of a text. -/
def parse (text : String) : Except SyntaxError Graph := do
  let ts := tokens text
  let (root, r) ← (Reading.document (4 * ts.length + 16)).run { tokens := ts }
  return ⟨root, r.anchors⟩

end TypeCalculus.Yaml

import TypeCalculus.Yaml.Decoding

/-! The entries of a document as they are written: names and flags are read, types are still nodes. -/

namespace TypeCalculus.Document

open Yaml (Node Graph Decoding)
open Yaml.Decoding (string bool list record optionalRecord nodeMap setting keeping keep entering apart)

/-- A written type parameter. -/
structure ParamEntry where
  name : String := ""
  constraint : Option Node := none
  default : Option Node := none

/-- A written declaration. -/
structure DeclarationEntry where
  name : String := ""
  params : List ParamEntry := []
  type : Option Node := none

/-- What is written of a subtype question. -/
structure SubtypeEntry where
  source : Option Node := none
  target : Option Node := none
  capture : Bool := false

/-- What is written of an instantiation. -/
structure InstantiateEntry where
  decl : String := ""
  args : List Node := []

/-- A written query. Bindings that are there and empty differ from none. -/
structure QueryEntry where
  name : String := ""
  line : Nat := 0
  eval : Option Node := none
  bindings : Option (List (String × Node)) := none
  subtype : Option SubtypeEntry := none
  instantiate : Option InstantiateEntry := none

/-- A written document. -/
structure Entries where
  declarations : List DeclarationEntry := []
  queries : List QueryEntry := []

variable (g : Graph)

def readParam : Node → Decoding (Option ParamEntry) :=
  record g "typedoc.rawParam" true {} fun
    | "name" => setting (string g) fun s p => { p with name := s }
    | "constraint" => keeping fun n p => { p with constraint := some n }
    | "default" => keeping fun n p => { p with default := some n }
    | _ => none

def readDeclaration : Node → Decoding (Option DeclarationEntry) :=
  record g "typedoc.rawDeclaration" true {} fun
    | "name" => setting (string g) fun s d => { d with name := s }
    | "params" => setting (list g "[]typedoc.rawParam" (readParam g)) fun ps d => { d with params := ps }
    | "type" => keeping fun n d => { d with type := some n }
    | _ => none

def readSubtype (strict : Bool) : Node → Decoding (Option SubtypeEntry) :=
  optionalRecord g "typedoc.rawSubtype" strict {} fun
    | "source" => keeping fun n s => { s with source := some n }
    | "target" => keeping fun n s => { s with target := some n }
    | "capture" => setting (bool g) fun b s => { s with capture := b }
    | _ => none

def readInstantiate (strict : Bool) : Node → Decoding (Option InstantiateEntry) :=
  optionalRecord g "typedoc.rawInstantiate" strict {} fun
    | "decl" => setting (string g) fun s i => { i with decl := s }
    | "args" => setting (list g "[]yaml.Node" fun n => return some (← keep n)) fun ns i => { i with args := ns }
    | _ => none

/-- Sets the fields of a query. -/
def queryField (strict : Bool) : String → Option (Node → QueryEntry → Decoding QueryEntry)
  | "name" => setting (string g) fun s q => { q with name := s }
  | "eval" => keeping fun n q => { q with eval := some n }
  | "bindings" => setting (nodeMap g "map[string]yaml.Node") fun b q => { q with bindings := some b }
  | "subtype" => setting (readSubtype g strict) fun s q => { q with subtype := some s }
  | "instantiate" => setting (readInstantiate g strict) fun i q => { q with instantiate := some i }
  | _ => none

/-- Reads a query. It keeps the line it is written on, and fields that a query does not have are passed
    over, unless it is tagged as null. -/
def readQuery (n : Node) : Decoding (Option QueryEntry) :=
  entering g n fun n =>
    if n.tag = "!!null" then Yaml.Decoding.fields g "typedoc.rawQuery" true {} (queryField g true) n
    else apart (record g "typedoc.plain" false { line := n.line } (queryField g false) n)

def readEntries : Node → Decoding (Option Entries) :=
  record g "typedoc.rawDocument" true {} fun
    | "declarations" =>
      setting (list g "[]typedoc.rawDeclaration" (readDeclaration g)) fun ds e =>
        { e with declarations := ds }
    | "queries" =>
      setting (list g "[]typedoc.rawQuery" (readQuery g)) fun qs e => { e with queries := qs }
    | _ => none

end TypeCalculus.Document

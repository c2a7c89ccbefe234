import TypeCalculus.ResultStore.Basic
import TypeCalculus.Yaml.Decoding

/-! Stores as texts: one record by line, each a mapping with quoted values. -/

namespace TypeCalculus.ResultStore

open Yaml (Node Graph Decoding)
open Yaml.Decoding (string int list record setting)

def writeRecord (r : Record) : String :=
  let fields := [("document", Text.quote r.document), ("query", Text.quote r.query),
    ("kind", Text.quote r.kind), ("output", Text.quote r.output), ("error", Text.quote r.error),
    ("run", Text.quote r.run), ("created", toString r.created)]
  "- \x7b" ++ ", ".intercalate (fields.map fun (n, v) => n ++ ": " ++ v) ++ "\x7d\n"

def write (s : ResultStore) : String := String.join (s.records.map writeRecord)

def readRecord (g : Graph) : Node → Decoding (Option Record) :=
  record g "record" true { document := "", query := "" } fun
    | "document" => setting (string g) fun s r => { r with document := s }
    | "query" => setting (string g) fun s r => { r with query := s }
    | "kind" => setting (string g) fun s r => { r with kind := s }
    | "output" => setting (string g) fun s r => { r with output := s }
    | "error" => setting (string g) fun s r => { r with error := s }
    | "run" => setting (string g) fun s r => { r with run := s }
    | "created" => setting (int g) fun n r => { r with created := n }
    | _ => none

/-- The store that a text holds; a text that holds none gives an empty one. -/
def read (text : String) : ResultStore :=
  match Yaml.decode text fun g => list g "records" (readRecord g) with
  | .ok (_, some records) => ⟨records⟩
  | _ => .empty

end TypeCalculus.ResultStore

import TypeCalculus.Document.Build

/-! Where types stand in a document node, and how a type is written. A type is a mapping with exactly one key, the form;
    below it stand the nodes of its parts, each at a type position of its own or in a part that is written like a record,
    with known keys that are given at most once. -/

namespace TypeCalculus.Document
open Yaml (Node Graph)

def isScalar : Node → Bool
  | .scalar .. => true
  | _ => false

/-- The items of a sequence. -/
def listed : Node → List Node
  | .sequence _ _ items => items
  | _ => []

/-- The values under a key, where aliases are followed. -/
def valuesOf (g : Graph) (key : String) (entries : List (Node × Node)) : List Node :=
  entries.filterMap fun e => if e.1.value = key then g.resolve e.2 else none

/-- The values that a mapping has under a key. -/
def under (g : Graph) (key : String) : Node → List Node
  | .mapping _ _ entries => valuesOf g key entries
  | _ => []

/-- The nodes behind the properties of an object. -/
def properties (g : Graph) (n : Node) : List Node := ((under g "props" n).flatMap listed).filterMap g.resolve

/-- The nodes at the type positions right below a form. -/
def positionsOf (g : Graph) (form : String) (n : Node) : List Node :=
  match form with
  | "array" | "readonly_array" | "keyof" => [n]
  | "tuple" | "union" | "intersection" => listed n
  | "template" => ((listed n).filterMap g.resolve).filter fun m => !isScalar m
  | "object" => (properties g n).flatMap (under g "type") ++ (under g "index" n).flatMap (under g "value")
  | "param" | "infer" => under g "constraint" n
  | "ref" => (under g "args" n).flatMap listed
  | "function" => (under g "params" n).flatMap listed ++ under g "result" n
  | "index" => under g "object" n ++ under g "index" n
  | "intrinsic" => under g "arg" n
  | "conditional" => under g "check" n ++ under g "extends" n ++ under g "then" n ++ under g "else" n
  | _ => []

/-- The nodes at the type positions right below a node. -/
def positions (g : Graph) (n : Node) : List Node :=
  match g.resolve n with
  | some (.mapping _ _ [(key, value)]) =>
    match g.resolve value with
    | some parts => positionsOf g key.value parts
    | none => []
  | _ => []

theorem positions_of_resolve {g : Graph} {n key value parts : Node} {line : Nat} {tag : String}
    (hn : g.resolve n = some (.mapping line tag [(key, value)])) (hp : g.resolve value = some parts) :
    positions g n = positionsOf g key.value parts := by
  rw [positions, hn]
  dsimp only
  rw [hp]

/-- The keys of the entries are allowed ones, each given at most once. -/
structure KeyedEntries (allowed : List String) (entries : List (Node × Node)) : Prop where
  known : ∀ e ∈ entries, e.1.value ∈ allowed
  once : (entries.map (·.1.value)).Nodup

/-- The node is written like a record with the given keys. -/
def Keyed (allowed : List String) : Node → Prop
  | .mapping _ _ entries => KeyedEntries allowed entries
  | _ => False

/-- The forms of types. -/
def forms : List String :=
  ["keyword", "primitive", "string", "number", "boolean", "bigint", "symbol", "template", "object", "array",
    "readonly_array", "tuple", "union", "intersection", "param", "infer", "ref", "function", "keyof", "index", "intrinsic",
    "conditional"]

/-- The parts of a form that are written like records have known keys, given at most once. -/
def RecordsOf (g : Graph) (form : String) (n : Node) : Prop :=
  match form with
  | "object" => isEmptyScalar n = true ∨ Keyed ["props", "index"] n ∧
      (∀ p ∈ (under g "props" n).flatMap listed, ∃ m, g.resolve p = some m ∧ Keyed ["name", "type", "optional", "readonly"] m) ∧
      ∀ i ∈ under g "index" n, Keyed ["key", "value"] i
  | "param" | "infer" => isScalar n = true ∨ Keyed ["name", "constraint"] n
  | "ref" => Keyed ["name", "args"] n
  | "function" => Keyed ["params", "result"] n
  | "index" => Keyed ["object", "index"] n
  | "intrinsic" => Keyed ["op", "arg"] n
  | "conditional" => Keyed ["check", "extends", "then", "else"] n
  | _ => True

/-- The node is written as a type is: at every type position below it stands a mapping with exactly one key, which is a
    known form, and every part that is written like a record has known keys, given at most once. -/
inductive Written (g : Graph) : Node → Prop
  | type {n key value parts : Node} {line : Nat} {tag : String} : g.resolve n = some (.mapping line tag [(key, value)]) →
      g.resolve value = some parts → key.value ∈ forms → RecordsOf g key.value parts →
      (∀ m ∈ positionsOf g key.value parts, Written g m) → Written g n

/-- From the node down, type positions end: the node unfolds to a finite tree. -/
inductive Unfolds (g : Graph) : Node → Prop
  | node {n : Node} : (∀ m ∈ positions g n, Unfolds g m) → Unfolds g n

end TypeCalculus.Document

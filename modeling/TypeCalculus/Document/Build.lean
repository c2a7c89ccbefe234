import TypeCalculus.Ty.Object
import TypeCalculus.Ty.Intersection
import TypeCalculus.Yaml.Node

/-! Types from document nodes. A type is a mapping with exactly one key, which names its form; the value
    holds the parts. Aliases are followed where they stand, so building need not come to an end where a node
    leads back to itself. An alias may also lead nowhere. Most steps tell a missing node like any other that
    does not fit; a few look into it all the same, and the program breaks off. -/

namespace TypeCalculus
namespace Document

open Yaml (Node Graph)

/-- What is wrong with a node that should be a type or a part of one. -/
inductive NodeFault where
  | missingType
  | notOneKey
  | unknownForm (key : String)
  | unknownPrimitive (name : String)
  | unknownKeyword (name : String)
  | unknownIndexKey (name : String)
  | unknownMapping (name : String)
  | notScalar
  | notFields (allowed : List String)
  | unexpectedKey (key : String)
  | repeatedKey (key : String)
  | required (key : String)
  | notFlag (key : String)
  | notTypes
  | emptyName
  | notSegments
  | notProps
  | argumentCount (name : String) (given : Nat)

def NodeFault.message : NodeFault → String
  | missingType => "missing type"
  | notOneKey => "a type is a mapping with exactly one key"
  | unknownForm key => "unknown type form " ++ Text.quote key
  | unknownPrimitive name => "unknown primitive " ++ Text.quote name
  | unknownKeyword name => "unknown keyword " ++ Text.quote name
  | unknownIndexKey name => "unknown index key " ++ Text.quote name
  | unknownMapping name => "unknown string mapping " ++ Text.quote name
  | notScalar => "expected a scalar"
  | notFields allowed => "expected a mapping with keys " ++ ", ".intercalate allowed
  | unexpectedKey key => "unexpected key " ++ Text.quote key
  | repeatedKey key => "key " ++ Text.quote key ++ " given twice"
  | required key => key ++ " is required"
  | notFlag key => key ++ " must be true or false"
  | notTypes => "expected a sequence of types"
  | emptyName => "empty name"
  | notSegments => "template is a sequence of text and holes"
  | notProps => "props is a sequence"
  | argumentCount name given =>
    name ++ " takes exactly one type argument, got " ++ toString given

/-- Why a node is not a type, with the line of the node; line zero is not told. -/
inductive BuildError where
  | node (line : Nat) (fault : NodeFault)
  | type (line : Nat) (error : TypeError)

def BuildError.message : BuildError → String
  | node line fault => atLine line (fault.message ++ ": malformed type")
  | type line error => atLine line error.message
where
  atLine (line : Nat) (text : String) : String :=
    if line = 0 then text else "line " ++ toString line ++ ": " ++ text

/-- The kind of the failure. -/
def BuildError.sentinel : BuildError → Sentinel
  | node .. => .malformedType
  | type _ e => e.sentinel

/-- Why building stops without a type: with a failure that is told, or because a node was looked into that is
    not there. -/
inductive Stop where
  | failed (error : BuildError)
  | crashed

/-- A step of building, wherever it comes to an end. -/
abbrev Building := ExceptT Stop Option

/-- The line of a node; one that is not there has none. -/
def lineOf (n : Option Node) : Nat := (n.map Node.line).getD 0

def fault {α : Type} (n : Option Node) (f : NodeFault) : Building α := throw (.failed (.node (lineOf n) f))

def crash {α : Type} : Building α := throw .crashed

/-- The outcome of a checked constructor, at the line of a node. -/
def checked {α : Type} (n : Option Node) : Except TypeError α → Building α
  | .ok a => pure a
  | .error e => throw (.failed (.type (lineOf n) e))

/-- The text of a scalar. -/
def scalar (n : Option Node) : Building String :=
  match n with
  | some (.scalar _ _ v) => pure v
  | n => fault n .notScalar

/-- The fields of a mapping, with their values resolved. -/
abbrev Fields := List (String × Option Node)

def fieldsOf (g : Graph) (allowed : List String) (found : Fields) :
    List (Node × Node) → Building Fields
  | [] => pure found
  | (k, v) :: rest => do
    if !allowed.contains k.value then fault k (.unexpectedKey k.value)
    if (found.lookup k.value).isSome then fault k (.repeatedKey k.value)
    fieldsOf g allowed (found ++ [(k.value, g.resolve v)]) rest

/-- Reads a mapping with known keys, each at most once. -/
def fields (g : Graph) (n : Option Node) (allowed : List String) : Building Fields :=
  match n with
  | some (.mapping _ _ entries) => fieldsOf g allowed [] entries
  | n => fault n (.notFields allowed)

/-- The node of a field that has to be given. -/
def requiredNode (parent : Option Node) (f : Fields) (key : String) : Building (Option Node) :=
  match f.lookup key with
  | some n => pure n
  | none => fault parent (.required key)

/-- A field that is true or false; it is false where it is missing. -/
def flag (f : Fields) (key : String) : Building Bool :=
  match f.lookup key with
  | none => pure false
  | some n => do
    match readBool? (← scalar n) with
    | some b => pure b
    | none => fault n (.notFlag key)

/-- The items of a sequence. -/
def items (n : Option Node) (f : NodeFault) : Building (List Node) :=
  match n with
  | some (.sequence _ _ xs) => pure xs
  | n => fault n f

section Forms

variable (g : Graph) (self : Node → Building Ty)

/-- The type of a node that was looked up. -/
def typeAt (n : Option Node) : Building Ty :=
  match n with
  | some n => self n
  | none => fault none .missingType

/-- A field that holds a type and has to be given. -/
def required (parent : Option Node) (f : Fields) (key : String) : Building Ty := do
  typeAt self (← requiredNode parent f key)

/-- A field that may hold a type. -/
def optional (f : Fields) (key : String) : Building Ty :=
  match f.lookup key with
  | some n => typeAt self n
  | none => pure .absent

def buildAll (n : Option Node) : Building (List Ty) := do
  (← items n .notTypes).mapM self

def buildKeyword (n : Option Node) : Building Ty := do
  let name ← scalar n
  match name with
  | "any" => pure .any
  | "unknown" => pure .unknown
  | "never" => pure .never
  | "void" => pure .void
  | "object" => pure Ty.emptyObject
  | _ => fault n (.unknownKeyword name)

def buildPrimitive (n : Option Node) : Building Ty := do
  let name ← scalar n
  match Prim.ofName? name with
  | some p => pure (.prim p)
  | none => fault n (.unknownPrimitive name)

def buildLiteral (n : Option Node) (base : Prim) : Building Ty := do
  let text ← scalar n
  checked n (Ty.readLiteral base (if base = .bigint then Ty.dropBigintMark text else text))

/-- A name, or a name with a constraint. -/
def buildNamed (n : Option Node) : Building (String × Ty) := do
  match n with
  | some (.scalar _ _ v) => if v = "" then fault n .emptyName else pure (v, .absent)
  | n =>
    let f ← fields g n ["name", "constraint"]
    let name ← scalar (← requiredNode n f "name")
    return (name, ← optional self f "constraint")

/-- A text or a hole. That the node is there is taken for granted. -/
def buildSegment (n : Node) : Building (Segment Ty) := do
  match g.resolve n with
  | none => crash
  | some (.scalar _ _ v) => return .text v
  | some n => return .hole (← self n)

def buildTemplate (n : Option Node) : Building Ty := do
  let segments ← (← items n .notSegments).mapM (buildSegment g self)
  checked n (Ty.newTemplate segments)

def buildProperty (n : Node) : Building (Property Ty) := do
  let n := g.resolve n
  let f ← fields g n ["name", "type", "optional", "readonly"]
  let key ← scalar (← requiredNode n f "name")
  let type ← required self n f "type"
  let optional ← flag f "optional"
  let readonly ← flag f "readonly"
  return ⟨key, type, optional, readonly⟩

def buildIndex (n : Option Node) : Building (IndexSignature Ty) := do
  let f ← fields g n ["key", "value"]
  let keyNode ← requiredNode n f "key"
  let name ← scalar keyNode
  match Prim.ofName? name with
  | none => fault keyNode (.unknownIndexKey name)
  | some key => return ⟨key, ← required self n f "value"⟩

/-- Nothing is written where a shape may stand. -/
def isEmptyScalar : Node → Bool
  | .scalar _ tag v => tag = "!!null" || v = ""
  | _ => false

/-- The properties of a shape. That their list is there where the field is given is taken for granted. -/
def buildProps (f : Fields) : Building (List (Property Ty)) :=
  match f.lookup "props" with
  | some none => crash
  | some props => do (← items props .notProps).mapM (buildProperty g self)
  | none => pure []

def buildSignature (f : Fields) : Building (Option (IndexSignature Ty)) :=
  match f.lookup "index" with
  | some index => do return some (← buildIndex g self index)
  | none => pure none

/-- A shape. That its node is there is taken for granted. -/
def buildObject (n : Option Node) : Building Ty :=
  match n with
  | none => crash
  | some shape => do
    if isEmptyScalar shape then return Ty.emptyObject
    let f ← fields g n ["props", "index"]
    let props ← buildProps g self f
    let index ← buildSignature g self f
    checked n (Ty.newObject props index)

/-- The types that a name applied to one argument stands for, where the name is built in. -/
def builtIn? (name : String) : Option (Ty → Ty) :=
  if name = "Array" then some fun t => .array t false
  else if name = "ReadonlyArray" then some fun t => .array t true
  else (Mapping.ofName? name).map fun op t => .mapping op t

def buildReference (n : Option Node) : Building Ty := do
  let f ← fields g n ["name", "args"]
  let name ← scalar (← requiredNode n f "name")
  let args ← match f.lookup "args" with
    | some a => buildAll self a
    | none => pure []
  match builtIn? name with
  | none => return .reference name args
  | some make =>
    match args with
    | [t] => return make t
    | args => fault n (.argumentCount name args.length)

def buildFunction (n : Option Node) : Building Ty := do
  let f ← fields g n ["params", "result"]
  let params ← match f.lookup "params" with
    | some p => buildAll self p
    | none => pure []
  let result ← optional self f "result"
  return .function params (if result.isAbsent then .void else result)

def buildAccess (n : Option Node) : Building Ty := do
  let f ← fields g n ["object", "index"]
  let target ← required self n f "object"
  let index ← required self n f "index"
  return .access target index

def buildMapping (n : Option Node) : Building Ty := do
  let f ← fields g n ["op", "arg"]
  let opNode ← requiredNode n f "op"
  let name ← scalar opNode
  match Mapping.ofName? name with
  | none => fault opNode (.unknownMapping name)
  | some op => return .mapping op (← required self n f "arg")

def buildConditional (n : Option Node) : Building Ty := do
  let f ← fields g n ["check", "extends", "then", "else"]
  let check ← required self n f "check"
  let bound ← required self n f "extends"
  let yes ← required self n f "then"
  let no ← required self n f "else"
  checked n (Ty.newConditional check bound yes no)

/-- Builds the type of a form from the node of its parts. -/
def buildForm (keyNode : Node) (n : Option Node) : Building Ty := do
  match keyNode.value with
  | "keyword" => buildKeyword n
  | "primitive" => buildPrimitive n
  | "string" => return Ty.stringLit (← scalar n)
  | "number" => buildLiteral n .number
  | "boolean" => buildLiteral n .boolean
  | "bigint" => buildLiteral n .bigint
  | "symbol" => buildLiteral n .symbol
  | "template" => buildTemplate g self n
  | "object" => buildObject g self n
  | "array" => return .array (← typeAt self n) false
  | "readonly_array" => return .array (← typeAt self n) true
  | "tuple" => return .tuple (← buildAll self n)
  | "union" => return Ty.unionOf (← buildAll self n)
  | "intersection" => return Ty.meetOf (← buildAll self n)
  | "param" =>
    let (name, constraint) ← buildNamed g self n
    return .param name constraint .absent
  | "infer" =>
    let (name, constraint) ← buildNamed g self n
    return .infer name constraint
  | "ref" => buildReference g self n
  | "function" => buildFunction g self n
  | "keyof" => return .keyOf (← typeAt self n)
  | "index" => buildAccess g self n
  | "intrinsic" => buildMapping g self n
  | "conditional" => buildConditional g self n
  | key => fault keyNode (.unknownForm key)

/-- One step of building, where `self` builds the types of parts. -/
def buildStep (n : Node) : Building Ty := do
  match g.resolve n with
  | none => fault none .missingType
  | some (.mapping _ _ [(key, value)]) => buildForm g self key (g.resolve value)
  | some n => fault n .notOneKey

end Forms

/-! Building nodes in more cases leaves the answers as they are. -/

section Extend

/-- The second step has the outcome of the first, wherever that has one. -/
def Extends {α : Type} (x y : Building α) : Prop := ∀ r, x.run = some r → y.run = some r

variable {α β : Type}

theorem Extends.refl (x : Building α) : Extends x x := fun _ h => h

theorem Extends.bind {x y : Building α} {f f' : α → Building β} (hx : Extends x y) (hf : ∀ a, Extends (f a) (f' a)) :
    Extends (x >>= f) (y >>= f') := by
  intro r hr
  change (x.run.bind (ExceptT.bindCont f)) = some r at hr
  change (y.run.bind (ExceptT.bindCont f')) = some r
  obtain ⟨o, ho, hr⟩ := Option.bind_eq_some_iff.1 hr
  rw [hx o ho]
  cases o with
  | error => exact hr
  | ok a => exact hf a r hr

theorem Extends.after {x : Building α} {f f' : α → Building β} (hf : ∀ a, Extends (f a) (f' a)) :
    Extends (x >>= f) (x >>= f') :=
  (Extends.refl x).bind hf

theorem Extends.mapM {f f' : α → Building β} (hf : ∀ a, Extends (f a) (f' a)) (xs : List α) :
    Extends (xs.mapM f) (xs.mapM f') := by
  induction xs with
  | nil => exact .refl _
  | cons x xs ih =>
    rw [List.mapM_cons, List.mapM_cons]
    exact (hf x).bind fun _ => ih.bind fun _ => .refl _

variable {g : Graph} {self self' : Node → Building Ty} (h : ∀ n, Extends (self n) (self' n))
include h

theorem typeAt_extend (n : Option Node) : Extends (typeAt self n) (typeAt self' n) := by
  cases n with
  | none => exact .refl _
  | some n => exact h n

theorem required_extend (parent : Option Node) (f : Fields) (key : String) :
    Extends (required self parent f key) (required self' parent f key) :=
  .after fun _ => typeAt_extend h _

theorem optional_extend (f : Fields) (key : String) : Extends (optional self f key) (optional self' f key) := by
  unfold optional
  split
  · exact typeAt_extend h _
  · exact .refl _

theorem buildAll_extend (n : Option Node) : Extends (buildAll self n) (buildAll self' n) := .after (.mapM h)

theorem buildNamed_extend (n : Option Node) : Extends (buildNamed g self n) (buildNamed g self' n) := by
  unfold buildNamed
  split
  · exact .refl _
  · exact .after fun _ => .after fun _ => .after fun _ => (optional_extend h _ _).bind fun _ => .refl _

theorem buildTemplate_extend (n : Option Node) : Extends (buildTemplate g self n) (buildTemplate g self' n) := by
  have segment : ∀ n, Extends (buildSegment g self n) (buildSegment g self' n) := by
    intro n
    unfold buildSegment
    split
    · exact .refl _
    · exact .refl _
    · exact (h _).bind fun _ => .refl _
  exact .after fun _ => (Extends.mapM segment _).bind fun _ => .refl _

theorem buildProperty_extend (n : Node) : Extends (buildProperty g self n) (buildProperty g self' n) :=
  .after fun _ => .after fun _ => .after fun _ => (required_extend h _ _ _).bind fun _ => .refl _

theorem buildIndex_extend (n : Option Node) : Extends (buildIndex g self n) (buildIndex g self' n) := by
  refine .after fun _ => .after fun _ => .after fun _ => ?_
  split
  · exact .refl _
  · exact (required_extend h _ _ _).bind fun _ => .refl _

theorem buildProps_extend (f : Fields) : Extends (buildProps g self f) (buildProps g self' f) := by
  unfold buildProps
  split
  · exact .refl _
  · exact .after fun _ => .mapM (buildProperty_extend h) _
  · exact .refl _

theorem buildSignature_extend (f : Fields) : Extends (buildSignature g self f) (buildSignature g self' f) := by
  unfold buildSignature
  split
  · exact (buildIndex_extend h _).bind fun _ => .refl _
  · exact .refl _

theorem buildObject_extend (n : Option Node) : Extends (buildObject g self n) (buildObject g self' n) := by
  unfold buildObject
  split
  · exact .refl _
  split
  · exact .refl _
  · exact .after fun f => (buildProps_extend h f).bind fun _ => (buildSignature_extend h f).bind fun _ => .refl _

theorem buildReference_extend (n : Option Node) : Extends (buildReference g self n) (buildReference g self' n) := by
  refine .after fun f => .after fun _ => .after fun _ => ?_
  dsimp only
  split
  · exact (buildAll_extend h _).bind fun _ => .refl _
  · exact .refl _

theorem buildFunction_extend (n : Option Node) : Extends (buildFunction g self n) (buildFunction g self' n) := by
  refine .after fun f => ?_
  dsimp only
  split
  · exact (buildAll_extend h _).bind fun _ => (optional_extend h _ _).bind fun _ => .refl _
  · exact (optional_extend h _ _).bind fun _ => .refl _

theorem buildMapping_extend (n : Option Node) : Extends (buildMapping g self n) (buildMapping g self' n) := by
  refine .after fun _ => .after fun _ => .after fun _ => ?_
  split
  · exact .refl _
  · exact (required_extend h _ _ _).bind fun _ => .refl _

theorem buildForm_extend (keyNode : Node) (n : Option Node) : Extends (buildForm g self keyNode n) (buildForm g self' keyNode n) := by
  have required := required_extend h n
  unfold buildForm
  split
  case h_8 => exact buildTemplate_extend h n
  case h_9 => exact buildObject_extend h n
  case h_10 | h_11 | h_19 => exact (typeAt_extend h n).bind fun _ => .refl _
  case h_12 | h_13 | h_14 => exact (buildAll_extend h n).bind fun _ => .refl _
  case h_15 | h_16 => exact (buildNamed_extend h n).bind fun _ => .refl _
  case h_17 => exact buildReference_extend h n
  case h_18 => exact buildFunction_extend h n
  case h_20 => exact .after fun _ => (required _ _).bind fun _ => (required _ _).bind fun _ => .refl _
  case h_21 => exact buildMapping_extend h n
  case h_22 =>
    exact .after fun _ => (required _ _).bind fun _ => (required _ _).bind fun _ => (required _ _).bind fun _ =>
      (required _ _).bind fun _ => .refl _
  all_goals exact .refl _

theorem buildStep_extend (n : Node) : Extends (buildStep g self n) (buildStep g self' n) := by
  unfold buildStep
  split
  · exact .refl _
  · exact buildForm_extend h _ _
  · exact .refl _

end Extend

end Document

/-- What building a node comes to, wherever it comes to an end. -/
def Yaml.Graph.outcome (g : Yaml.Graph) (n : Yaml.Node) : Option (Except Document.Stop Ty) :=
  (Document.buildStep g (fun n => ExceptT.mk (g |>.outcome n)) n).run
partial_fixpoint monotonicity fun self self' h n => by
  have mono : ∀ n, Document.Extends (ExceptT.mk (self n)) (ExceptT.mk (self' n)) := by
    intro n r hr
    have less := h n
    change self n = some r at hr
    change self' n = some r
    generalize self n = x, self' n = y at less hr
    cases less with
    | bot => cases hr
    | refl => exact hr
  have whole := Document.buildStep_extend (g := g) mono n
  dsimp only
  generalize Document.buildStep g (fun n => ExceptT.mk (self n)) n = x,
    Document.buildStep g (fun n => ExceptT.mk (self' n)) n = y at whole
  cases x with
  | none => exact .bot
  | some r => exact whole r rfl ▸ .refl

namespace Document

open Yaml (Node Graph)
export Yaml.Graph (outcome)

/-- The outcome of a node as a type or a failure. Building that does not come to an end or breaks off gives neither; a
    fault of the node stands for its outcome here. -/
def settle (n : Node) : Option (Except Stop Ty) → Except BuildError Ty
  | some (.ok t) => .ok t
  | some (.error (.failed e)) => .error e
  | _ => .error (.node n.line .missingType)

/-- The type of a node. -/
def build (g : Graph) (n : Node) : Except BuildError Ty := settle n (outcome g n)

end Document
end TypeCalculus

/-! Types of a structural type language, as trees. A tree may be written down in any shape: unions may be
    unsorted, templates may hold text next to text, and a type may be missing where one is expected. The
    normalising constructors of the other modules bring trees into their usual form. -/

namespace TypeCalculus

/-- The base types. -/
inductive Prim where
  | string | number | boolean | bigint | symbol | null | undefined
  deriving DecidableEq, Repr, Inhabited

namespace Prim

/-- All base types, in the order of their codes. -/
def all : List Prim := [string, number, boolean, bigint, symbol, null, undefined]

def code : Prim → Nat
  | string => 0
  | number => 1
  | boolean => 2
  | bigint => 3
  | symbol => 4
  | null => 5
  | undefined => 6

def name : Prim → String
  | string => "string"
  | number => "number"
  | boolean => "boolean"
  | bigint => "bigint"
  | symbol => "symbol"
  | null => "null"
  | undefined => "undefined"

/-- The base type with a given name. -/
def ofName? (s : String) : Option Prim := all.find? (·.name = s)

/-- The base type with a given code; codes out of range stand for `undefined`. -/
def ofCode (n : Int) : Prim :=
  (all.find? fun p => (p.code : Int) = n).getD undefined

/-- The name behind a code, also for codes that no base type has. -/
def codeName (n : Int) : String :=
  match all.find? fun p => (p.code : Int) = n with
  | some p => p.name
  | none => "PrimitiveKind(" ++ toString n ++ ")"

end Prim

/-- The variants of a type. -/
inductive Kind where
  | any | unknown | void | never | primitive | literal | template | object | array | tuple | union
  | intersection | param | conditional | infer | reference | function | keyOf | access | mapping
  deriving DecidableEq, Repr

namespace Kind

/-- All variants, in the order of their codes. -/
def all : List Kind :=
  [any, unknown, void, never, primitive, literal, template, object, array, tuple, union, intersection,
   param, conditional, infer, reference, function, keyOf, access, mapping]

def code (k : Kind) : Nat := all.idxOf k

def name : Kind → String
  | any => "any"
  | unknown => "unknown"
  | void => "void"
  | never => "never"
  | primitive => "primitive"
  | literal => "literal"
  | template => "template"
  | object => "object"
  | array => "array"
  | tuple => "tuple"
  | union => "union"
  | intersection => "intersection"
  | param => "param"
  | conditional => "conditional"
  | infer => "infer"
  | reference => "reference"
  | function => "function"
  | keyOf => "keyof"
  | access => "indexed-access"
  | mapping => "intrinsic"

/-- The name behind a code, also for codes that no variant has. -/
def codeName (n : Int) : String :=
  match all.find? fun k => (k.code : Int) = n with
  | some k => k.name
  | none => "Kind(" ++ toString n ++ ")"

end Kind

/-- The built-in mappings of strings. An unknown mapping leaves text as it is. -/
inductive Mapping where
  | uppercase | lowercase | capitalize | uncapitalize | unknown
  deriving DecidableEq, Repr, Inhabited

namespace Mapping

def name : Mapping → String
  | uppercase => "Uppercase"
  | lowercase => "Lowercase"
  | capitalize => "Capitalize"
  | uncapitalize => "Uncapitalize"
  | unknown => "Intrinsic?"

/-- The mapping with a given name; an unknown mapping has none. -/
def ofName? (s : String) : Option Mapping :=
  [uppercase, lowercase, capitalize, uncapitalize].find? (·.name = s)

def code : Mapping → Nat
  | uppercase => 0
  | lowercase => 1
  | capitalize => 2
  | uncapitalize => 3
  | unknown => 99

end Mapping

/-- A named member of an object shape. -/
structure Property (τ : Type) where
  key : String
  type : τ
  optional : Bool := false
  readonly : Bool := false

/-- `[key: string]: value` or `[key: number]: value`. -/
structure IndexSignature (τ : Type) where
  key : Prim
  value : τ

/-- A piece of a template: literal text or a hole for a type. -/
inductive Segment (τ : Type) where
  | text (s : String)
  | hole (t : τ)

/-- A type. -/
inductive Ty where
  /-- No type where one may stand, such as the constraint of an unconstrained parameter. -/
  | absent
  | any
  | unknown
  | void
  | never
  | prim (p : Prim)
  /-- One exact value of a base type, with its canonical text. -/
  | literal (base : Prim) (text : String)
  | template (segments : List (Segment Ty))
  | object (props : List (Property Ty)) (index : Option (IndexSignature Ty))
  | array (elem : Ty) (readonly : Bool)
  | tuple (elems : List Ty)
  | union (members : List Ty)
  | intersection (members : List Ty)
  /-- A type parameter. Its identity is its name alone. -/
  | param (name : String) (constraint default : Ty)
  /-- A placeholder that captures what it is compared with. -/
  | infer (name : String) (constraint : Ty)
  /-- `check extends bound ? yes : no`. A distributive one maps over the members of a union that its
      checked parameter is bound to. -/
  | conditional (check bound yes no : Ty) (distribute : Bool)
  /-- A named type, applied to arguments. -/
  | reference (name : String) (args : List Ty)
  | function (params : List Ty) (result : Ty)
  | keyOf (target : Ty)
  /-- `target[index]`. -/
  | access (target index : Ty)
  | mapping (op : Mapping) (arg : Ty)
  deriving Inhabited

namespace Ty

/-- The `object` keyword: the shape without members. -/
def emptyObject : Ty := object [] none

def string : Ty := prim .string
def number : Ty := prim .number
def boolean : Ty := prim .boolean
def symbol : Ty := prim .symbol
def null : Ty := prim .null
def undefined : Ty := prim .undefined

def stringLit (s : String) : Ty := literal .string s

def boolLit (b : Bool) : Ty := literal .boolean (if b then "true" else "false")

/-- The two literals that make up `boolean`. -/
def booleans : List Ty := [boolLit false, boolLit true]

def isAbsent : Ty → Bool
  | absent => true
  | _ => false

def isAny : Ty → Bool
  | any => true
  | _ => false

def isUnknown : Ty → Bool
  | unknown => true
  | _ => false

def isNever : Ty → Bool
  | never => true
  | _ => false

def isParam : Ty → Bool
  | param .. => true
  | _ => false

def isLiteral : Ty → Bool
  | literal .. => true
  | _ => false

def isConditional : Ty → Bool
  | conditional .. => true
  | _ => false

/-- The type, unless it is missing. -/
def present? : Ty → Option Ty
  | absent => none
  | t => some t

/-- The variant of a type that is not missing. -/
def kind? : Ty → Option Kind
  | absent => none
  | any => some .any
  | unknown => some .unknown
  | void => some .void
  | never => some .never
  | prim _ => some .primitive
  | literal .. => some .literal
  | template _ => some .template
  | object .. => some .object
  | array .. => some .array
  | tuple _ => some .tuple
  | union _ => some .union
  | intersection _ => some .intersection
  | param .. => some .param
  | infer .. => some .infer
  | conditional .. => some .conditional
  | reference .. => some .reference
  | function .. => some .function
  | keyOf _ => some .keyOf
  | access .. => some .access
  | mapping .. => some .mapping

/-- The base type a value-like type belongs to. -/
def baseOf? : Ty → Option Prim
  | prim p => some p
  | literal base _ => some base
  | template _ => some .string
  | _ => none

end Ty

namespace Segment

/-- A hole, or empty text where the type is missing. -/
def ofHole : Ty → Segment Ty
  | .absent => .text ""
  | t => .hole t

end Segment

end TypeCalculus

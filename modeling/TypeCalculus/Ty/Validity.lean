import TypeCalculus.Ty.Fault

/-! Where things may stand in a type: placeholders only under the bound of a conditional, string-like
    types only in the holes of templates, and no type missing. -/

namespace TypeCalculus.Ty

mutual

/-- The type may stand in the hole of a template. -/
def isStringLike : Ty → Bool
  | prim p => p ≠ .symbol
  | literal base _ => base ≠ .symbol
  | any | never => true
  | union members => allStringLike members
  | intersection members => someStringLike members
  | template _ | param .. | infer .. | mapping .. | keyOf _ | access .. | conditional ..
  | reference .. => true
  | _ => false
termination_by structural t => t

def allStringLike : List Ty → Bool
  | [] => true
  | t :: ts => t.isStringLike && allStringLike ts
termination_by structural ts => ts

def someStringLike : List Ty → Bool
  | [] => false
  | t :: ts => t.isStringLike || someStringLike ts
termination_by structural ts => ts

end

/-- The first hole that may not stand in a template. -/
def badHole? (segments : List (Segment Ty)) : Option Ty :=
  segments.findSome? fun
    | .text _ => none
    | .hole t => if t.isStringLike then none else some t

/-- The key of the first property without a type. -/
def untypedKey? (props : List (Property Ty)) : Option String :=
  (props.find? (·.type.isAbsent)).map (·.key)

mutual

/-- Checks a tree; `inBound` says that it stands under the bound of a conditional. -/
def validateIn (inBound : Bool) : Ty → Except TypeError Unit
  | absent => .error (.malformed .absent .missingType)
  | infer name constraint =>
    if !inBound then .error (.malformed (infer name constraint) .misplacedInfer)
    else match constraint with
      | absent => pure ()
      | constraint => constraint.validateIn false
  | conditional check bound yes no _ => do
    check.validateIn inBound
    yes.validateIn inBound
    no.validateIn inBound
    bound.validateIn true
  | template segments =>
    match badHole? segments with
    | some hole => .error (.malformed (template segments) (.holeNotEmbeddable hole))
    | none => validateSegments inBound segments
  | object props index => do
    match index with
    | some ⟨key, _⟩ =>
      if key ≠ .string && key ≠ .number then
        throw (.malformed (object props index) (.indexKey key))
    | none => pure ()
    match untypedKey? props with
    | some key => throw (.malformed (object props index) (.propertyUntyped key))
    | none => pure ()
    validateProps inBound props
    validateIndex inBound index
  | param name constraint default => do
    if name = "" then throw (.malformed (param name constraint default) .unnamedParam)
    match constraint with
    | absent => pure ()
    | constraint => constraint.validateIn false
    match default with
    | absent => pure ()
    | default => default.validateIn false
  | array elem _ => elem.validateIn inBound
  | tuple elems => validateAll inBound elems
  | union members => validateAll inBound members
  | intersection members => validateAll inBound members
  | reference _ args => validateAll inBound args
  | function params result => do
    validateAll inBound params
    result.validateIn inBound
  | keyOf target => target.validateIn inBound
  | access target index => do
    target.validateIn inBound
    index.validateIn inBound
  | mapping _ arg => arg.validateIn inBound
  | _ => pure ()
termination_by structural t => t

def validateAll (inBound : Bool) : List Ty → Except TypeError Unit
  | [] => pure ()
  | t :: ts => do
    t.validateIn inBound
    validateAll inBound ts
termination_by structural ts => ts

def validateSegments (inBound : Bool) : List (Segment Ty) → Except TypeError Unit
  | [] => pure ()
  | .text _ :: rest => validateSegments inBound rest
  | .hole t :: rest => do
    t.validateIn inBound
    validateSegments inBound rest
termination_by structural segments => segments

def validateProps (inBound : Bool) : List (Property Ty) → Except TypeError Unit
  | [] => pure ()
  | ⟨_, type, _, _⟩ :: rest => do
    type.validateIn inBound
    validateProps inBound rest
termination_by structural props => props

def validateIndex (inBound : Bool) : Option (IndexSignature Ty) → Except TypeError Unit
  | none => pure ()
  | some ⟨_, value⟩ => value.validateIn inBound
termination_by structural index => index

end

/-- Checks a type that stands by itself. -/
def validate (t : Ty) : Except TypeError Unit := t.validateIn false

/-- Checks the bound of a conditional, where placeholders may stand. -/
def validateBound (t : Ty) : Except TypeError Unit := t.validateIn true

/-- A conditional whose operands are checked. It is distributive when it checks a bare parameter. -/
def newConditional (check bound yes no : Ty) : Except TypeError Ty := do
  if check.isAbsent || bound.isAbsent || yes.isAbsent || no.isAbsent then
    malformed .operandMissing
  check.validate
  yes.validate
  no.validate
  bound.validateBound
  return conditional check bound yes no check.isParam

end TypeCalculus.Ty

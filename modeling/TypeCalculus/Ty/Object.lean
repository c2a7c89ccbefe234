import TypeCalculus.Ty.Walk
import TypeCalculus.Ty.Validity
import TypeCalculus.Assignable.Relation

/-! Object types whose members are checked: keys are unique, every member has a type, and every property
    under an index signature is assignable to its value where both are known. -/

namespace TypeCalculus.Ty

/-- The first property that has no type or repeats a key. -/
def checkProps (seen : List String) : List (Property Ty) → Except TypeError Unit
  | [] => pure ()
  | p :: ps =>
    if p.type.isAbsent then malformed (.propertyUntyped p.key)
    else if seen.contains p.key then malformed (.propertyRepeated p.key)
    else checkProps (p.key :: seen) ps

def checkIndex : Option (IndexSignature Ty) → Except TypeError Unit
  | none => pure ()
  | some index =>
    if index.key ≠ .string && index.key ≠ .number then malformed (.indexKey index.key)
    else if index.value.isAbsent then malformed .indexUntyped
    else pure ()

/-- A property that an index signature covers and does not accept, where both are known. -/
def clashes (index : IndexSignature Ty) (p : Property Ty) : Bool :=
  index.covers p.key && p.type.isConcrete && !Assignable.assignable p.type index.value

/-- An object type whose members are checked. -/
def newObject (props : List (Property Ty)) (index : Option (IndexSignature Ty)) :
    Except TypeError Ty := do
  checkProps [] props
  checkIndex index
  let shape := Shape.ofProps props index
  match index with
  | none => return shape.toTy
  | some i =>
    if i.value.isConcrete then
      match shape.props.find? (clashes i) with
      | some p =>
        throw (.malformed shape.toTy (.propertyIncompatible p.key p.type i.value))
      | none => return shape.toTy
    else
      return shape.toTy

end TypeCalculus.Ty

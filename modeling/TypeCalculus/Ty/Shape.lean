import TypeCalculus.Ty.Printed

/-! Object shapes: properties in ascending order of their keys, and an index signature. -/

namespace TypeCalculus

/-- The members of an object type. -/
structure Shape where
  props : List (Property Ty) := []
  index : Option (IndexSignature Ty) := none

namespace Shape

/-- The object type of a shape. -/
def toTy (s : Shape) : Ty := .object s.props s.index

/-- Puts a property in the place of one of the same key, or last if there is none. -/
def putProp (p : Property Ty) : List (Property Ty) → List (Property Ty)
  | [] => [p]
  | q :: qs => if q.key = p.key then p :: qs else q :: putProp p qs

/-- The shape of some properties, where a later one replaces an earlier one of the same key. -/
def ofProps (props : List (Property Ty)) (index : Option (IndexSignature Ty)) : Shape :=
  ⟨(props.foldl (fun kept p => putProp p kept) []).mergeSort fun p q => decide (p.key ≤ q.key), index⟩

/-- The first position from `low` on whose key is not below the given one, found by halving the range
    up to `high`. -/
def lowerBound (props : List (Property Ty)) (key : String) (low high : Nat) : Nat :=
  if low < high then
    let middle := (low + high) / 2
    match props[middle]? with
    | some p => if p.key < key then lowerBound props key (middle + 1) high
      else lowerBound props key low middle
    | none => lowerBound props key low middle
  else low
termination_by high - low

/-- The property of a key. Properties are expected in ascending order. -/
def find? (props : List (Property Ty)) (key : String) : Option (Property Ty) :=
  (props[lowerBound props key 0 props.length]?).filter (·.key = key)

end Shape

/-- A key falls under an index signature: every key under one for strings, numeric keys under one for
    numbers. -/
def IndexSignature.covers (i : IndexSignature Ty) (key : String) : Bool :=
  i.key = .string || isNumericKey key

/-- The key under which arrays and tuples keep their length. -/
def lengthKey : String := "length"

end TypeCalculus

import TypeCalculus.Ty.Basic

/-! Walks over the parts of a type. The parts of a node are its direct subtrees in a fixed order; what is
    written beside a parameter, its constraint and default, is not part of the tree walked. -/

namespace TypeCalculus.Ty

/-- The types in the holes of a template. -/
def holes (segments : List (Segment Ty)) : List Ty :=
  segments.filterMap fun
    | .text _ => none
    | .hole t => some t

/-- The direct subtrees of a type. -/
def parts : Ty → List Ty
  | template segments => holes segments
  | object props index => props.map (·.type) ++ (index.map (·.value)).toList
  | array elem _ => [elem]
  | tuple elems => elems
  | union members => members
  | intersection members => members
  | infer _ constraint => constraint.present?.toList
  | conditional check bound yes no _ => [check, bound, yes, no]
  | reference _ args => args
  | function params result => params ++ [result]
  | keyOf target => [target]
  | access target index => [target, index]
  | mapping _ arg => [arg]
  | _ => []

mutual

/-- Some node of the tree satisfies the test. -/
def occurs (p : Ty → Bool) : Ty → Bool
  | absent => false
  | template segments => p (template segments) || occursInSegments p segments
  | object props index =>
    p (object props index) || occursInProps p props || occursInIndex p index
  | array elem readonly => p (array elem readonly) || elem.occurs p
  | tuple elems => p (tuple elems) || occursInAll p elems
  | union members => p (union members) || occursInAll p members
  | intersection members => p (intersection members) || occursInAll p members
  | infer name constraint => p (infer name constraint) || constraint.occurs p
  | conditional check bound yes no d =>
    p (conditional check bound yes no d) || check.occurs p || bound.occurs p || yes.occurs p ||
      no.occurs p
  | reference name args => p (reference name args) || occursInAll p args
  | function params result =>
    p (function params result) || occursInAll p params || result.occurs p
  | keyOf target => p (keyOf target) || target.occurs p
  | access target index => p (access target index) || target.occurs p || index.occurs p
  | mapping op arg => p (mapping op arg) || arg.occurs p
  | t => p t
termination_by structural t => t

def occursInAll (p : Ty → Bool) : List Ty → Bool
  | [] => false
  | t :: ts => t.occurs p || occursInAll p ts
termination_by structural ts => ts

def occursInSegments (p : Ty → Bool) : List (Segment Ty) → Bool
  | [] => false
  | .text _ :: rest => occursInSegments p rest
  | .hole t :: rest => t.occurs p || occursInSegments p rest
termination_by structural segments => segments

def occursInProps (p : Ty → Bool) : List (Property Ty) → Bool
  | [] => false
  | ⟨_, type, _, _⟩ :: rest => type.occurs p || occursInProps p rest
termination_by structural props => props

def occursInIndex (p : Ty → Bool) : Option (IndexSignature Ty) → Bool
  | none => false
  | some ⟨_, value⟩ => value.occurs p
termination_by structural index => index

end

/-- The type waits for a binding or an evaluation. -/
def isPending : Ty → Bool
  | param .. | infer .. | conditional .. | keyOf _ | access .. | mapping .. => true
  | _ => false

/-- The tree holds no parameters, placeholders or operators still to be evaluated. -/
def isConcrete (t : Ty) : Bool := !t.occurs isPending

def isInfer : Ty → Bool
  | infer .. => true
  | _ => false

def containsInfer (t : Ty) : Bool := t.occurs isInfer

mutual

/-- The placeholders of a tree in order of first appearance, after those already found. -/
def inferNamesAfter (found : List String) : Ty → List String
  | infer name constraint =>
    inferNamesAfter (if found.contains name then found else found ++ [name]) constraint
  | template segments => inferNamesInSegments found segments
  | object props index => inferNamesInIndex (inferNamesInProps found props) index
  | array elem _ => inferNamesAfter found elem
  | tuple elems => inferNamesInAll found elems
  | union members => inferNamesInAll found members
  | intersection members => inferNamesInAll found members
  | conditional check bound yes no _ =>
    inferNamesAfter (inferNamesAfter (inferNamesAfter (inferNamesAfter found check) bound) yes) no
  | reference _ args => inferNamesInAll found args
  | function params result => inferNamesAfter (inferNamesInAll found params) result
  | keyOf target => inferNamesAfter found target
  | access target index => inferNamesAfter (inferNamesAfter found target) index
  | mapping _ arg => inferNamesAfter found arg
  | _ => found
termination_by structural t => t

def inferNamesInAll (found : List String) : List Ty → List String
  | [] => found
  | t :: ts => inferNamesInAll (inferNamesAfter found t) ts
termination_by structural ts => ts

def inferNamesInSegments (found : List String) : List (Segment Ty) → List String
  | [] => found
  | .text _ :: rest => inferNamesInSegments found rest
  | .hole t :: rest => inferNamesInSegments (inferNamesAfter found t) rest
termination_by structural segments => segments

def inferNamesInProps (found : List String) : List (Property Ty) → List String
  | [] => found
  | ⟨_, type, _, _⟩ :: rest => inferNamesInProps (inferNamesAfter found type) rest
termination_by structural props => props

def inferNamesInIndex (found : List String) : Option (IndexSignature Ty) → List String
  | none => found
  | some ⟨_, value⟩ => inferNamesAfter found value
termination_by structural index => index

end

/-- The names that the placeholders of a tree declare, in order of first appearance. -/
def inferNames (t : Ty) : List String := inferNamesAfter [] t

/-- Puts a name into an ascending list of different names. -/
def insertName (name : String) : List String → List String
  | [] => [name]
  | n :: ns =>
    if name < n then name :: n :: ns
    else if name = n then n :: ns
    else n :: insertName name ns

mutual

/-- The free parameters of a tree, put into an ascending list. Names that the bound of a conditional
    declares are bound in its true branch. -/
def freeInto (bound : List String) (found : List String) : Ty → List String
  | param name _ _ => if bound.contains name then found else insertName name found
  | conditional check ext yes no _ =>
    freeInto (ext.inferNames ++ bound)
      (freeInto bound (freeInto bound (freeInto bound found check) ext) no) yes
  | template segments => freeInSegments bound found segments
  | object props index => freeInIndex bound (freeInProps bound found props) index
  | array elem _ => freeInto bound found elem
  | tuple elems => freeInAll bound found elems
  | union members => freeInAll bound found members
  | intersection members => freeInAll bound found members
  | infer _ constraint => freeInto bound found constraint
  | reference _ args => freeInAll bound found args
  | function params result => freeInto bound (freeInAll bound found params) result
  | keyOf target => freeInto bound found target
  | access target index => freeInto bound (freeInto bound found target) index
  | mapping _ arg => freeInto bound found arg
  | _ => found
termination_by structural t => t

def freeInAll (bound : List String) (found : List String) : List Ty → List String
  | [] => found
  | t :: ts => freeInAll bound (freeInto bound found t) ts
termination_by structural ts => ts

def freeInSegments (bound : List String) (found : List String) : List (Segment Ty) → List String
  | [] => found
  | .text _ :: rest => freeInSegments bound found rest
  | .hole t :: rest => freeInSegments bound (freeInto bound found t) rest
termination_by structural segments => segments

def freeInProps (bound : List String) (found : List String) : List (Property Ty) → List String
  | [] => found
  | ⟨_, type, _, _⟩ :: rest => freeInProps bound (freeInto bound found type) rest
termination_by structural props => props

def freeInIndex (bound : List String) (found : List String) :
    Option (IndexSignature Ty) → List String
  | none => found
  | some ⟨_, value⟩ => freeInto bound found value
termination_by structural index => index

end

/-- The names of the type parameters a tree refers to freely, ascending. -/
def freeParams (t : Ty) : List String := freeInto [] [] t

def hasFreeParams (t : Ty) : Bool := !t.freeParams.isEmpty

mutual

/-- How many nodes a tree has. -/
def size : Ty → Nat
  | template segments => 1 + sizeOfSegments segments
  | object props index => 1 + sizeOfProps props + sizeOfIndex index
  | array elem _ => 1 + elem.size
  | tuple elems => 1 + sizeOfAll elems
  | union members => 1 + sizeOfAll members
  | intersection members => 1 + sizeOfAll members
  | infer _ constraint => 1 + constraint.size
  | conditional check bound yes no _ => 1 + check.size + bound.size + yes.size + no.size
  | reference _ args => 1 + sizeOfAll args
  | function params result => 1 + sizeOfAll params + result.size
  | keyOf target => 1 + target.size
  | access target index => 1 + target.size + index.size
  | mapping _ arg => 1 + arg.size
  | _ => 1
termination_by structural t => t

def sizeOfAll : List Ty → Nat
  | [] => 0
  | t :: ts => t.size + sizeOfAll ts
termination_by structural ts => ts

def sizeOfSegments : List (Segment Ty) → Nat
  | [] => 0
  | .text _ :: rest => 1 + sizeOfSegments rest
  | .hole t :: rest => t.size + sizeOfSegments rest
termination_by structural segments => segments

def sizeOfProps : List (Property Ty) → Nat
  | [] => 0
  | ⟨_, type, _, _⟩ :: rest => type.size + sizeOfProps rest
termination_by structural props => props

def sizeOfIndex : Option (IndexSignature Ty) → Nat
  | none => 0
  | some ⟨_, value⟩ => value.size
termination_by structural index => index

end

theorem size_pos (t : Ty) : 0 < t.size := by
  cases t <;> simp only [size] <;> omega

end TypeCalculus.Ty

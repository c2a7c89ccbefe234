import TypeCalculus.Ty.Printed
import TypeCalculus.Ty.Identical

/-! Unions in normal form: flat, without `never`, duplicates and literals covered by their base type, and
    in the order of their texts. `any` and `unknown` absorb the rest. -/

namespace TypeCalculus.Ty

mutual

/-- The members of a type seen as a union. -/
def unionMembers : Ty → List Ty
  | absent => []
  | union members => unionMembersAll members
  | t => [t]
termination_by structural t => t

def unionMembersAll : List Ty → List Ty
  | [] => []
  | t :: ts => t.unionMembers ++ unionMembersAll ts
termination_by structural ts => ts

end

/-- Some of the types is the given base type. -/
def holdsPrim (ts : List Ty) (p : Prim) : Bool :=
  ts.any fun
    | prim q => q == p
    | _ => false

/-- The type adds nothing to a union of the given types. -/
def isRedundantIn (ts : List Ty) : Ty → Bool
  | never => true
  | literal base _ => holdsPrim ts base
  | _ => false

/-- The types in the order of their texts; types with the same text keep their order. -/
def sortByText (ts : List Ty) : List Ty :=
  ((ts.map fun t => (t.print, t)).mergeSort fun a b => decide (a.1 ≤ b.1)).map (·.2)

/-- The union of types in normal form. -/
def unionOf (ts : List Ty) : Ty :=
  let flat := unionMembersAll ts
  if flat.any isAny then any
  else if flat.any isUnknown then unknown
  else
    match distinct [] (flat.filter fun t => !isRedundantIn flat t) with
    | [] => never
    | [t] => t
    | unique => union (sortByText unique)

/-- Some member of a union is identical to the type. -/
def hasMember (members : List Ty) (t : Ty) : Bool := members.any (·.identical t)

end TypeCalculus.Ty

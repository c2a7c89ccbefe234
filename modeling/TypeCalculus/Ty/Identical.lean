import TypeCalculus.Ty.Basic

/-! Identity of types: equality of trees in which parameters are told apart by name only, so that the
    constraint and default written at an occurrence do not count. -/

namespace TypeCalculus.Ty

mutual

/-- The two types are the same tree up to the annotations of parameters. -/
def identical : Ty → Ty → Bool
  | absent, absent => true
  | any, any => true
  | unknown, unknown => true
  | void, void => true
  | never, never => true
  | prim p, prim q => p == q
  | literal p s, literal q t => p == q && s == t
  | template xs, template ys => identicalSegments xs ys
  | object ps i, object qs j => identicalProps ps qs && identicalIndex i j
  | array x r, array y s => r == s && identical x y
  | tuple xs, tuple ys => identicalAll xs ys
  | union xs, union ys => identicalAll xs ys
  | intersection xs, intersection ys => identicalAll xs ys
  | param n _ _, param m _ _ => n == m
  | infer n x, infer m y => n == m && identical x y
  | conditional c b y n d, conditional c' b' y' n' d' =>
    d == d' && identical c c' && identical b b' && identical y y' && identical n n'
  | reference n xs, reference m ys => n == m && identicalAll xs ys
  | function xs x, function ys y => identicalAll xs ys && identical x y
  | keyOf x, keyOf y => identical x y
  | access x i, access y j => identical x y && identical i j
  | mapping f x, mapping g y => f == g && identical x y
  | _, _ => false
termination_by structural t => t

def identicalAll : List Ty → List Ty → Bool
  | [], [] => true
  | x :: xs, y :: ys => identical x y && identicalAll xs ys
  | _, _ => false
termination_by structural ts => ts

def identicalSegments : List (Segment Ty) → List (Segment Ty) → Bool
  | [], [] => true
  | .text s :: xs, .text t :: ys => s == t && identicalSegments xs ys
  | .hole x :: xs, .hole y :: ys => identical x y && identicalSegments xs ys
  | _, _ => false
termination_by structural segments => segments

def identicalProps : List (Property Ty) → List (Property Ty) → Bool
  | [], [] => true
  | ⟨k, x, o, r⟩ :: xs, ⟨k', y, o', r'⟩ :: ys =>
    k == k' && o == o' && r == r' && identical x y && identicalProps xs ys
  | _, _ => false
termination_by structural props => props

def identicalIndex : Option (IndexSignature Ty) → Option (IndexSignature Ty) → Bool
  | none, none => true
  | some ⟨k, x⟩, some ⟨k', y⟩ => k == k' && identical x y
  | _, _ => false
termination_by structural index => index

end

/-- The types without those identical to an earlier one or to one already seen. -/
def distinct (seen : List Ty) : List Ty → List Ty
  | [] => []
  | t :: ts =>
    if seen.any (·.identical t) then distinct seen ts else t :: distinct (t :: seen) ts

end TypeCalculus.Ty

import TypeCalculus.Ty.Intersection

/-! Rebuilding a type from its changed parts through the normalising constructors. -/

namespace TypeCalculus.Ty

/-- Applies a function to the type in a hole. -/
def mapHole {m : Type → Type} [Monad m] (f : Ty → m Ty) : Segment Ty → m (Segment Ty)
  | .text s => return .text s
  | .hole t => return Segment.ofHole (← f t)

/-- Applies a function to the type of a property. -/
def mapProp {m : Type → Type} [Monad m] (f : Ty → m Ty) (p : Property Ty) : m (Property Ty) :=
  return { p with type := ← f p.type }

/-- Applies a function to the value of an index signature. -/
def mapIndex {m : Type → Type} [Monad m] (f : Ty → m Ty) :
    Option (IndexSignature Ty) → m (Option (IndexSignature Ty))
  | none => return none
  | some i => return some { i with value := ← f i.value }

/-- Applies a function to the direct parts of a type, in order, and builds the type of the same variant
    from the results. Types without parts stay as they are. -/
def rebuild {m : Type → Type} [Monad m] (f : Ty → m Ty) : Ty → m Ty
  | template segments => return templateOf (← segments.mapM (mapHole f))
  | object props index => do
    let props ← props.mapM (mapProp f)
    let index ← mapIndex f index
    return (Shape.ofProps props index).toTy
  | array elem readonly => return array (← f elem) readonly
  | tuple elems => return tuple (← elems.mapM f)
  | union members => return unionOf (← members.mapM f)
  | intersection members => return meetOf (← members.mapM f)
  | infer name constraint => do
    if constraint.isAbsent then return infer name constraint
    return infer name (← f constraint)
  | conditional check bound yes no distribute => do
    let check ← f check
    let bound ← f bound
    let yes ← f yes
    let no ← f no
    return conditional check bound yes no (check.isParam && distribute)
  | reference name args => return reference name (← args.mapM f)
  | function params result => do
    let params ← params.mapM f
    let result ← f result
    return function params result
  | keyOf target => return keyOf (← f target)
  | access target index => do
    let target ← f target
    let index ← f index
    return access target index
  | mapping op arg => return mapping op (← f arg)
  | t => return t

/-! ### Where a rebuilt type exists -/

section Extend

theorem bind_extend {α β : Type} {x y : Option α} {f g : α → Option β} (hx : ∀ a, x = some a → y = some a)
    (hf : ∀ a b, f a = some b → g a = some b) (b : β) (h : x >>= f = some b) : y >>= g = some b := by
  obtain ⟨a, ha, hb⟩ := Option.bind_eq_some_iff.1 h
  exact Option.bind_eq_some_iff.2 ⟨a, hx a ha, hf a b hb⟩

theorem mapM_extend {α β : Type} {f g : α → Option β} (h : ∀ a b, f a = some b → g a = some b) (xs : List α)
    (ys : List β) (hys : xs.mapM f = some ys) : xs.mapM g = some ys := by
  induction xs generalizing ys with
  | nil => simpa using hys
  | cons x xs ih =>
    rw [List.mapM_cons] at hys ⊢
    exact bind_extend (h x) (fun _ => bind_extend ih fun _ _ hr => hr) ys hys

variable {f g : Ty → Option Ty} (h : ∀ t u, f t = some u → g t = some u)
include h

theorem mapHole_extend : (s s' : Segment Ty) → mapHole f s = some s' → mapHole g s = some s'
  | .text _, _, hs => hs
  | .hole t, _, hs => bind_extend (h t) (fun _ _ hr => hr) _ hs

theorem mapIndex_extend : (i i' : Option (IndexSignature Ty)) → mapIndex f i = some i' → mapIndex g i = some i'
  | none, _, hi => hi
  | some i, _, hi => bind_extend (h i.value) (fun _ _ hr => hr) _ hi

/-- A function that agrees with another wherever that one has a result rebuilds the same type. -/
theorem rebuild_extend (t u : Ty) (hu : t.rebuild f = some u) : t.rebuild g = some u := by
  have all : ∀ (ts us : List Ty), ts.mapM f = some us → ts.mapM g = some us := mapM_extend h
  cases t with
  | template segments => exact bind_extend (mapM_extend (mapHole_extend h) segments) (fun _ _ hr => hr) u hu
  | object props index =>
    have prop : ∀ p p', mapProp f p = some p' → mapProp g p = some p' :=
      fun p => bind_extend (h p.type) fun _ _ hr => hr
    exact bind_extend (mapM_extend prop props) (fun _ => bind_extend (mapIndex_extend h index) fun _ _ hr => hr) u hu
  | tuple ts | union ts | intersection ts | reference _ ts => exact bind_extend (all ts) (fun _ _ hr => hr) u hu
  | array t _ | keyOf t | mapping _ t => exact bind_extend (h t) (fun _ _ hr => hr) u hu
  | infer name constraint =>
    rw [rebuild] at hu ⊢
    split
    · rename_i hc
      rwa [if_pos hc] at hu
    · rename_i hc
      rw [if_neg hc] at hu
      exact bind_extend (h constraint) (fun _ _ hr => hr) u hu
  | conditional check bound yes no _ =>
    exact bind_extend (h check) (fun _ => bind_extend (h bound) fun _ => bind_extend (h yes) fun _ =>
      bind_extend (h no) fun _ _ hr => hr) u hu
  | function params result =>
    exact bind_extend (all params) (fun _ => bind_extend (h result) fun _ _ hr => hr) u hu
  | access target index => exact bind_extend (h target) (fun _ => bind_extend (h index) fun _ _ hr => hr) u hu
  | _ => exact hu

end Extend
end TypeCalculus.Ty

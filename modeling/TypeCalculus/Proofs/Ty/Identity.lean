import TypeCalculus.Ty.Identical

/-! Identity of types is equality after the annotations of parameters are erased (`identical_iff`), hence
    an equivalence. Trees whose parameters take their annotations from one assignment to names are equal as
    soon as they are identical (`AnnotatedBy.eq_of_identical`). -/

namespace TypeCalculus.Ty

/-! ### Annotations -/

/-- A constraint and a default for each name of a parameter. -/
abbrev Annotation := String → Ty × Ty

mutual

/-- The tree with the constraints and defaults of its parameters taken from an assignment. -/
def annotated (α : Annotation) : Ty → Ty
  | template segments => template (annotatedSegments α segments)
  | object props index => object (annotatedProps α props) (annotatedIndex α index)
  | array elem readonly => array (elem.annotated α) readonly
  | tuple elems => tuple (annotatedAll α elems)
  | union members => union (annotatedAll α members)
  | intersection members => intersection (annotatedAll α members)
  | param name _ _ => param name (α name).1 (α name).2
  | infer name constraint => infer name (constraint.annotated α)
  | conditional check bound yes no distribute =>
    conditional (check.annotated α) (bound.annotated α) (yes.annotated α) (no.annotated α) distribute
  | reference name args => reference name (annotatedAll α args)
  | function params result => function (annotatedAll α params) (result.annotated α)
  | keyOf target => keyOf (target.annotated α)
  | access target index => access (target.annotated α) (index.annotated α)
  | mapping op arg => mapping op (arg.annotated α)
  | t => t
termination_by structural t => t

def annotatedAll (α : Annotation) : List Ty → List Ty
  | [] => []
  | t :: ts => t.annotated α :: annotatedAll α ts
termination_by structural ts => ts

def annotatedSegments (α : Annotation) : List (Segment Ty) → List (Segment Ty)
  | [] => []
  | .text s :: rest => .text s :: annotatedSegments α rest
  | .hole t :: rest => .hole (t.annotated α) :: annotatedSegments α rest
termination_by structural segments => segments

def annotatedProps (α : Annotation) : List (Property Ty) → List (Property Ty)
  | [] => []
  | ⟨key, type, optional, readonly⟩ :: rest =>
    ⟨key, type.annotated α, optional, readonly⟩ :: annotatedProps α rest
termination_by structural props => props

def annotatedIndex (α : Annotation) : Option (IndexSignature Ty) → Option (IndexSignature Ty)
  | none => none
  | some ⟨key, value⟩ => some ⟨key, value.annotated α⟩
termination_by structural index => index

end

/-- No parameter has a constraint or a default. -/
def bare : Annotation := fun _ => (absent, absent)

/-- The tree without the constraints and defaults of its parameters. -/
def erased (t : Ty) : Ty := t.annotated bare

mutual

theorem annotated_annotated (α β : Annotation) : (t : Ty) → (t.annotated α).annotated β = t.annotated β
  | template xs => by simp only [annotated, annotatedSegments_twice α β xs]
  | object ps i => by simp only [annotated, annotatedProps_twice α β ps, annotatedIndex_twice α β i]
  | array x _ => by simp only [annotated, annotated_annotated α β x]
  | tuple xs | union xs | intersection xs | reference _ xs => by
    simp only [annotated, annotatedAll_twice α β xs]
  | infer _ x | keyOf x | mapping _ x => by simp only [annotated, annotated_annotated α β x]
  | conditional c b y n _ => by
    simp only [annotated, annotated_annotated α β c, annotated_annotated α β b, annotated_annotated α β y,
      annotated_annotated α β n]
  | function xs x => by simp only [annotated, annotatedAll_twice α β xs, annotated_annotated α β x]
  | access x i => by simp only [annotated, annotated_annotated α β x, annotated_annotated α β i]
  | absent | any | unknown | void | never | prim _ | literal .. | param .. => by simp only [annotated]

theorem annotatedAll_twice (α β : Annotation) : (ts : List Ty) →
    annotatedAll β (annotatedAll α ts) = annotatedAll β ts
  | [] => rfl
  | t :: ts => by simp only [annotatedAll, annotated_annotated α β t, annotatedAll_twice α β ts]

theorem annotatedSegments_twice (α β : Annotation) : (xs : List (Segment Ty)) →
    annotatedSegments β (annotatedSegments α xs) = annotatedSegments β xs
  | [] => rfl
  | .text _ :: xs => by simp only [annotatedSegments, annotatedSegments_twice α β xs]
  | .hole t :: xs => by
    simp only [annotatedSegments, annotated_annotated α β t, annotatedSegments_twice α β xs]

theorem annotatedProps_twice (α β : Annotation) : (ps : List (Property Ty)) →
    annotatedProps β (annotatedProps α ps) = annotatedProps β ps
  | [] => rfl
  | ⟨_, t, _, _⟩ :: ps => by
    simp only [annotatedProps, annotated_annotated α β t, annotatedProps_twice α β ps]

theorem annotatedIndex_twice (α β : Annotation) : (i : Option (IndexSignature Ty)) →
    annotatedIndex β (annotatedIndex α i) = annotatedIndex β i
  | none => rfl
  | some ⟨_, t⟩ => by simp only [annotatedIndex, annotated_annotated α β t]

end

/-! ### Identity

Trees of different variants are neither identical nor equal once erased, so of the variants of the second
tree only that of the first is looked into. -/

mutual

/-- Two types are identical exactly when they are equal trees once annotations are erased. -/
theorem identical_iff : (a b : Ty) → (a.identical b = true ↔ a.erased = b.erased)
  | template xs, b => by
    cases b with
    | template ys => simpa [identical, erased, annotated] using identicalSegments_iff xs ys
    | _ => exact iff_of_false Bool.false_ne_true nofun
  | object ps i, b => by
    cases b with
    | object qs j =>
      simpa [identical, erased, annotated] using and_congr (identicalProps_iff ps qs) (identicalIndex_iff i j)
    | _ => exact iff_of_false Bool.false_ne_true nofun
  | array x r, b => by
    cases b with
    | array y s =>
      have := identical_iff x y
      simp only [identical, erased, annotated, Bool.and_eq_true, beq_iff_eq, array.injEq] at this ⊢
      rw [this, and_comm]
    | _ => exact iff_of_false Bool.false_ne_true nofun
  | tuple xs, b => by
    cases b with
    | tuple ys => simpa [identical, erased, annotated] using identicalAll_iff xs ys
    | _ => exact iff_of_false Bool.false_ne_true nofun
  | union xs, b => by
    cases b with
    | union ys => simpa [identical, erased, annotated] using identicalAll_iff xs ys
    | _ => exact iff_of_false Bool.false_ne_true nofun
  | intersection xs, b => by
    cases b with
    | intersection ys => simpa [identical, erased, annotated] using identicalAll_iff xs ys
    | _ => exact iff_of_false Bool.false_ne_true nofun
  | infer n x, b => by
    cases b with
    | infer m y =>
      have := identical_iff x y
      simp only [identical, erased, annotated, Bool.and_eq_true, beq_iff_eq, infer.injEq] at this ⊢
      rw [this]
    | _ => exact iff_of_false Bool.false_ne_true nofun
  | conditional c d y n e, b => by
    cases b with
    | conditional c' d' y' n' e' =>
      have hc := identical_iff c c'
      have hd := identical_iff d d'
      have hy := identical_iff y y'
      have hn := identical_iff n n'
      simp only [identical, erased, annotated, Bool.and_eq_true, beq_iff_eq, conditional.injEq] at hc hd hy hn ⊢
      rw [hc, hd, hy, hn]
      grind
    | _ => exact iff_of_false Bool.false_ne_true nofun
  | reference n xs, b => by
    cases b with
    | reference m ys =>
      simpa [identical, erased, annotated] using fun _ : n = m => identicalAll_iff xs ys
    | _ => exact iff_of_false Bool.false_ne_true nofun
  | function xs x, b => by
    cases b with
    | function ys y =>
      simpa [identical, erased, annotated] using and_congr (identicalAll_iff xs ys) (identical_iff x y)
    | _ => exact iff_of_false Bool.false_ne_true nofun
  | keyOf x, b => by
    cases b with
    | keyOf y => simpa [identical, erased, annotated] using identical_iff x y
    | _ => exact iff_of_false Bool.false_ne_true nofun
  | access x i, b => by
    cases b with
    | access y j =>
      simpa [identical, erased, annotated] using and_congr (identical_iff x y) (identical_iff i j)
    | _ => exact iff_of_false Bool.false_ne_true nofun
  | mapping f x, b => by
    cases b with
    | mapping g y => simpa [identical, erased, annotated] using fun _ : f = g => identical_iff x y
    | _ => exact iff_of_false Bool.false_ne_true nofun
  | prim p, b => by
    cases b with
    | prim q => simp [identical, erased, annotated]
    | _ => exact iff_of_false Bool.false_ne_true nofun
  | literal p s, b => by
    cases b with
    | literal q t => simp [identical, erased, annotated]
    | _ => exact iff_of_false Bool.false_ne_true nofun
  | param n _ _, b => by
    cases b with
    | param m _ _ => simp [identical, erased, annotated, bare]
    | _ => exact iff_of_false Bool.false_ne_true nofun
  | absent, b | any, b | unknown, b | void, b | never, b => by
    cases b with
    | _ => first | exact iff_of_true rfl rfl | exact iff_of_false Bool.false_ne_true nofun

theorem identicalAll_iff : (xs ys : List Ty) →
    (identicalAll xs ys = true ↔ annotatedAll bare xs = annotatedAll bare ys)
  | [], [] => by simp [identicalAll]
  | [], _ :: _ | _ :: _, [] => iff_of_false Bool.false_ne_true nofun
  | x :: xs, y :: ys => by
    simpa [identicalAll, annotatedAll, erased] using and_congr (identical_iff x y) (identicalAll_iff xs ys)

theorem identicalSegments_iff : (xs ys : List (Segment Ty)) →
    (identicalSegments xs ys = true ↔ annotatedSegments bare xs = annotatedSegments bare ys)
  | [], [] => by simp [identicalSegments]
  | [], .text _ :: _ | [], .hole _ :: _ | .text _ :: _, [] | .hole _ :: _, []
  | .text _ :: _, .hole _ :: _ | .hole _ :: _, .text _ :: _ => iff_of_false Bool.false_ne_true nofun
  | .text s :: xs, .text t :: ys => by
    simpa [identicalSegments, annotatedSegments] using fun _ : s = t => identicalSegments_iff xs ys
  | .hole x :: xs, .hole y :: ys => by
    simpa [identicalSegments, annotatedSegments, erased] using
      and_congr (identical_iff x y) (identicalSegments_iff xs ys)

theorem identicalProps_iff : (xs ys : List (Property Ty)) →
    (identicalProps xs ys = true ↔ annotatedProps bare xs = annotatedProps bare ys)
  | [], [] => by simp [identicalProps]
  | [], _ :: _ | _ :: _, [] => iff_of_false Bool.false_ne_true nofun
  | ⟨k, x, o, r⟩ :: xs, ⟨k', y, o', r'⟩ :: ys => by
    have hx := identical_iff x y
    simp only [erased] at hx
    simp only [identicalProps, annotatedProps, Bool.and_eq_true, beq_iff_eq, List.cons.injEq,
      Property.mk.injEq, hx, identicalProps_iff xs ys]
    grind

theorem identicalIndex_iff : (i j : Option (IndexSignature Ty)) →
    (identicalIndex i j = true ↔ annotatedIndex bare i = annotatedIndex bare j)
  | none, none => by simp [identicalIndex]
  | none, some _ | some _, none => iff_of_false Bool.false_ne_true nofun
  | some ⟨k, x⟩, some ⟨l, y⟩ => by
    simpa [identicalIndex, annotatedIndex, erased] using fun _ : k = l => identical_iff x y

end

theorem identical_refl (t : Ty) : t.identical t = true := (identical_iff t t).2 rfl

theorem identical_symm {a b : Ty} (h : a.identical b = true) : b.identical a = true :=
  (identical_iff b a).2 ((identical_iff a b).1 h).symm

theorem identical_trans {a b c : Ty} (h : a.identical b = true) (h' : b.identical c = true) :
    a.identical c = true :=
  (identical_iff a c).2 (((identical_iff a b).1 h).trans ((identical_iff b c).1 h'))

/-- What does not depend on the annotations of parameters is the same for identical types. -/
theorem congr_of_identical {β : Type} {f : Ty → β} (erased : ∀ t : Ty, f t.erased = f t) {a b : Ty} (h : a.identical b = true) :
    f a = f b := by
  rw [← erased a, (identical_iff a b).1 h, erased]

/-- Every parameter of the tree has the constraint and the default that an assignment gives its name. -/
def AnnotatedBy (α : Annotation) (t : Ty) : Prop := t.annotated α = t

theorem AnnotatedBy.eq_of_identical {α : Annotation} {a b : Ty} (ha : a.AnnotatedBy α) (hb : b.AnnotatedBy α)
    (h : a.identical b = true) : a = b :=
  calc a = a.annotated α := ha.symm
    _ = a.erased.annotated α := (annotated_annotated bare α a).symm
    _ = b.erased.annotated α := by rw [(identical_iff a b).1 h]
    _ = b.annotated α := annotated_annotated bare α b
    _ = b := hb

end TypeCalculus.Ty

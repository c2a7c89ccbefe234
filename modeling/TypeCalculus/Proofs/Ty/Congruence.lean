import TypeCalculus.Proofs.Ty.Canonical
import TypeCalculus.Proofs.Ty.Mirrored

/-! Identity is exactly equality of trees up to the annotations of parameters, and hashes may be compared first. A
    comparison that goes down two trees together and turns a pair of nodes away as soon as their hashes differ turns no
    identical pair away (`identical_unfold`), and there is only one such comparison. Hence identity is an equivalence that
    the variants and the normalising constructors respect. -/

namespace TypeCalculus.Ty

/-! ### Nodes side by side -/

section Nodes
variable (agree : Ty → Ty → Bool)

def segmentsAgree : Segment Ty → Segment Ty → Bool
  | .text s, .text t => s == t
  | .hole x, .hole y => agree x y
  | _, _ => false

def propsAgree (p q : Property Ty) : Bool :=
  p.key == q.key && p.optional == q.optional && p.readonly == q.readonly && agree p.type q.type

def indexesAgree : Option (IndexSignature Ty) → Option (IndexSignature Ty) → Bool
  | none, none => true
  | some i, some j => i.key == j.key && agree i.value j.value
  | _, _ => false

/-- The nodes are of one variant and have the same data of their own, and a comparison accepts their parts one by one. What
    is written beside a parameter is no part of it. -/
def nodesAgree : Ty → Ty → Bool
  | absent, absent | any, any | unknown, unknown | void, void | never, never => true
  | prim p, prim q => p == q
  | literal p s, literal q t => p == q && s == t
  | template xs, template ys => xs.all₂ (segmentsAgree agree) ys
  | object ps i, object qs j => ps.all₂ (propsAgree agree) qs && indexesAgree agree i j
  | array x r, array y s => r == s && agree x y
  | tuple xs, tuple ys | union xs, union ys | intersection xs, intersection ys => xs.all₂ agree ys
  | param n _ _, param m _ _ => n == m
  | infer n x, infer m y => n == m && agree x y
  | conditional c b y n d, conditional c' b' y' n' d' =>
    d == d' && agree c c' && agree b b' && agree y y' && agree n n'
  | reference n xs, reference m ys => n == m && xs.all₂ agree ys
  | function xs x, function ys y => xs.all₂ agree ys && agree x y
  | keyOf x, keyOf y => agree x y
  | access x i, access y j => agree x y && agree i j
  | mapping f x, mapping g y => f == g && agree x y
  | _, _ => false

/-- A comparison that looks at the variants and the hashes of two nodes before it looks at their parts. -/
def HashesFirst : Prop :=
  ∀ a b : Ty, agree a b = (a.kind? == b.kind? && a.hash == b.hash && nodesAgree agree a b)

end Nodes

section Congruence
variable {f g : Ty → Ty → Bool}

theorem all₂_congr {α : Type} {p q : α → α → Bool} {xs : List α} (h : ∀ x ∈ xs, ∀ y, p x y = q x y) (ys : List α) :
    xs.all₂ p ys = xs.all₂ q ys := by
  induction xs generalizing ys with
  | nil => cases ys <;> rfl
  | cons x xs ih =>
    cases ys with
    | nil => rfl
    | cons y ys =>
      rw [List.all₂, List.all₂, h x List.mem_cons_self, ih fun z hz => h z (List.mem_cons_of_mem _ hz)]

/-- Comparisons that agree on the parts of a node and on a missing type agree on the node. -/
theorem nodesAgree_congr {a : Ty} (h₀ : ∀ b, f absent b = g absent b) (h : ∀ u ∈ a.parts, ∀ b, f u b = g u b) (b : Ty) :
    nodesAgree f a b = nodesAgree g a b := by
  cases a with
  | template xs =>
    cases b with
    | template ys =>
      refine all₂_congr (fun x hx y => ?_) ys
      cases x with
      | text => cases y <;> rfl
      | hole u => cases y <;> first | rfl | exact h u (mem_holes hx) _
    | _ => rfl
  | object ps i =>
    cases b with
    | object qs j =>
      have props := all₂_congr (p := propsAgree f) (q := propsAgree g)
        (fun p hp q => congrArg (_ && ·) (h p.type (List.mem_append_left _ (List.mem_map_of_mem hp)) q.type)) qs
      have index : indexesAgree f i j = indexesAgree g i j := by
        cases i with
        | none => cases j <;> rfl
        | some i =>
          cases j with
          | none => rfl
          | some j => exact congrArg (_ && ·) (h i.value (List.mem_append_right _ List.mem_cons_self) j.value)
      exact congrArg₂ (· && ·) props index
    | _ => rfl
  | infer n x =>
    cases b with
    | infer m y =>
      refine congrArg (_ && ·) ?_
      cases x with
      | absent => exact h₀ y
      | _ => exact h _ List.mem_cons_self y
    | _ => rfl
  | tuple xs | union xs | intersection xs => cases b <;> first | rfl | exact all₂_congr h _
  | reference n xs => cases b <;> first | rfl | exact congrArg (_ && ·) (all₂_congr h _)
  | function xs x =>
    cases b with
    | function ys y =>
      exact congrArg₂ (· && ·) (all₂_congr (fun u hu => h u (List.mem_append_left _ hu)) ys)
        (h x (List.mem_append_right _ List.mem_cons_self) y)
    | _ => rfl
  | conditional c e y n d =>
    cases b <;> simp only [nodesAgree, h c (by simp [parts]), h e (by simp [parts]), h y (by simp [parts]), h n (by simp [parts])]
  | array x | keyOf x | mapping _ x => cases b <;> simp only [nodesAgree, h x List.mem_cons_self]
  | access x i =>
    cases b <;> simp only [nodesAgree, h x List.mem_cons_self, h i (List.mem_cons_of_mem _ List.mem_cons_self)]
  | _ => cases b <;> rfl

/-! ### Identity node by node -/

theorem all₂_cons {α : Type} (p : α → α → Bool) (x y : α) (xs ys : List α) :
    (x :: xs).all₂ p (y :: ys) = (p x y && xs.all₂ p ys) := by
  rw [List.all₂]
  cases p x y <;> rfl

theorem identicalAll_eq (xs ys : List Ty) : identicalAll xs ys = xs.all₂ identical ys := by
  induction xs generalizing ys with
  | nil => cases ys <;> rfl
  | cons x xs ih =>
    cases ys with
    | nil => rfl
    | cons y ys => rw [identicalAll, all₂_cons, ih]

theorem identicalSegments_eq (xs ys : List (Segment Ty)) : identicalSegments xs ys = xs.all₂ (segmentsAgree identical) ys := by
  induction xs generalizing ys with
  | nil => cases ys <;> rfl
  | cons x xs ih =>
    cases ys with
    | nil => cases x <;> rfl
    | cons y ys =>
      rw [all₂_cons, ← ih]
      cases x <;> cases y <;> rfl

theorem identicalProps_eq (ps qs : List (Property Ty)) : identicalProps ps qs = ps.all₂ (propsAgree identical) qs := by
  induction ps generalizing qs with
  | nil => cases qs <;> rfl
  | cons p ps ih =>
    cases qs with
    | nil => rfl
    | cons q qs => rw [identicalProps, all₂_cons, ih, propsAgree]

theorem identicalIndex_eq (i j : Option (IndexSignature Ty)) : identicalIndex i j = indexesAgree identical i j := by
  cases i <;> cases j <;> rfl

theorem identical_eq_nodesAgree (a b : Ty) : a.identical b = nodesAgree identical a b := by
  cases a <;> cases b <;>
    simp only [identical, nodesAgree, identicalAll_eq, identicalSegments_eq, identicalProps_eq, identicalIndex_eq]

/-- Looking at variants and hashes first makes no difference: identical types have equal ones. -/
theorem identical_hashesFirst : HashesFirst identical := by
  intro a b
  rw [← identical_eq_nodesAgree]
  cases h : a.identical b with
  | false => rw [Bool.and_false]
  | true =>
    have kind : a.kind? = b.kind? := congr_of_identical (kind?_annotated bare) h
    have hash : a.hash = b.hash := hash_of_identical h
    rw [kind, hash, beq_self_eq_true, beq_self_eq_true]
    rfl

/-- What looks at hashes first is identity: the induction is on the first tree, a missing type goes ahead. -/
theorem HashesFirst.eq_identical (h : HashesFirst f) : f = identical := by
  have missing : ∀ b, f absent b = identical absent b := by
    intro b
    have same : nodesAgree f absent b = nodesAgree identical absent b := by cases b <;> rfl
    rw [h, identical_hashesFirst, same]
  refine funext fun a => ?_
  induction a using children_induction with
  | step a ih =>
    refine funext fun b => ?_
    have parts : ∀ u ∈ a.parts, ∀ b, f u b = identical u b := by
      intro u hu b
      cases a with
      | param => cases hu
      | _ => rw [ih u hu]
    rw [h, identical_hashesFirst, nodesAgree_congr missing parts]

end Congruence

/-! ### Constructors -/

theorem unionOf_identical {xs ys : List Ty} (h : IdenticalLists xs ys) : (unionOf xs).identical (unionOf ys) = true := by
  have same : annotatedAll bare xs = annotatedAll bare ys := by
    rw [annotatedAll_eq, annotatedAll_eq]
    exact identicalLists_iff.1 h
  rw [identical_iff, erased, erased, unionOf_annotated, unionOf_annotated, same]

theorem meetOf_identical {xs ys : List Ty} (h : IdenticalLists xs ys) : (meetOf xs).identical (meetOf ys) = true := by
  have same : annotatedAll bare xs = annotatedAll bare ys := by
    rw [annotatedAll_eq, annotatedAll_eq]
    exact identicalLists_iff.1 h
  rw [identical_iff, erased, erased, meetOf_annotated, meetOf_annotated, same]

theorem templateOf_identical {xs ys : List (Segment Ty)} (h : (template xs).identical (template ys) = true) :
    (templateOf xs).identical (templateOf ys) = true := by
  have same : annotatedSegments bare xs = annotatedSegments bare ys := (identicalSegments_iff xs ys).1 h
  rw [identical_iff, erased, erased, templateOf_annotated, templateOf_annotated, same]

theorem ofProps_identical {ps qs : List (Property Ty)} {i j : Option (IndexSignature Ty)}
    (h : (object ps i).identical (object qs j) = true) :
    (Shape.ofProps ps i).toTy.identical (Shape.ofProps qs j).toTy = true := by
  obtain ⟨props, index⟩ : annotatedProps bare ps = annotatedProps bare qs ∧ annotatedIndex bare i = annotatedIndex bare j :=
    object.inj ((identical_iff _ _).1 h)
  have whole : ∀ s : Shape, s.toTy.erased = (mirrorShape bare s).toTy := fun _ => rfl
  rw [identical_iff, whole, whole, ofProps_annotated, ofProps_annotated, props, index]

/-- Two types are identical exactly if they are the same tree once the constraints and defaults of parameters are erased, and
    then they have the same hash; so identity is the one comparison that looks at the hashes of two nodes before their parts.
    It is an equivalence, every variant respects it in all its parts, and so do the normalising constructors. -/
theorem identity_exact :
    (∀ a b : Ty, a.identical b = true ↔ a.erased = b.erased) ∧
    (∀ a b : Ty, a.erased = b.erased → a.hash = b.hash) ∧
    (∀ compare : Ty → Ty → Bool, HashesFirst compare ↔ compare = identical) ∧
    (Equivalence fun a b : Ty => a.identical b = true) ∧
    (∀ a b : Ty, nodesAgree identical a b = true → a.identical b = true) ∧
    (∀ xs ys : List Ty, IdenticalLists xs ys →
      (unionOf xs).identical (unionOf ys) = true ∧ (meetOf xs).identical (meetOf ys) = true) ∧
    (∀ xs ys : List (Segment Ty), xs.all₂ (segmentsAgree identical) ys = true →
      (templateOf xs).identical (templateOf ys) = true) ∧
    ∀ (ps qs : List (Property Ty)) (i j : Option (IndexSignature Ty)), ps.all₂ (propsAgree identical) qs = true →
      indexesAgree identical i j = true → (Shape.ofProps ps i).toTy.identical (Shape.ofProps qs j).toTy = true := by
  refine ⟨identical_iff, fun a b h => ?_, fun compare => ⟨HashesFirst.eq_identical, ?_⟩,
    ⟨identical_refl, identical_symm, identical_trans⟩, fun a b h => ?_,
    fun xs ys h => ⟨unionOf_identical h, meetOf_identical h⟩, fun xs ys h => ?_, fun ps qs i j hp hi => ?_⟩
  · rw [← hash_annotated bare a, ← hash_annotated bare b]
    exact congrArg hash h
  · rintro rfl
    exact identical_hashesFirst
  · rwa [identical_eq_nodesAgree]
  · exact templateOf_identical ((identicalSegments_eq xs ys).trans h)
  · refine ofProps_identical ?_
    rw [identical, identicalProps_eq, identicalIndex_eq, hp, hi]
    rfl

/-- Hashes leave out what is written beside a parameter as identity does, and keep a missing type apart. -/
example : (tuple [param "T" string absent, absent]).hash = (tuple [param "T" absent number, absent]).hash ∧
    (infer "X" absent).identical (infer "X" unknown) = false := ⟨rfl, rfl⟩

end TypeCalculus.Ty

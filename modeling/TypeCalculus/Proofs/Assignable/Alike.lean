import TypeCalculus.Proofs.Assignable.Preorder
import TypeCalculus.Proofs.Assignable.Rules
import TypeCalculus.Proofs.Ty.Alike

/-! Comparisons do not look at the defaults of parameters: where parameters of one name carry one constraint, identical
    types are assignable to the same types and have the same types assignable to them (`accepts_alike`). -/

namespace TypeCalculus
open Ty (holes erased)
open Assignable

namespace Ty

/-- Every parameter of the tree has the constraint that an assignment gives its name, and so has every parameter in what is
    written beside one. -/
def Constrained (κ : String → Ty) : Ty → Prop :=
  Throughout children fun u => ∀ name constraint default, u = param name constraint default → constraint = κ name

/-- The trees are identical, and parameters of one name carry one constraint in both. -/
structure Alike (κ : String → Ty) (t u : Ty) : Prop where
  left : Constrained κ t
  right : Constrained κ u
  same : t.erased = u.erased

section Constrained
variable {κ : String → Ty}

theorem carried_constrained (κ : String → Ty) : Carried (Constrained κ) := by
  refine carried_throughout fun {t} ht => ?_
  rintro name constraint default rfl
  cases ht

theorem Alike.refl {t : Ty} (h : Constrained κ t) : Alike κ t t := ⟨h, h, rfl⟩

theorem Alike.symm {t u : Ty} (h : Alike κ t u) : Alike κ u t := ⟨h.right, h.left, h.same.symm⟩

theorem Alike.isAbsent {t u : Ty} (h : Alike κ t u) : t.isAbsent = u.isAbsent :=
  congr_of_identical (fun t => by cases t <;> rfl) ((identical_iff t u).2 h.same)

theorem alike_of_identical {t u : Ty} (ht : Constrained κ t) (hu : Constrained κ u) (h : t.identical u = true) :
    Alike κ t u :=
  ⟨ht, hu, (identical_iff t u).1 h⟩

/-! ### What alike types are made of -/

theorem forall₂_alike {ts us : List Ty} (ht : ∀ t ∈ ts, Constrained κ t) (hu : ∀ u ∈ us, Constrained κ u)
    (h : annotatedAll bare ts = annotatedAll bare us) : List.Forall₂ (Alike κ) ts us := by
  induction ts generalizing us with
  | nil =>
    cases us with
    | nil => exact .nil
    | cons => cases h
  | cons t ts ih =>
    cases us with
    | nil => cases h
    | cons u us =>
      obtain ⟨he, hes⟩ := List.cons.inj h
      exact .cons ⟨ht _ List.mem_cons_self, hu _ List.mem_cons_self, he⟩
        (ih (fun v hv => ht v (List.mem_cons_of_mem _ hv)) (fun v hv => hu v (List.mem_cons_of_mem _ hv)) hes)

theorem forall₂_abreast {xs ys : List (Segment Ty)} (hx : ∀ t ∈ holes xs, Constrained κ t)
    (hy : ∀ t ∈ holes ys, Constrained κ t) (h : annotatedSegments bare xs = annotatedSegments bare ys) :
    List.Forall₂ (Abreast (Alike κ)) xs ys := by
  induction xs generalizing ys with
  | nil =>
    cases ys with
    | nil => exact .nil
    | cons y => cases y <;> cases h
  | cons x xs ih =>
    match x, ys, h with
    | .text s, .text _ :: ys, h =>
      obtain ⟨hs, hrest⟩ := List.cons.inj h
      cases hs
      exact .cons .text (ih hx hy hrest)
    | .hole t, .hole u :: ys, h =>
      obtain ⟨ht, hrest⟩ := List.cons.inj h
      refine .cons (.hole ⟨hx _ List.mem_cons_self, hy _ List.mem_cons_self, Segment.hole.inj ht⟩) ?_
      exact ih (fun v hv => hx v (List.mem_cons_of_mem _ hv)) (fun v hv => hy v (List.mem_cons_of_mem _ hv)) hrest

theorem forall₂_related {ps qs : List (Property Ty)} (hp : ∀ p ∈ ps, Constrained κ p.type) (hq : ∀ q ∈ qs, Constrained κ q.type)
    (h : annotatedProps bare ps = annotatedProps bare qs) : List.Forall₂ (Related (Alike κ)) ps qs := by
  induction ps generalizing qs with
  | nil =>
    cases qs with
    | nil => exact .nil
    | cons => cases h
  | cons p ps ih =>
    cases qs with
    | nil => cases h
    | cons q qs =>
      obtain ⟨he, hes⟩ := List.cons.inj h
      obtain ⟨hk, ht, ho, hr⟩ := Property.mk.inj he
      exact .cons ⟨hk, ho, hr, hp _ List.mem_cons_self, hq _ List.mem_cons_self, ht⟩
        (ih (fun v hv => hp v (List.mem_cons_of_mem _ hv)) (fun v hv => hq v (List.mem_cons_of_mem _ hv)) hes)

theorem alike_unionOf {ts us : List Ty} (h : List.Forall₂ (Alike κ) ts us) : Alike κ (unionOf ts) (unionOf us) := by
  have C := carried_constrained κ
  obtain ⟨hl, hr, he⟩ : (∀ t ∈ ts, Constrained κ t) ∧ (∀ u ∈ us, Constrained κ u) ∧ annotatedAll bare ts = annotatedAll bare us := by
    induction h with
    | nil => exact ⟨nofun, nofun, rfl⟩
    | cons h _ ih =>
      obtain ⟨hl, hr, he⟩ := ih
      exact ⟨List.forall_mem_cons.2 ⟨h.left, hl⟩, List.forall_mem_cons.2 ⟨h.right, hr⟩, List.cons_eq_cons.2 ⟨h.same, he⟩⟩
  exact ⟨C.unionOf hl, C.unionOf hr, by rw [erased, erased, unionOf_annotated, unionOf_annotated, he]⟩

theorem alike_templateOf {xs ys : List (Segment Ty)} (h : List.Forall₂ (Abreast (Alike κ)) xs ys) :
    Alike κ (templateOf xs) (templateOf ys) := by
  have C := carried_constrained κ
  obtain ⟨hl, hr, he⟩ : (∀ t ∈ holes xs, Constrained κ t) ∧ (∀ t ∈ holes ys, Constrained κ t) ∧
      annotatedSegments bare xs = annotatedSegments bare ys := by
    induction h with
    | nil => exact ⟨nofun, nofun, rfl⟩
    | cons h _ ih =>
      obtain ⟨hl, hr, he⟩ := ih
      cases h with
      | text => exact ⟨hl, hr, List.cons_eq_cons.2 ⟨rfl, he⟩⟩
      | hole h =>
        exact ⟨List.forall_mem_cons.2 ⟨h.left, hl⟩, List.forall_mem_cons.2 ⟨h.right, hr⟩,
          List.cons_eq_cons.2 ⟨congrArg Segment.hole h.same, he⟩⟩
  exact ⟨C.templateOf hl, C.templateOf hr, by rw [erased, erased, templateOf_annotated, templateOf_annotated, he]⟩

namespace Alike
variable {t : Ty}

theorem union {ms : List Ty} (h : Alike κ (union ms) t) : ∃ ms', t = .union ms' ∧ List.Forall₂ (Alike κ) ms ms' := by
  obtain ⟨hl, hr, he⟩ := h
  cases t with
  | union ms' => exact ⟨ms', rfl, forall₂_alike (fun _ => hl.under) (fun _ => hr.under) (Ty.union.inj he)⟩
  | _ => cases he

theorem intersection {ms : List Ty} (h : Alike κ (intersection ms) t) :
    ∃ ms', t = .intersection ms' ∧ List.Forall₂ (Alike κ) ms ms' := by
  obtain ⟨hl, hr, he⟩ := h
  cases t with
  | intersection ms' => exact ⟨ms', rfl, forall₂_alike (fun _ => hl.under) (fun _ => hr.under) (Ty.intersection.inj he)⟩
  | _ => cases he

theorem tuple {ts : List Ty} (h : Alike κ (tuple ts) t) : ∃ ts', t = .tuple ts' ∧ List.Forall₂ (Alike κ) ts ts' := by
  obtain ⟨hl, hr, he⟩ := h
  cases t with
  | tuple ts' => exact ⟨ts', rfl, forall₂_alike (fun _ => hl.under) (fun _ => hr.under) (Ty.tuple.inj he)⟩
  | _ => cases he

theorem reference {name : String} {ts : List Ty} (h : Alike κ (reference name ts) t) :
    ∃ ts', t = .reference name ts' ∧ List.Forall₂ (Alike κ) ts ts' := by
  obtain ⟨hl, hr, he⟩ := h
  cases t with
  | reference _ ts' =>
    obtain ⟨rfl, hts⟩ := Ty.reference.inj he
    exact ⟨ts', rfl, forall₂_alike (fun _ => hl.under) (fun _ => hr.under) hts⟩
  | _ => cases he

theorem function {ts : List Ty} {u : Ty} (h : Alike κ (function ts u) t) :
    ∃ ts' u', t = .function ts' u' ∧ List.Forall₂ (Alike κ) ts ts' ∧ Alike κ u u' := by
  obtain ⟨hl, hr, he⟩ := h
  cases t with
  | function ts' u' =>
    obtain ⟨hts, hu⟩ := Ty.function.inj he
    refine ⟨ts', u', rfl, forall₂_alike (fun _ hv => hl.under (List.mem_append_left _ hv))
      (fun _ hv => hr.under (List.mem_append_left _ hv)) hts, hl.under ?_, hr.under ?_, hu⟩ <;>
    exact List.mem_append_right _ List.mem_cons_self
  | _ => cases he

theorem array {u : Ty} {readonly : Bool} (h : Alike κ (array u readonly) t) : ∃ u', t = .array u' readonly ∧ Alike κ u u' := by
  obtain ⟨hl, hr, he⟩ := h
  cases t with
  | array u' =>
    obtain ⟨hu, rfl⟩ := Ty.array.inj he
    exact ⟨u', rfl, hl.under List.mem_cons_self, hr.under List.mem_cons_self, hu⟩
  | _ => cases he

theorem mapping {op : Mapping} {u : Ty} (h : Alike κ (mapping op u) t) : ∃ u', t = .mapping op u' ∧ Alike κ u u' := by
  obtain ⟨hl, hr, he⟩ := h
  cases t with
  | mapping _ u' =>
    obtain ⟨rfl, hu⟩ := Ty.mapping.inj he
    exact ⟨u', rfl, hl.under List.mem_cons_self, hr.under List.mem_cons_self, hu⟩
  | _ => cases he

theorem infer {name : String} {c : Ty} (h : Alike κ (infer name c) t) : ∃ c', t = .infer name c' ∧ Alike κ c c' := by
  obtain ⟨hl, hr, he⟩ := h
  have C := carried_constrained κ
  cases t with
  | infer _ c' =>
    obtain ⟨rfl, hc⟩ := Ty.infer.inj he
    exact ⟨c', rfl, C.infer.1 hl, C.infer.1 hr, hc⟩
  | _ => cases he

theorem template {xs : List (Segment Ty)} (h : Alike κ (template xs) t) :
    ∃ ys, t = .template ys ∧ List.Forall₂ (Abreast (Alike κ)) xs ys := by
  obtain ⟨hl, hr, he⟩ := h
  cases t with
  | template ys => exact ⟨ys, rfl, forall₂_abreast (fun _ => hl.under) (fun _ => hr.under) (Ty.template.inj he)⟩
  | _ => cases he

theorem atom {u : Ty} (hu : u.isAtom = true) (h : Alike κ u t) : t = u := by
  have he := h.same
  cases u with
  | any | unknown | void | never => cases t <;> first | rfl | cases he
  | prim | literal => cases t <;> first | exact he.symm | cases he
  | _ => cases hu

/-- Index signatures for the same keys, with related values. -/
def RelatedIndex (R : Ty → Ty → Prop) (i j : IndexSignature Ty) : Prop := i.key = j.key ∧ R i.value j.value

theorem object {props : List (Property Ty)} {index : Option (IndexSignature Ty)} (h : Alike κ (object props index) t) :
    ∃ props' index', t = .object props' index' ∧ List.Forall₂ (Related (Alike κ)) props props' ∧
      Option.Rel (RelatedIndex (Alike κ)) index index' := by
  have C := carried_constrained κ
  obtain ⟨hl, hr, he⟩ := h
  cases t with
  | object props' index' =>
    obtain ⟨hprops, hindex⟩ := Ty.object.inj he
    refine ⟨props', index', rfl, forall₂_related (C.object hl).1 (C.object hr).1 hprops, ?_⟩
    cases index with
    | none =>
      cases index' with
      | none => exact .none
      | some => cases hindex
    | some i =>
      cases index' with
      | none => cases hindex
      | some j =>
        obtain ⟨hk, hv⟩ := IndexSignature.mk.inj (Option.some.inj hindex)
        exact .some ⟨hk, (C.object hl).2 i rfl, (C.object hr).2 j rfl, hv⟩
  | _ => cases he

theorem upperBound {a u : Ty} (h : Alike κ a t) (hu : upperBound? a = some u) :
    ∃ u', upperBound? t = some u' ∧ Alike κ u u' := by
  obtain ⟨hl, hr, he⟩ := h
  have H := Handed.of_carried (carried_constrained κ)
  have bound := handed_upperBound H hu hl
  cases a with
  | param name constraint default =>
    cases t with
    | param name' constraint' default' =>
      obtain ⟨rfl, -⟩ := Ty.param.inj he
      have same : constraint = constraint' := (hl.node _ _ _ rfl).trans (hr.node _ _ _ rfl).symm
      exact ⟨u, same ▸ hu, .refl bound⟩
    | _ => cases he
  | conditional check bound yes no distribute =>
    cases hu
    cases t with
    | conditional check' bound' yes' no' distribute' =>
      obtain ⟨-, -, hy, hn, -⟩ := Ty.conditional.inj he
      obtain ⟨-, -, hyl, hnl⟩ := (carried_constrained κ).branches hl
      obtain ⟨-, -, hyr, hnr⟩ := (carried_constrained κ).branches hr
      exact ⟨_, rfl, alike_unionOf (.cons ⟨hyl, hyr, hy⟩ (.cons ⟨hnl, hnr, hn⟩ .nil))⟩
    | _ => cases he
  | keyOf target =>
    cases hu
    cases t with
    | keyOf => exact ⟨_, rfl, .refl bound⟩
    | _ => cases he
  | _ => cases hu

theorem apparentShape {a : Ty} {s : Shape} (h : Alike κ a t) (hs : apparentShape? a = some s) :
    ∃ s', apparentShape? t = some s' ∧ List.Forall₂ (Related (Alike κ)) s.props s'.props ∧
      Option.Rel (RelatedIndex (Alike κ)) s.index s'.index := by
  have atom : ∀ {u : Ty}, u.isAtom = true → Alike κ u u := fun hu => .refl ((carried_constrained κ).atom hu)
  cases a with
  | object props index =>
    cases hs
    obtain ⟨props', index', rfl, hprops, hindex⟩ := h.object
    exact ⟨_, rfl, hprops, hindex⟩
  | array elem readonly =>
    cases hs
    obtain ⟨elem', rfl, he⟩ := h.array
    exact ⟨_, rfl, Shape.forall₂_ofProps Related.key (.cons ⟨rfl, rfl, rfl, atom rfl⟩ .nil), .some ⟨rfl, he⟩⟩
  | tuple elems =>
    cases hs
    obtain ⟨elems', rfl, he⟩ := h.tuple
    exact ⟨_, rfl, Shape.forall₂_ofProps Related.key (related_tupleProps (fun n => atom rfl) he 0), .some ⟨rfl, alike_unionOf he⟩⟩
  | function =>
    cases hs
    obtain ⟨_, _, rfl, -⟩ := h.function
    exact ⟨_, rfl, .nil, .none⟩
  | reference =>
    cases hs
    obtain ⟨_, rfl, -⟩ := h.reference
    exact ⟨_, rfl, .nil, .none⟩
  | _ => cases hs

end Alike
end Constrained
end Ty

namespace Shape

/-- The search for a key looks at keys only. -/
theorem lowerBound_congr {ps qs : List (Property Ty)} (h : ∀ i : Nat, ps[i]?.map Property.key = qs[i]?.map Property.key)
    (key : String) (low high : Nat) : lowerBound ps key low high = lowerBound qs key low high := by
  induction low, high using lowerBound.induct ps key with
  | case1 low high hlt middle p hp hk ih =>
    obtain ⟨q, hq, he⟩ := Option.map_eq_some_iff.1 ((h middle).symm.trans (congrArg (Option.map Property.key) hp))
    rw [lowerBound, if_pos hlt, lowerBound, if_pos hlt]
    dsimp only
    rw [hp, hq]
    dsimp only
    rw [he, if_pos hk, if_pos hk, ih]
  | case2 low high hlt middle p hp hk ih =>
    obtain ⟨q, hq, he⟩ := Option.map_eq_some_iff.1 ((h middle).symm.trans (congrArg (Option.map Property.key) hp))
    rw [lowerBound, if_pos hlt, lowerBound, if_pos hlt]
    dsimp only
    rw [hp, hq]
    dsimp only
    rw [he, if_neg hk, if_neg hk, ih]
  | case3 low high hlt middle hn ih =>
    have hn' : qs[middle]? = none := Option.map_eq_none_iff.1 ((h middle).symm.trans (congrArg (Option.map Property.key) hn))
    rw [lowerBound, if_pos hlt, lowerBound, if_pos hlt]
    dsimp only
    rw [hn, hn']
    exact ih
  | case4 low high hge => rw [lowerBound, if_neg hge, lowerBound, if_neg hge]

theorem rel_getElem? {α : Type} {R : α → α → Prop} {xs ys : List α} (h : List.Forall₂ R xs ys) (i : Nat) :
    Option.Rel R xs[i]? ys[i]? := by
  induction h generalizing i with
  | nil => exact .none
  | cons h _ ih =>
    cases i with
    | zero => exact .some h
    | succ i => exact ih i

theorem find?_related {R : Ty → Ty → Prop} {ps qs : List (Property Ty)} (h : List.Forall₂ (Related R) ps qs) (key : String) :
    Option.Rel (Related R) (find? ps key) (find? qs key) := by
  have keys : ∀ i : Nat, ps[i]?.map Property.key = qs[i]?.map Property.key := by
    intro i
    have := rel_getElem? h i
    generalize ps[i]? = p, qs[i]? = q at this ⊢
    cases this with
    | none => rfl
    | some h => exact congrArg some h.key
  have := rel_getElem? h (lowerBound qs key 0 qs.length)
  unfold find?
  rw [lowerBound_congr keys, h.length_eq]
  generalize ps[lowerBound qs key 0 qs.length]? = p, qs[lowerBound qs key 0 qs.length]? = q at this ⊢
  cases this with
  | none => exact .none
  | some h =>
    rw [Option.filter_some, Option.filter_some, h.key]
    split
    · exact .some h
    · exact .none

end Shape
namespace Assignable
open Ty (Alike Constrained annotatedSegments)
variable {κ : String → Ty}

/-! ### Texts in holes -/

section Annotated
variable (α : Ty.Annotation)

mutual

theorem literalFor?_annotated (region : String) : (t : Ty) → literalFor? region (t.annotated α) = literalFor? region t
  | .union ms => literalForAny?_annotated region ms
  | .absent | .any | .unknown | .void | .never | .prim _ | .literal .. | .template _ | .object .. | .array .. | .tuple _
  | .intersection _ | .param .. | .infer .. | .conditional .. | .reference .. | .function .. | .keyOf _ | .access ..
  | .mapping .. => rfl

theorem literalForAny?_annotated (region : String) :
    (ts : List Ty) → literalForAny? region (Ty.annotatedAll α ts) = literalForAny? region ts
  | [] => rfl
  | t :: ts => by
    rw [Ty.annotatedAll, literalForAny?, literalForAny?, literalFor?_annotated region t, literalForAny?_annotated region ts]

end

mutual

theorem ofHole_annotated : (t : Ty) → Pattern.ofHole (t.annotated α) = Pattern.ofHole t
  | .union ms => congrArg Pattern.oneOf (ofHoles_annotated ms)
  | .infer name c => by
    have := ofHole_annotated c
    cases c <;> first | rfl | exact this
  | .absent | .any | .unknown | .void | .never | .prim _ | .literal .. | .template _ | .object .. | .array .. | .tuple _
  | .intersection _ | .param .. | .conditional .. | .reference .. | .function .. | .keyOf _ | .access ..
  | .mapping .. => rfl

theorem ofHoles_annotated : (ts : List Ty) → Pattern.ofHoles (Ty.annotatedAll α ts) = Pattern.ofHoles ts
  | [] => rfl
  | t :: ts => congrArg₂ _ (ofHole_annotated t) (ofHoles_annotated ts)

end

theorem ofSegments_annotated (segments : List (Segment Ty)) :
    Piece.ofSegments (annotatedSegments α segments) = Piece.ofSegments segments := by
  induction segments with
  | nil => rfl
  | cons s rest ih =>
    cases s with
    | text s => rw [annotatedSegments, Piece.ofSegments, Piece.ofSegments, ih]
    | hole t =>
      have next : Piece.startsWithHole (annotatedSegments α rest) = Piece.startsWithHole rest := by
        cases rest with
        | nil => rfl
        | cons s rest => cases s <;> rfl
      have pattern : Piece.patternBefore (t.annotated α) (annotatedSegments α rest) = Piece.patternBefore t rest := by
        cases t with
        | infer name c =>
          cases c with
          | absent => exact congrArg (fun b => if b = true then Pattern.single else Pattern.shortest) next
          | _ => exact ofHole_annotated α _
        | _ => exact ofHole_annotated α _
      rw [annotatedSegments, Piece.ofSegments, Piece.ofSegments, ih, pattern]

end Annotated

theorem captured_alike {t u : Ty} (h : Alike κ t u) (region : String) : captured region t = captured region u := by
  unfold captured
  rw [← literalFor?_annotated Ty.bare region t, ← literalFor?_annotated Ty.bare region u, show t.annotated Ty.bare = _ from h.same]
  rfl

theorem alike_captured (region : String) (t : Ty) : Alike κ (captured region t) (captured region t) :=
  .refl ((captured_constant region t).handed (.of_carried (Ty.carried_constrained κ)))

section Filled
variable {A A' : Ty → Ty → Prop}

mutual

theorem filled_alike {region : String} : {t t' : Ty} → Alike κ t t' →
    (∀ u u' region, Matched t u → Alike κ u u' → A (captured region u) u → A' (captured region u') u') →
    Filled A region t → Filled A' region t'
  | .infer name c, t', ht, hA, h => by
    obtain ⟨c', rfl, hc⟩ := ht.infer
    rw [Filled] at h ⊢
    exact h.imp (hc.isAbsent ▸ ·) (hA _ _ _ .constraint hc)
  | .template segments, t', ht, hA, h => by
    obtain ⟨segments', rfl, hs⟩ := ht.template
    rw [Filled] at h ⊢
    obtain ⟨pieces, regions, hp, hr, h⟩ := h
    have same : Piece.ofSegments segments' = Piece.ofSegments segments := by
      rw [← ofSegments_annotated Ty.bare, ← ofSegments_annotated Ty.bare segments, Ty.template.inj ht.same]
    exact ⟨pieces, regions, same ▸ hp, hr, filledEach_alike hs (fun t ht u u' region hu => hA u u' region (.hole ht hu)) h⟩
  | .union ms, t', ht, hA, h => by
    obtain ⟨ms', rfl, hms⟩ := ht.union
    rw [Filled] at h ⊢
    exact filledSome_alike hms (fun t ht u u' region hu => hA u u' region (.member ht hu)) h
  | .absent, t', ht, hA, h | .any, t', ht, hA, h | .unknown, t', ht, hA, h | .void, t', ht, hA, h | .never, t', ht, hA, h
  | .prim _, t', ht, hA, h | .literal .., t', ht, hA, h | .object .., t', ht, hA, h | .array .., t', ht, hA, h
  | .tuple _, t', ht, hA, h | .intersection _, t', ht, hA, h | .param .., t', ht, hA, h | .conditional .., t', ht, hA, h
  | .reference .., t', ht, hA, h | .function .., t', ht, hA, h | .keyOf _, t', ht, hA, h | .access .., t', ht, hA, h
  | .mapping .., t', ht, hA, h => by
    have := hA _ _ _ .self ht h
    have he := ht.same
    cases t' <;> first | exact this | cases he

theorem filledSome_alike {region : String} : {ts ts' : List Ty} → List.Forall₂ (Alike κ) ts ts' →
    (∀ t ∈ ts, ∀ u u' region, Matched t u → Alike κ u u' → A (captured region u) u → A' (captured region u') u') →
    FilledSome A region ts → FilledSome A' region ts'
  | _ :: _, _, .cons ht hts, hA, h =>
    h.imp (filled_alike ht (hA _ List.mem_cons_self))
      (filledSome_alike hts fun u hu => hA u (List.mem_cons_of_mem _ hu))

theorem filledEach_alike {regions : List String} : {xs ys : List (Segment Ty)} → List.Forall₂ (Abreast (Alike κ)) xs ys →
    (∀ t ∈ holes xs, ∀ u u' region, Matched t u → Alike κ u u' → A (captured region u) u → A' (captured region u') u') →
    FilledEach A regions xs → FilledEach A' regions ys
  | [], _, .nil, _, _ => trivial
  | .text _ :: _, _, .cons .text hs, hA, h => by
    rw [FilledEach] at h ⊢
    exact filledEach_alike hs hA h
  | .hole t :: _, _, .cons (.hole ht) hs, hA, h => by
    cases regions with
    | nil => exact h
    | cons region regions =>
      exact ⟨filled_alike ht (hA _ List.mem_cons_self) h.1,
        filledEach_alike hs (fun u hu => hA u (List.mem_cons_of_mem _ hu)) h.2⟩

end

end Filled

/-! ### Templates in pieces -/

theorem singleHoleFrom_alike {xs ys : List (Segment Ty)} (h : List.Forall₂ (Abreast (Alike κ)) xs ys) {found : Nat}
    {acc acc' single : Ty.SingleHole} (hb : acc.before = acc'.before) (ha : acc.after = acc'.after)
    (hh : found = 0 ∨ Alike κ acc.hole acc'.hole) (hs : Ty.singleHoleFrom found acc xs = some single) :
    ∃ single', Ty.singleHoleFrom found acc' ys = some single' ∧ single.before = single'.before ∧
      single.after = single'.after ∧ Alike κ single.hole single'.hole := by
  induction h generalizing found acc acc' with
  | nil =>
    rw [Ty.singleHoleFrom] at hs ⊢
    split at hs
    · rename_i hf
      cases hs
      exact ⟨acc', if_pos hf, hb, ha, hh.resolve_left (by omega)⟩
    · cases hs
  | cons hxy _ ih =>
    cases hxy with
    | @hole t u hxy =>
      rw [Ty.singleHoleFrom] at hs ⊢
      exact @ih _ { acc with hole := t } { acc' with hole := u } hb ha (.inr hxy) hs
    | @text s =>
      rw [Ty.singleHoleFrom] at hs ⊢
      split at hs
      · rename_i hf
        rw [if_pos hf]
        exact @ih _ { acc with before := s } { acc' with before := s } rfl ha (.inl hf) hs
      · rename_i hf
        rw [if_neg hf]
        exact @ih _ { acc with after := s } { acc' with after := s } hb rfl (.inr (hh.resolve_left hf)) hs

theorem singleHole_alike {xs ys : List (Segment Ty)} (h : List.Forall₂ (Abreast (Alike κ)) xs ys) {single : Ty.SingleHole}
    (hs : Ty.singleHole? xs = some single) : ∃ single', Ty.singleHole? ys = some single' ∧ single.before = single'.before ∧
      single.after = single'.after ∧ Alike κ single.hole single'.hole :=
  @singleHoleFrom_alike κ xs ys h 0 {} {} single rfl rfl (.inl rfl) hs

theorem dropStart_alike {xs ys rest : List (Segment Ty)} (h : List.Forall₂ (Abreast (Alike κ)) xs ys) {before : String}
    (hr : dropStart? before xs = some rest) :
    ∃ rest', dropStart? before ys = some rest' ∧ List.Forall₂ (Abreast (Alike κ)) rest rest' := by
  cases h with
  | nil => cases hr
  | cons hxy h =>
    cases hxy with
    | hole => cases hr
    | text =>
      rw [dropStart?] at hr ⊢
      split at hr
      · rename_i hp
        cases hr
        exact ⟨_, if_pos hp, .cons .text h⟩
      · cases hr

theorem dropEnd_alike {xs ys rest : List (Segment Ty)} (h : List.Forall₂ (Abreast (Alike κ)) xs ys) {after : String}
    (hr : dropEnd? after xs = some rest) :
    ∃ rest', dropEnd? after ys = some rest' ∧ List.Forall₂ (Abreast (Alike κ)) rest rest' := by
  have reversed := List.rel_reverse h
  unfold dropEnd? at hr ⊢
  generalize xs.reverse = xs, ys.reverse = ys at reversed hr ⊢
  cases reversed with
  | nil => cases hr
  | cons hxy h =>
    cases hxy with
    | hole => cases hr
    | text =>
      dsimp only at hr ⊢
      split at hr
      · rename_i hp
        cases hr
        exact ⟨_, if_pos hp, List.rel_reverse (.cons .text h)⟩
      · cases hr

theorem peeled_alike {xs ys rest : List (Segment Ty)} (h : List.Forall₂ (Abreast (Alike κ)) xs ys)
    {single single' : Ty.SingleHole} (hb : single.before = single'.before) (ha : single.after = single'.after)
    (hr : peeled? xs single = some rest) :
    ∃ rest', peeled? ys single' = some rest' ∧ List.Forall₂ (Abreast (Alike κ)) rest rest' := by
  have trimmed : ∀ {ms ms' : List (Segment Ty)}, List.Forall₂ (Abreast (Alike κ)) ms ms' →
      (if single'.after = "" then some ms else dropEnd? single'.after ms) = some rest →
      ∃ rest', (if single'.after = "" then some ms' else dropEnd? single'.after ms') = some rest' ∧
        List.Forall₂ (Abreast (Alike κ)) rest rest' := by
    intro ms ms' h hr
    split at hr
    · rename_i he
      cases hr
      exact ⟨_, if_pos he, h⟩
    · rename_i he
      rw [if_neg he]
      exact dropEnd_alike h hr
  unfold peeled? at hr ⊢
  rw [hb, ha] at hr
  by_cases he : single'.before = ""
  · simp only [if_pos he, Option.bind_eq_bind, Option.bind_some] at hr ⊢
    exact trimmed h hr
  · simp only [if_neg he, Option.bind_eq_bind] at hr ⊢
    obtain ⟨middle, hm, hr⟩ := Option.bind_eq_some_iff.1 hr
    obtain ⟨middle', hm', h'⟩ := dropStart_alike h hm
    rw [hm', Option.bind_some]
    exact trimmed h' hr

/-! ### Rules -/

section Rules
variable {A A' : Ty → Ty → Prop} {a b a' b' : Ty}

theorem exists_alike {ts us : List Ty} (h : List.Forall₂ (Alike κ) ts us) {t : Ty} (ht : t ∈ ts) : ∃ u ∈ us, Alike κ t u :=
  Ty.partner h ht

theorem forall_alike {ts us : List Ty} (h : List.Forall₂ (Alike κ) ts us) {P Q : Ty → Prop}
    (hPQ : ∀ t ∈ ts, ∀ u, Alike κ t u → P t → Q u) (hP : ∀ t ∈ ts, P t) : ∀ u ∈ us, Q u := by
  intro u hu
  obtain ⟨t, ht, hh⟩ := Ty.partner h.flip hu
  exact hPQ t ht u hh (hP t ht)

theorem Lone.alike (h : Lone a) (ha : Alike κ a a') : Lone a' := by
  constructor
  · rintro ms rfl
    obtain ⟨ms', rfl, -⟩ := ha.symm.union
    exact h.1 _ rfl
  · rintro ms rfl
    obtain ⟨ms', rfl, -⟩ := ha.symm.intersection
    exact h.2 _ rfl

theorem Takeable.alike {c c' : Ty} (h : Takeable A c a) (hc : Alike κ c c') (hA : A a c → A' a' c') : Takeable A' c' a' :=
  h.imp (hc.isAbsent ▸ ·) hA

theorem pointwise_alike {xs xs' ys ys' : List Ty} (hx : List.Forall₂ (Alike κ) xs xs') (hy : List.Forall₂ (Alike κ) ys ys')
    (hA : ∀ x ∈ xs, ∀ y ∈ ys, ∀ x' y', Alike κ x x' → Alike κ y y' → A x y → A' x' y') (h : Pointwise A xs ys) :
    Pointwise A' xs' ys' := by
  have entry : ∀ {zs zs' : List Ty}, List.Forall₂ (Alike κ) zs zs' → ∀ {i : Nat} {z'}, zs'[i]? = some z' →
      ∃ z, zs[i]? = some z ∧ Alike κ z z' := by
    intro zs zs' hz i z' hz'
    have := Shape.rel_getElem? hz i
    rw [hz'] at this
    generalize zs[i]? = z at this
    cases this with
    | some h => exact ⟨_, rfl, h⟩
  intro i x' y' hx' hy'
  obtain ⟨x, hxi, hxx⟩ := entry hx hx'
  obtain ⟨y, hyi, hyy⟩ := entry hy hy'
  exact hA x (List.mem_of_getElem? hxi) y (List.mem_of_getElem? hyi) x' y' hxx hyy (h i x y hxi hyi)

theorem abreast_alike {xs xs' ys ys' : List (Segment Ty)} (hx : List.Forall₂ (Abreast (Alike κ)) xs xs')
    (hy : List.Forall₂ (Abreast (Alike κ)) ys ys')
    (hA : ∀ x ∈ holes xs, ∀ y ∈ holes ys, ∀ x' y', Alike κ x x' → Alike κ y y' → A x y → A' x' y')
    (h : List.Forall₂ (Abreast A) xs ys) : List.Forall₂ (Abreast A') xs' ys' := by
  induction h generalizing xs' ys' with
  | nil =>
    cases hx
    cases hy
    exact .nil
  | cons h _ ih =>
    cases hx with
    | cons hx hxs =>
      cases hy with
      | cons hy hys =>
        cases h with
        | text =>
          cases hx
          cases hy
          exact .cons .text (ih hxs hys hA)
        | hole h =>
          cases hx with
          | hole hx =>
            cases hy with
            | hole hy =>
              refine .cons (.hole (hA _ List.mem_cons_self _ List.mem_cons_self _ _ hx hy h)) (ih hxs hys ?_)
              exact fun u hu v hv => hA u (List.mem_cons_of_mem _ hu) v (List.mem_cons_of_mem _ hv)

theorem hasProp_alike {ps ps' : List (Property Ty)} {q q' : Property Ty} (hp : List.Forall₂ (Related (Alike κ)) ps ps')
    (hq : Related (Alike κ) q q') (hA : ∀ p ∈ ps, ∀ x' y', Alike κ p.type x' → Alike κ q.type y' → A p.type q.type → A' x' y')
    (h : HasProp A ps q) : HasProp A' ps' q' := by
  have found := Shape.find?_related hp q.key
  have mem : ∀ p, Shape.find? ps q.key = some p → p ∈ ps := fun p => Shape.mem_of_find?
  unfold HasProp at h ⊢
  rw [← hq.key, ← hq.optional, ← hq.readonly]
  generalize Shape.find? ps q.key = p, Shape.find? ps' q.key = p' at found mem h
  cases found with
  | none => exact h
  | some hh =>
    obtain ⟨ho, hr, ht⟩ := h
    exact ⟨hh.optional ▸ ho, hh.readonly ▸ hr, hA _ (mem _ rfl) _ _ hh.type hq.type ht⟩

theorem hasIndex_alike {s s' : Shape} {want want' : IndexSignature Ty} (hp : List.Forall₂ (Related (Alike κ)) s.props s'.props)
    (hi : Option.Rel (Ty.Alike.RelatedIndex (Alike κ)) s.index s'.index) (hw : Ty.Alike.RelatedIndex (Alike κ) want want')
    (hprops : ∀ p ∈ s.props, ∀ x' y', Alike κ p.type x' → Alike κ want.value y' → A p.type want.value → A' x' y')
    (hindex : ∀ i, s.index = some i → ∀ x' y', Alike κ i.value x' → Alike κ want.value y' → A i.value want.value → A' x' y')
    (h : HasIndex A s want) : HasIndex A' s' want' := by
  obtain ⟨hc, hv⟩ := h
  constructor
  · intro p' hp' hcov
    obtain ⟨p, hpm, hpp⟩ := Ty.partner hp.flip hp'
    have covers : want.covers p.key = true := by
      rw [IndexSignature.covers, hw.1, hpp.key]
      exact hcov
    exact hprops p hpm _ _ hpp.type hw.2 (hc p hpm covers)
  · intro got' hg' hk
    rw [hg'] at hi
    generalize hg : s.index = got at hi
    cases hi with
    | some hgot => exact hindex _ hg _ _ hgot.2 hw.2 (hv _ hg (by rwa [hgot.1, hw.1]))

variable (hA : ∀ x y, Compares a b x y → ∀ x' y', Alike κ x x' → Alike κ y y' → A x y → A' x' y')
include hA

theorem Matches.alike (ha : Alike κ a a') (hb : Alike κ b b') (h : Matches A a b) : Matches A' a' b' := by
  cases h with
  | undefined =>
    obtain rfl := ha.atom rfl
    obtain rfl := hb.atom rfl
    exact .undefined
  | literal =>
    obtain rfl := ha.atom rfl
    obtain rfl := hb.atom rfl
    exact .literal
  | template =>
    obtain ⟨_, rfl, -⟩ := ha.template
    obtain rfl := hb.atom rfl
    exact .template
  | mapping =>
    obtain ⟨_, rfl, -⟩ := ha.mapping
    obtain rfl := hb.atom rfl
    exact .mapping
  | @filled _ segments h =>
    obtain rfl := ha.atom rfl
    obtain ⟨segments', rfl, hs⟩ := hb.template
    refine .filled ?_
    rw [Filled] at h ⊢
    obtain ⟨pieces, regions, hp, hr, h⟩ := h
    have same : Piece.ofSegments segments' = Piece.ofSegments segments := by
      rw [← ofSegments_annotated Ty.bare, ← Ty.template.inj hb.same, ofSegments_annotated]
    refine ⟨pieces, regions, same ▸ hp, hr, filledEach_alike hs (fun t ht u u' region hu hh h => ?_) h⟩
    exact hA _ _ (.hole ht hu) _ _ (captured_alike hh region ▸ alike_captured region u) hh h
  | aligned h =>
    obtain ⟨_, rfl, hs⟩ := ha.template
    obtain ⟨_, rfl, hs'⟩ := hb.template
    exact .aligned (abreast_alike hs hs' (fun x hx y hy => hA x y (.aligned hx hy)) h)
  | peeled hs hr h =>
    obtain ⟨_, rfl, hx⟩ := ha.template
    obtain ⟨_, rfl, hy⟩ := hb.template
    obtain ⟨single', hs', hbefore, hafter, hhole⟩ := singleHole_alike hy hs
    obtain ⟨rest', hr', hrest⟩ := peeled_alike hx hbefore hafter hr
    exact .peeled hs' hr' (hA _ _ (.peeled hs hr) _ _ (Ty.alike_templateOf hrest) hhole h)
  | mapped ho h =>
    obtain rfl := ha.atom rfl
    obtain ⟨_, rfl, hu⟩ := hb.mapping
    exact .mapped ho (hA _ _ .mapping _ _ ha hu h)
  | object hs hprops hindex =>
    obtain ⟨s', hs', hprops', hindex'⟩ := ha.apparentShape hs
    obtain ⟨props', index', rfl, hwant, hwanti⟩ := hb.object
    refine .object hs' (fun want' hw' => ?_) (fun want' hw' => ?_)
    · obtain ⟨want, hw, hww⟩ := Ty.partner hwant.flip hw'
      exact hasProp_alike hprops' hww (fun p hp => hA _ _ (.prop hs hp hw)) (hprops want hw)
    · rw [hw'] at hwanti
      cases hwanti with
      | some hww =>
        exact hasIndex_alike hprops' hindex' hww (fun p hp => hA _ _ (.covered hs hp))
          (fun i hi => hA _ _ (.index hs hi)) (hindex _ rfl)
  | array hr h =>
    obtain ⟨_, rfl, hx⟩ := ha.array
    obtain ⟨_, rfl, hy⟩ := hb.array
    exact .array hr (hA _ _ .element _ _ hx hy h)
  | elements h =>
    obtain ⟨_, rfl, hx⟩ := ha.tuple
    obtain ⟨_, rfl, hy⟩ := hb.array
    exact .elements (hA _ _ .elements _ _ (Ty.alike_unionOf hx) hy h)
  | tuple hl h =>
    obtain ⟨_, rfl, hx⟩ := ha.tuple
    obtain ⟨_, rfl, hy⟩ := hb.tuple
    exact .tuple (hx.length_eq ▸ hy.length_eq ▸ hl)
      (pointwise_alike hx hy (fun x hx y hy => hA x y (.position hx hy)) h)
  | reference hl h =>
    obtain ⟨_, rfl, hx⟩ := ha.reference
    obtain ⟨_, rfl, hy⟩ := hb.reference
    exact .reference (hx.length_eq ▸ hy.length_eq ▸ hl)
      (pointwise_alike hx hy (fun x hx y hy => hA x y (.argument hx hy)) h)
  | function hl hps h =>
    obtain ⟨_, _, rfl, hx, hr⟩ := ha.function
    obtain ⟨_, _, rfl, hy, hr'⟩ := hb.function
    refine .function (hx.length_eq ▸ hy.length_eq ▸ hl) ?_ (hA _ _ .result _ _ hr hr' h)
    exact @pointwise_alike κ (fun x y => A y x) (fun x y => A' y x) _ _ _ _ hx hy
      (fun x hx y hy x' y' hx' hy' => hA y x (.parameter hx hy) _ _ hy' hx') hps

theorem Permits.alike (ha : Alike κ a a') (hb : Alike κ b b') (h : Permits A a b) : Permits A' a' b' := by
  cases h with
  | sourceMembers h =>
    obtain ⟨_, rfl, hms⟩ := ha.union
    exact .sourceMembers (forall_alike hms (fun m hm u hu => hA _ _ (.sourceMember hm) _ _ hu hb) h)
  | @splitBoolean _ ms h =>
    obtain ⟨rfl, ht, hf⟩ := h
    obtain rfl := ha.atom rfl
    obtain ⟨ms', rfl, hms⟩ := hb.union
    have mem : ∀ {v}, Ty.hasMember ms (Ty.boolLit v) = true → Ty.hasMember ms' (Ty.boolLit v) = true := by
      intro v h
      obtain ⟨m, hm, hv⟩ := List.any_eq_true.1 h
      obtain ⟨m', hm', hmm⟩ := exists_alike hms hm
      refine List.any_eq_true.2 ⟨m', hm', (Ty.identical_iff _ _).2 ?_⟩
      rw [← hmm.same]
      exact (Ty.identical_iff _ _).1 hv
    exact .splitBoolean ⟨rfl, mem ht, mem hf⟩
  | targetMember hn hm h =>
    obtain ⟨_, rfl, hms⟩ := hb.union
    obtain ⟨m', hm', hu⟩ := exists_alike hms hm
    refine .targetMember ?_ hm' (hA _ _ (.targetMember hm) _ _ ha hu h)
    rintro ms rfl
    obtain ⟨ms', rfl, -⟩ := ha.symm.union
    exact hn _ rfl
  | targetBound hu h =>
    obtain ⟨_, rfl, -⟩ := hb.union
    obtain ⟨u', hu', hh⟩ := ha.upperBound hu
    exact .targetBound hu' (hA _ _ (.bound hu) _ _ hh hb h)
  | sourcePart hn hm h =>
    obtain ⟨_, rfl, hms⟩ := ha.intersection
    obtain ⟨m', hm', hu⟩ := exists_alike hms hm
    refine .sourcePart ?_ hm' (hA _ _ (.sourcePart hm) _ _ hu hb h)
    rintro ms rfl
    obtain ⟨ms', rfl, -⟩ := hb.symm.union
    exact hn _ rfl
  | targetParts hl h =>
    obtain ⟨_, rfl, hms⟩ := hb.intersection
    exact .targetParts (hl.alike ha) (forall_alike hms (fun m hm u hu => hA _ _ (.targetPart hm) _ _ ha hu) h)
  | targetInfer hl h =>
    obtain ⟨c', rfl, hc⟩ := hb.infer
    exact .targetInfer (hl.alike ha) (h.alike hc (hA _ _ .targetInfer _ _ ha hc))
  | sourceInfer hl hn h =>
    obtain ⟨c', rfl, hc⟩ := ha.infer
    refine .sourceInfer (hl.alike hb) ?_ (h.alike hc (hA _ _ .sourceInfer _ _ hb hc))
    rintro n c rfl
    obtain ⟨_, rfl, -⟩ := hb.symm.infer
    exact hn _ _ rfl
  | bound hl hn hu h =>
    obtain ⟨u', hu', hh⟩ := ha.upperBound hu
    refine .bound (hl.alike hb) ?_ hu' (hA _ _ (.bound hu) _ _ hh hb h)
    rintro n c rfl
    obtain ⟨_, rfl, -⟩ := hb.symm.infer
    exact hn _ _ rfl
  | structural hl h => exact .structural (hl.alike ha) (h.alike hA ha hb)

end Rules

theorem evident_alike {o : Options} {a b a' b' : Ty} (ha : Alike κ a a') (hb : Alike κ b b') :
    evident o a b = evident o a' b' := by
  have kind : ∀ {p : Ty → Bool}, (∀ t, p t.erased = p t) → ∀ {t u : Ty}, Alike κ t u → p t = p u := by
    intro p hp t u h
    rw [← hp t, ← hp u, h.same]
  have same : a.identical b = a'.identical b' := by
    rw [Bool.eq_iff_iff, Ty.identical_iff, Ty.identical_iff, ha.same, hb.same]
  unfold evident
  rw [same, kind (p := Ty.isNever) (fun t => by cases t <;> rfl) ha, kind (p := Ty.isAny) (fun t => by cases t <;> rfl) hb,
    kind (p := Ty.isUnknown) (fun t => by cases t <;> rfl) hb, kind (p := Ty.isAny) (fun t => by cases t <;> rfl) ha]

/-- Alike types are assignable to alike types. -/
theorem accepts_alike {a b a' b' : Ty} (ha : Alike κ a a') (hb : Alike κ b b') : accepts a b = accepts a' b' := by
  have step : ∀ a b {a' b' : Ty}, Alike κ a a' → Alike κ b b' → accepts a b = true → accepts a' b' = true := by
    refine compares_induction fun a b ih a' b' ha hb h => ?_
    obtain ⟨pa, pb⟩ := present_of_accepts h
    refine (accepts_iff_permits (ha.isAbsent ▸ pa) (hb.isAbsent ▸ pb)).2 (((accepts_iff_permits pa pb).1 h).imp ?_ fun h => ?_)
    · rw [evident_alike ha hb]
      exact id
    · exact h.alike (fun x y hxy x' y' hx hy => ih x y hxy hx hy) ha hb
  exact Bool.eq_iff_iff.2 ⟨step _ _ ha hb, step _ _ ha.symm hb.symm⟩

end Assignable
end TypeCalculus

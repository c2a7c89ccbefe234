import Mathlib.Data.List.Forall2
import TypeCalculus.Proofs.Ty.NormalForm
import TypeCalculus.Ty.Rebuild

/-! Nodes that rebuilding makes of their parts as they are (`rebuild_row`), as no constructor drops, merges or reorders
    parts. What rebuilding keeps of such a node is what giving it other parts keeps. Rebuilding it twice is rebuilding it
    once, with one function after the other (`rebuild_twice`). -/

namespace TypeCalculus.Ty

/-! ### Properties in order -/

theorem ascending_of_keys {ps qs : List (Property Ty)} (h : List.Forall₂ (fun p q => q.key = p.key) ps qs)
    (hp : Shape.Ascending ps) : Shape.Ascending qs := by
  have keys : qs.map (·.key) = ps.map (·.key) := by
    clear hp
    induction h with
    | nil => rfl
    | cons h _ ih => rw [List.map_cons, List.map_cons, h, ih]
  have mapped : (ps.map (·.key)).Pairwise (· < ·) := List.pairwise_map.2 hp
  rw [← keys] at mapped
  exact List.pairwise_map.1 mapped

/-! ### Rows -/

/-- The node is made of its parts as they are, once its properties are in order. -/
def isRow : Ty → Bool
  | array .. | tuple _ | function .. | object .. | reference .. | keyOf _ | access .. | mapping .. => true
  | _ => false

def refillProp (p : Property Ty) (u : Ty) : Property Ty := { p with type := u }

def refillIndex (index : Option (IndexSignature Ty)) (us : List Ty) : Option (IndexSignature Ty) :=
  index.map fun i => { i with value := us.headD never }

/-- The row with other types in the places of its parts. -/
def refill : Ty → List Ty → Ty
  | object props index, us =>
    object (List.zipWith refillProp props us) (refillIndex index (us.drop props.length))
  | array _ readonly, us => array (us.headD never) readonly
  | tuple _, us => tuple us
  | reference name _, us => reference name us
  | function _ _, us => function us.dropLast (us.getLastD never)
  | keyOf _, us => keyOf (us.headD never)
  | access _ _, us => access (us.headD never) (us.getLastD never)
  | mapping op _, us => mapping op (us.headD never)
  | t, _ => t

section Refill
variable {t : Ty} {us vs : List Ty}

theorem isRow_refill (t : Ty) (us : List Ty) : (t.refill us).isRow = t.isRow := by
  cases t <;> rfl

theorem kind?_refill (t : Ty) (us : List Ty) : (t.refill us).kind? = t.kind? := by
  cases t <;> rfl

theorem nodeForm_refill (hn : NodeForm t) (us : List Ty) : NodeForm (t.refill us) := by
  cases t with
  | object props index =>
    refine List.Pairwise.of_map (·.key) (fun _ _ => id) (List.Pairwise.sublist ?_ (List.pairwise_map.2 hn))
    rw [List.map_zipWith]
    clear hn
    induction props generalizing us with
    | nil => exact List.nil_sublist _
    | cons p props ih =>
      cases us with
      | nil => exact List.nil_sublist _
      | cons u us => exact (ih us).cons_cons _
  | _ => exact hn

/-- The types for the parts of an object are those for its properties and that for its index signature, if it has one. -/
theorem splits_parts {props : List (Property Ty)} {index : Option (IndexSignature Ty)}
    (h : us.length = (object props index).parts.length) :
    ∃ types values, us = types ++ values ∧ types.length = props.length ∧ values.length = index.toList.length := by
  refine ⟨us.take props.length, us.drop props.length, (List.take_append_drop _ _).symm, ?_, ?_⟩ <;>
    cases index <;> simp_all [parts]

theorem zipWith_refillProp {props : List (Property Ty)} (h : us.length = props.length) (vs : List Ty) :
    List.zipWith refillProp props (us ++ vs) = List.zipWith refillProp props us := by
  induction props generalizing us with
  | nil => rfl
  | cons p props ih =>
    cases us with
    | nil => cases h
    | cons u us => exact congrArg (refillProp p u :: ·) (ih (Nat.succ.inj h))

theorem types_refillProp {props : List (Property Ty)} (h : us.length = props.length) :
    (List.zipWith refillProp props us).map (·.type) = us := by
  induction props generalizing us with
  | nil => exact (List.length_eq_zero_iff.1 h).symm
  | cons p props ih =>
    cases us with
    | nil => cases h
    | cons u us => exact congrArg (u :: ·) (ih (Nat.succ.inj h))

theorem zipWith_refillProp_twice {props : List (Property Ty)} (h : us.length = props.length) (vs : List Ty) :
    List.zipWith refillProp (List.zipWith refillProp props us) vs = List.zipWith refillProp props vs := by
  induction props generalizing us vs with
  | nil => rfl
  | cons p props ih =>
    cases us with
    | nil => cases h
    | cons u us =>
      cases vs with
      | nil => rfl
      | cons v vs => exact congrArg (refillProp p v :: ·) (ih (Nat.succ.inj h) vs)

theorem zipWith_refillProp_self (props : List (Property Ty)) : List.zipWith refillProp props (props.map (·.type)) = props := by
  induction props with
  | nil => rfl
  | cons p props ih => exact congrArg (p :: ·) ih

theorem refill_parts (ht : t.isRow = true) : t.refill t.parts = t := by
  cases t with
  | object props index =>
    have same := zipWith_refillProp_self props
    cases index <;> simp [refill, refillIndex, parts, zipWith_refillProp, same]
  | function params result => simp [refill, parts]
  | array | tuple | reference | keyOf | access | mapping => rfl
  | _ => cases ht

/-- The parts of a refilled row are the types given for them. -/
theorem parts_refill (ht : t.isRow = true) (h : us.length = t.parts.length) : (t.refill us).parts = us := by
  cases t with
  | object props index =>
    obtain ⟨types, values, rfl, hts, hvs⟩ := splits_parts h
    rw [refill, parts, zipWith_refillProp hts, types_refillProp hts, ← hts, List.drop_left]
    cases index with
    | none => rw [List.length_eq_zero_iff.1 hvs]; rfl
    | some i =>
      obtain ⟨v, rfl⟩ := List.length_eq_one_iff.1 hvs
      rfl
  | function params result =>
    obtain rfl | ⟨init, last, rfl⟩ := us.eq_nil_or_concat
    · simp [parts] at h
    · simp [refill, parts]
  | array | keyOf | mapping =>
    obtain ⟨u, rfl⟩ := List.length_eq_one_iff.1 h
    rfl
  | access =>
    obtain ⟨u, v, rfl⟩ := List.length_eq_two.1 h
    rfl
  | tuple | reference => rfl
  | _ => cases ht

/-- Of a row that is refilled twice only the types given last are left. -/
theorem refill_refill (h : us.length = t.parts.length) (vs : List Ty) : (t.refill us).refill vs = t.refill vs := by
  cases t with
  | object props index =>
    obtain ⟨types, values, rfl, hts, -⟩ := splits_parts h
    rw [refill, refill, refill, zipWith_refillProp hts, zipWith_refillProp_twice hts, List.length_zipWith, hts, Nat.min_self]
    cases index <;> rfl
  | _ => rfl

/-- A mapping of types that only goes on to the parts of a row goes along with giving the row other parts. -/
theorem refill_map {F : Ty → Ty} (never_ : F never = never)
    (goesOn : ∀ t : Ty, t.isRow = true → t.isShape = false → F t = t.refill (t.parts.map F)) (ht : t.isRow = true)
    (hs : t.isShape = false) (us : List Ty) : (F t).refill (us.map F) = F (t.refill us) := by
  have head : (us.map F).headD never = F (us.headD never) := by
    cases us with
    | nil => exact never_.symm
    | cons => rfl
  have last : (us.map F).getLastD never = F (us.getLastD never) := by
    obtain rfl | ⟨init, last, rfl⟩ := us.eq_nil_or_concat
    · exact never_.symm
    · simp
  rw [goesOn t ht hs, refill_refill (List.length_map F), goesOn (t.refill us) ((isRow_refill t us).trans ht)]
  · cases t with
    | object => cases hs
    | function =>
      simp only [refill, parts, last, List.map_append, List.map_dropLast, List.map_cons, List.map_nil, List.dropLast_concat,
        List.getLastD_concat]
    | array _ readonly => exact congrArg (array · readonly) head
    | keyOf => exact congrArg keyOf head
    | mapping op => exact congrArg (mapping op) head
    | access => exact congrArg₂ access head last
    | _ => rfl
  · cases t <;> first | rfl | cases hs

end Refill

/-! ### Rebuilding rows -/

section Rebuild
variable {m : Type → Type} [Monad m] [LawfulMonad m]

theorem mapM_props {β : Type} (f : Ty → m Ty) (props : List (Property Ty)) (vs : List Ty)
    (k : List (Property Ty) → List Ty → m β) :
    ((props.map (·.type) ++ vs).mapM f >>= fun us => k (List.zipWith refillProp props us) (us.drop props.length)) =
      props.mapM (mapProp f) >>= fun ps => vs.mapM f >>= k ps := by
  induction props generalizing k with
  | nil => simp
  | cons p props ih =>
    have rest := fun u => ih fun ps => k (refillProp p u :: ps)
    simp only [List.map_cons, List.cons_append, List.mapM_cons, bind_assoc, pure_bind, mapProp, List.zipWith_cons_cons,
      List.length_cons, List.drop_succ_cons, rest]
    rfl

/-- Rebuilding a row puts what becomes of its parts in their places. -/
theorem rebuild_row {t : Ty} (hn : NodeForm t) (ht : t.isRow = true) (f : Ty → m Ty) :
    t.rebuild f = t.refill <$> t.parts.mapM f := by
  rw [map_eq_pure_bind]
  cases t with
  | object props index =>
    let build := fun ps ws => (pure (Shape.ofProps ps (refillIndex index ws)).toTy : m Ty)
    calc (object props index).rebuild f
      _ = props.mapM (mapProp f) >>= fun ps => (index.map (·.value)).toList.mapM f >>= build ps := by
        cases index <;> simp [rebuild, mapIndex, build, refillIndex]
      _ = (object props index).parts.mapM f >>= fun us => build (List.zipWith refillProp props us) (us.drop props.length) :=
        (mapM_props f props _ build).symm
      _ = (object props index).parts.mapM f >>= fun us => pure ((object props index).refill us) := by
        refine bind_congr fun us => congrArg pure ?_
        rw [Shape.ofProps_self (nodeForm_refill (t := object props index) hn us)]
        rfl
  | function => simp [rebuild, refill, parts]
  | array | tuple | reference | keyOf | access | mapping => simp [rebuild, refill, parts]
  | _ => cases ht

end Rebuild

section Option
variable {f : Ty → Option Ty} {t u : Ty}

theorem forall₂_of_mapM {α β : Type} {f : α → Option β} {xs : List α} {ys : List β} (h : xs.mapM f = some ys) :
    List.Forall₂ (fun x y => f x = some y) xs ys := by
  induction xs generalizing ys with
  | nil =>
    cases h
    exact .nil
  | cons x xs ih =>
    rw [List.mapM_cons] at h
    obtain ⟨y, hy, h⟩ := Option.bind_eq_some_iff.1 h
    obtain ⟨ys', hys, h⟩ := Option.bind_eq_some_iff.1 h
    cases h
    exact .cons hy (ih hys)

theorem rebuild_row_eq_some (hn : NodeForm t) (ht : t.isRow = true) (h : t.rebuild f = some u) :
    ∃ us, t.parts.mapM f = some us ∧ us.length = t.parts.length ∧ u = t.refill us := by
  rw [rebuild_row hn ht] at h
  obtain ⟨us, hus, rfl⟩ := Option.map_eq_some_iff.1 h
  exact ⟨us, hus, (forall₂_of_mapM hus).length_eq.symm, rfl⟩

theorem isRow_rebuild (hn : NodeForm t) (ht : t.isRow = true) (h : t.rebuild f = some u) : u.isRow = true := by
  obtain ⟨us, -, -, rfl⟩ := rebuild_row_eq_some hn ht h
  rwa [isRow_refill]

/-- The parts of a rebuilt row are the rebuilt parts, in order. -/
theorem parts_rebuild (hn : NodeForm t) (ht : t.isRow = true) (h : t.rebuild f = some u) :
    List.Forall₂ (fun v w => f v = some w) t.parts u.parts := by
  obtain ⟨us, hus, hl, rfl⟩ := rebuild_row_eq_some hn ht h
  rw [parts_refill ht hl]
  exact forall₂_of_mapM hus

theorem mapProp_eq_some {p q : Property Ty} (h : mapProp f p = some q) : f p.type = some q.type ∧ q = { p with type := q.type } := by
  obtain ⟨u, hu, h⟩ := Option.bind_eq_some_iff.1 h
  cases h
  exact ⟨hu, rfl⟩

theorem rebuild_object {props : List (Property Ty)} {index : Option (IndexSignature Ty)} {u : Ty}
    (hn : Shape.Ascending props) (h : (object props index).rebuild f = some u) :
    ∃ props' index', props.mapM (mapProp f) = some props' ∧ mapIndex f index = some index' ∧ u = object props' index' := by
  obtain ⟨props', hprops, h⟩ := Option.bind_eq_some_iff.1 h
  obtain ⟨index', hindex, h⟩ := Option.bind_eq_some_iff.1 h
  have keys : List.Forall₂ (fun p q : Property Ty => q.key = p.key) props props' :=
    (forall₂_of_mapM hprops).imp fun p q hq => by rw [(mapProp_eq_some hq).2]
  refine ⟨props', index', hprops, hindex, (Option.some.inj h).symm.trans ?_⟩
  rw [Shape.ofProps_self (ascending_of_keys keys hn)]
  rfl

variable {m : Type → Type} [Monad m] [LawfulMonad m]

theorem mapM_twice {α β : Type} {f : α → Option α} {xs ys : List α} (h : xs.mapM f = some ys) (g : α → m β) :
    ys.mapM g = xs.mapM fun x => g ((f x).getD x) := by
  have same := forall₂_of_mapM h
  clear h
  induction same with
  | nil => rfl
  | cons hy _ ih => rw [List.mapM_cons, List.mapM_cons, ih, hy, Option.getD_some]

/-- Rebuilding a row twice is rebuilding it once. -/
theorem rebuild_twice (hn : NodeForm t) (ht : t.isRow = true) (h : t.rebuild f = some u) (g : Ty → m Ty) :
    u.rebuild g = t.rebuild fun v => g ((f v).getD v) := by
  obtain ⟨us, hus, hl, rfl⟩ := rebuild_row_eq_some hn ht h
  rw [rebuild_row (nodeForm_refill hn us) ((isRow_refill t us).trans ht), rebuild_row hn ht, parts_refill ht hl,
    funext (refill_refill hl), mapM_twice hus]

end Option
end TypeCalculus.Ty

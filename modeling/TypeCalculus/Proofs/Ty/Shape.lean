import Mathlib.Data.List.Forall2
import TypeCalculus.Ty.Shape

/-! Object shapes as lists of properties: what is found or kept was put in, and keys ascend. -/

namespace TypeCalculus.Shape

theorem mem_of_find? {props : List (Property Ty)} {key : String} {p : Property Ty}
    (h : find? props key = some p) : p ∈ props :=
  List.mem_of_getElem? (Option.filter_eq_some_iff.1 h).1

/-! ### Order -/

/-- Keys ascend. -/
def Ascending (props : List (Property Ty)) : Prop := props.Pairwise fun p q => p.key < q.key

/-- Puts a property among properties in ascending order; it replaces one of the same key. -/
def insertProp (p : Property Ty) : List (Property Ty) → List (Property Ty)
  | [] => [p]
  | q :: qs =>
    if p.key < q.key then p :: q :: qs
    else if p.key = q.key then p :: qs
    else q :: insertProp p qs

theorem mem_insertProp {p q : Property Ty} : {props : List (Property Ty)} → q ∈ insertProp p props → q = p ∨ q ∈ props
  | [], h => Or.inl (List.mem_singleton.1 h)
  | r :: rs, h => by
    rw [insertProp] at h
    split at h
    · exact List.mem_cons.1 h
    · split at h
      · rcases List.mem_cons.1 h with h | h
        · exact Or.inl h
        · exact Or.inr (List.mem_cons_of_mem _ h)
      · rcases List.mem_cons.1 h with h | h
        · exact Or.inr (h ▸ List.mem_cons_self)
        · rcases mem_insertProp h with h | h
          · exact Or.inl h
          · exact Or.inr (List.mem_cons_of_mem _ h)

theorem ascending_insertProp (p : Property Ty) {props : List (Property Ty)} (h : Ascending props) :
    Ascending (insertProp p props) := by
  induction props with
  | nil => exact List.pairwise_singleton _ _
  | cons q qs ih =>
    obtain ⟨hq, hqs⟩ := List.pairwise_cons.1 h
    rw [insertProp]
    split
    · rename_i hlt
      refine List.Pairwise.cons (fun r hr => ?_) h
      rcases List.mem_cons.1 hr with rfl | hr
      · exact hlt
      · exact String.lt_trans hlt (hq r hr)
    · split
      · rename_i heq
        exact List.Pairwise.cons (fun r hr => heq ▸ hq r hr) hqs
      · rename_i hnlt hne
        have hlt : q.key < p.key := Std.lt_of_le_of_ne (String.not_lt.1 hnlt) (Ne.symm hne)
        refine List.Pairwise.cons (fun r hr => ?_) (ih hqs)
        rcases mem_insertProp hr with rfl | hr
        · exact hlt
        · exact hq r hr

theorem mem_insertProp_iff {p q : Property Ty} {props : List (Property Ty)} (h : Ascending props) :
    q ∈ insertProp p props ↔ q = p ∨ q ∈ props ∧ q.key ≠ p.key := by
  induction props with
  | nil => simp [insertProp]
  | cons r rs ih =>
    obtain ⟨hr, hrs⟩ := List.pairwise_cons.1 h
    have above : ∀ {q}, q ∈ rs → q.key ≠ r.key := fun hq he => String.lt_irrefl _ (he ▸ hr _ hq)
    rw [insertProp]
    split
    · rename_i hlt
      have apart : ∀ q ∈ r :: rs, q.key ≠ p.key := by
        intro q hq he
        rcases List.mem_cons.1 hq with rfl | hq
        · exact String.lt_irrefl _ (he ▸ hlt)
        · exact String.lt_irrefl _ (he ▸ String.lt_trans hlt (hr q hq))
      rw [List.mem_cons]
      exact or_congr_right ⟨fun hq => ⟨hq, apart q hq⟩, And.left⟩
    · split
      · rename_i heq
        rw [List.mem_cons, List.mem_cons, heq]
        refine or_congr_right ⟨fun hq => ⟨.inr hq, above hq⟩, ?_⟩
        rintro ⟨rfl | hq, hne⟩
        · exact absurd rfl hne
        · exact hq
      · rename_i hne
        rw [List.mem_cons, List.mem_cons, ih hrs]
        grind

/-! ### Lookups -/

theorem Ascending.lt {props : List (Property Ty)} (h : Ascending props) {i j : Nat} {p q : Property Ty}
    (hp : props[i]? = some p) (hq : props[j]? = some q) (hij : i < j) : p.key < q.key := by
  obtain ⟨hi, rfl⟩ := List.getElem?_eq_some_iff.1 hp
  obtain ⟨hj, rfl⟩ := List.getElem?_eq_some_iff.1 hq
  exact List.pairwise_iff_getElem.1 h i j hi hj hij

/-- The search splits the properties into those with lower keys and the others. -/
theorem lowerBound_spec {props : List (Property Ty)} (hp : Ascending props) {key : String} {low high : Nat}
    (hlow : ∀ i p, i < low → props[i]? = some p → p.key < key)
    (hhigh : ∀ i p, high ≤ i → props[i]? = some p → ¬p.key < key) :
    (∀ i p, i < lowerBound props key low high → props[i]? = some p → p.key < key) ∧
      ∀ i p, lowerBound props key low high ≤ i → props[i]? = some p → ¬p.key < key := by
  fun_induction lowerBound props key low high with
  | case1 low high hlt middle p hm hk ih =>
    refine ih (fun i q hi hq => ?_) hhigh
    rcases Nat.lt_or_eq_of_le (Nat.le_of_lt_succ hi) with hi | rfl
    · exact String.lt_trans (hp.lt hq hm hi) hk
    · rw [hm] at hq
      cases hq
      exact hk
  | case2 low high hlt middle p hm hk ih =>
    refine ih hlow fun i q hi hq => ?_
    rcases Nat.lt_or_eq_of_le hi with hi | rfl
    · exact fun hlt => hk (String.lt_trans (hp.lt hm hq hi) hlt)
    · rw [hm] at hq
      cases hq
      exact hk
  | case3 low high hlt middle hm ih =>
    refine ih hlow fun i q hi hq => ?_
    rw [List.getElem?_eq_none (Nat.le_trans (List.getElem?_eq_none_iff.1 hm) hi)] at hq
    cases hq
  | case4 low high hge => exact ⟨hlow, fun i p hi => hhigh i p (Nat.le_trans (Nat.le_of_not_lt hge) hi)⟩

/-- A property of an ascending list is found under its key. -/
theorem find?_of_mem {props : List (Property Ty)} (h : Ascending props) {p : Property Ty} (hp : p ∈ props) :
    find? props p.key = some p := by
  obtain ⟨j, hj⟩ := List.mem_iff_getElem?.1 hp
  have length : ∀ i q, props.length ≤ i → props[i]? = some q → ¬q.key < p.key := by
    intro i q hi hq
    rw [List.getElem?_eq_none hi] at hq
    cases hq
  obtain ⟨below, above⟩ := lowerBound_spec h (fun i q hi _ => absurd hi (Nat.not_lt_zero i)) length
  unfold find?
  generalize lowerBound props p.key 0 props.length = r at below above
  rcases Nat.lt_trichotomy j r with hlt | rfl | hgt
  · exact absurd (below j p hlt hj) (String.lt_irrefl _)
  · rw [hj]
    simp
  · obtain ⟨q, hq⟩ : ∃ q, props[r]? = some q :=
      ⟨_, List.getElem?_eq_getElem (Nat.lt_trans hgt (List.getElem?_eq_some_iff.1 hj).1)⟩
    exact absurd (h.lt hq hj hgt) (above r q (Nat.le_refl r) hq)

theorem key_of_find? {props : List (Property Ty)} {key : String} {p : Property Ty} (h : find? props key = some p) :
    p.key = key :=
  of_decide_eq_true (Option.filter_eq_some_iff.1 h).2

section Found
variable {props : List (Property Ty)} {key : String} {p q : Property Ty} (h : Ascending props)
include h

theorem find?_eq_some_iff : find? props key = some p ↔ p ∈ props ∧ p.key = key :=
  ⟨fun hp => ⟨mem_of_find? hp, key_of_find? hp⟩, fun ⟨hp, hk⟩ => hk ▸ find?_of_mem h hp⟩

theorem mem_iff_find? : p ∈ props ↔ find? props p.key = some p := ⟨find?_of_mem h, mem_of_find?⟩

/-- The properties of a key are the one found, if any. -/
theorem filter_key_eq_find? : props.filter (·.key = key) = (find? props key).toList := by
  have under : ∀ q, q ∈ props.filter (·.key = key) ↔ find? props key = some q := fun q => by
    rw [List.mem_filter, decide_eq_true_eq, find?_eq_some_iff h]
  have apart : Ascending (props.filter (·.key = key)) := List.Pairwise.filter _ h
  generalize props.filter (·.key = key) = found at under apart
  cases found with
  | nil =>
    rw [Option.eq_none_iff_forall_ne_some.2 fun q hq => List.not_mem_nil ((under q).2 hq)]
    rfl
  | cons r rs =>
    have first := (under r).1 List.mem_cons_self
    cases rs with
    | nil => rw [first]; rfl
    | cons r' rs =>
      have second := (under r').1 (List.mem_cons_of_mem _ List.mem_cons_self)
      cases Option.some.inj (first.symm.trans second)
      exact absurd (List.rel_of_pairwise_cons apart List.mem_cons_self) (String.lt_irrefl _)

/-- Putting a property among others changes what is found under its key only. -/
theorem find?_insertProp : find? (insertProp p props) key = if p.key = key then some p else find? props key := by
  refine Option.ext fun q => ?_
  rw [find?_eq_some_iff (ascending_insertProp p h), mem_insertProp_iff h]
  split
  · grind
  · rw [find?_eq_some_iff h]
    grind

end Found

/-- Properties in ascending order are determined by which they are. -/
theorem Ascending.ext {ps qs : List (Property Ty)} (hp : Ascending ps) (hq : Ascending qs)
    (h : ∀ p, p ∈ ps ↔ p ∈ qs) : ps = qs := by
  have nodup : ∀ {rs : List (Property Ty)}, Ascending rs → rs.Nodup := by
    refine fun hr => List.Pairwise.imp (fun hlt he => ?_) hr
    exact String.lt_irrefl _ (he ▸ hlt)
  have perm : ps.Perm qs := (List.perm_ext_iff_of_nodup (nodup hp) (nodup hq)).2 h
  exact perm.eq_of_pairwise (fun p q _ _ hpq hqp => absurd hpq (String.lt_asymm hqp)) hp hq

/-! ### Shapes made of properties -/

theorem mem_putProp {p q : Property Ty} {props : List (Property Ty)} (h : props.Pairwise fun p q => p.key ≠ q.key) :
    q ∈ putProp p props ↔ q = p ∨ q ∈ props ∧ q.key ≠ p.key := by
  induction props with
  | nil => simp [putProp]
  | cons r rs ih =>
    obtain ⟨hr, hrs⟩ := List.pairwise_cons.1 h
    rw [putProp]
    split
    · rename_i heq
      rw [List.mem_cons, List.mem_cons, ← heq]
      refine or_congr_right ⟨fun hq => ⟨.inr hq, (hr q hq).symm⟩, ?_⟩
      rintro ⟨rfl | hq, hne⟩
      · exact absurd rfl hne
      · exact hq
    · rw [List.mem_cons, List.mem_cons, ih hrs]
      grind

theorem distinct_putProp {p : Property Ty} {props : List (Property Ty)} (h : props.Pairwise fun p q => p.key ≠ q.key) :
    (putProp p props).Pairwise fun p q => p.key ≠ q.key := by
  induction props with
  | nil => exact List.pairwise_singleton _ _
  | cons r rs ih =>
    obtain ⟨hr, hrs⟩ := List.pairwise_cons.1 h
    rw [putProp]
    split
    · rename_i heq
      exact List.pairwise_cons.2 ⟨fun q hq => heq ▸ hr q hq, hrs⟩
    · rename_i hne
      refine List.pairwise_cons.2 ⟨fun q hq => ?_, ih hrs⟩
      rcases (mem_putProp hrs).1 hq with rfl | ⟨hq, -⟩
      · exact hne
      · exact hr q hq

/-- Replacing properties in place leaves the same ones as putting them in order one by one. -/
theorem mem_foldl_putProp {kept sorted : List (Property Ty)} (props : List (Property Ty))
    (hk : kept.Pairwise fun p q => p.key ≠ q.key) (hs : Ascending sorted) (h : ∀ q, q ∈ kept ↔ q ∈ sorted) :
    ((props.foldl (fun kept p => putProp p kept) kept).Pairwise fun p q => p.key ≠ q.key) ∧
      Ascending (props.foldl (fun sorted p => insertProp p sorted) sorted) ∧
      ∀ q, q ∈ props.foldl (fun kept p => putProp p kept) kept ↔ q ∈ props.foldl (fun sorted p => insertProp p sorted) sorted := by
  induction props generalizing kept sorted with
  | nil => exact ⟨hk, hs, h⟩
  | cons p props ih =>
    refine ih (distinct_putProp hk) (ascending_insertProp p hs) fun q => ?_
    rw [mem_putProp hk, mem_insertProp_iff hs, h]

/-- Properties that are replaced in place and then sorted by their keys are those that are put in order one by one. -/
theorem ofProps_eq (props : List (Property Ty)) (index : Option (IndexSignature Ty)) :
    ofProps props index = ⟨props.foldl (fun sorted p => insertProp p sorted) [], index⟩ := by
  obtain ⟨distinct, ascending, members⟩ := mem_foldl_putProp props .nil .nil fun _ => Iff.rfl
  refine congrArg (Shape.mk · index) (Ascending.ext ?_ ascending fun p => List.mem_mergeSort.trans (members p))
  generalize props.foldl (fun kept p => putProp p kept) [] = kept at distinct
  have sorted : (kept.mergeSort fun p q => decide (p.key ≤ q.key)).Pairwise fun p q => decide (p.key ≤ q.key) := by
    refine List.pairwise_mergeSort (fun p q r hpq hqr => ?_) (fun p q => ?_) kept
    · exact decide_eq_true (String.le_trans (of_decide_eq_true hpq) (of_decide_eq_true hqr))
    · simpa using String.le_total p.key q.key
  have apart : (kept.mergeSort fun p q => decide (p.key ≤ q.key)).Pairwise fun p q => p.key ≠ q.key :=
    (List.mergeSort_perm kept _).pairwise_iff Ne.symm |>.2 distinct
  exact sorted.imp₂ (fun p q hle hne => Std.lt_of_le_of_ne (of_decide_eq_true hle) hne) apart

/-- The keys of a shape made of properties ascend. -/
theorem ascending_ofProps (props : List (Property Ty)) (index : Option (IndexSignature Ty)) :
    Ascending (ofProps props index).props := by
  rw [ofProps_eq]
  exact (mem_foldl_putProp props .nil .nil fun _ => Iff.rfl).2.1

/-- A shape made of properties finds the last one of a key. -/
theorem find?_ofProps (props : List (Property Ty)) (index : Option (IndexSignature Ty)) (key : String) :
    find? (ofProps props index).props key = (props.filter (·.key = key)).getLast? := by
  have fold : ∀ {props sorted : List (Property Ty)}, Ascending sorted →
      find? (props.foldl (fun sorted p => insertProp p sorted) sorted) key =
        (props.filter (·.key = key)).getLast?.or (find? sorted key) := by
    intro props
    induction props with
    | nil => exact fun _ => rfl
    | cons p props ih =>
      intro sorted h
      rw [List.foldl_cons, ih (ascending_insertProp p h), find?_insertProp h, List.filter_cons]
      simp only [decide_eq_true_eq]
      split
      · rw [List.getLast?_cons]
        cases (props.filter (·.key = key)).getLast? <;> rfl
      · rfl
  rw [ofProps_eq, fold List.Pairwise.nil]
  exact Option.or_none

/-- A shape made of properties has no others. -/
theorem mem_ofProps {q : Property Ty} {props : List (Property Ty)} {index : Option (IndexSignature Ty)}
    (h : q ∈ (ofProps props index).props) : q ∈ props := by
  rw [mem_iff_find? (ascending_ofProps props index), find?_ofProps] at h
  exact List.mem_of_mem_filter (List.mem_of_getLast? h)

/-- The last of some properties stays in the shape they make. -/
theorem mem_ofProps_last (props : List (Property Ty)) (p : Property Ty) (index : Option (IndexSignature Ty)) :
    p ∈ (ofProps (props ++ [p]) index).props := by
  rw [mem_iff_find? (ascending_ofProps _ index), find?_ofProps]
  simp

/-- The shape of the properties of a shape is the shape. -/
theorem ofProps_self {props : List (Property Ty)} (h : Ascending props) (index : Option (IndexSignature Ty)) :
    ofProps props index = ⟨props, index⟩ := by
  have same : (ofProps props index).props = props := by
    refine (ascending_ofProps props index).ext h fun p => ?_
    rw [mem_iff_find? (ascending_ofProps props index), mem_iff_find? h, find?_ofProps, filter_key_eq_find? h]
    cases find? props p.key <;> rfl
  exact congrArg (Shape.mk · index) same

/-! ### Properties that correspond -/

section Corresponding
variable {R : Property Ty → Property Ty → Prop} (keys : ∀ {p q}, R p q → p.key = q.key)
include keys

theorem forall₂_insertProp {p q : Property Ty} {ps qs : List (Property Ty)} (h : R p q) (hs : List.Forall₂ R ps qs) :
    List.Forall₂ R (insertProp p ps) (insertProp q qs) := by
  induction hs with
  | nil => exact .cons h .nil
  | cons h' hs ih =>
    rw [insertProp, insertProp, keys h, keys h']
    split
    · exact .cons h (.cons h' hs)
    · split
      · exact .cons h hs
      · exact .cons h' ih

/-- Properties that correspond one by one, key for key, make shapes that do. -/
theorem forall₂_ofProps {ps qs : List (Property Ty)} (h : List.Forall₂ R ps qs) {i j : Option (IndexSignature Ty)} :
    List.Forall₂ R (ofProps ps i).props (ofProps qs j).props := by
  have fold : ∀ {sorted sorted' : List (Property Ty)}, List.Forall₂ R sorted sorted' →
      List.Forall₂ R (ps.foldl (fun sorted p => insertProp p sorted) sorted)
        (qs.foldl (fun sorted p => insertProp p sorted) sorted') := by
    induction h with
    | nil => exact id
    | cons h _ ih => exact fun hs => ih (forall₂_insertProp keys h hs)
  rw [ofProps_eq, ofProps_eq]
  exact fold .nil

end Corresponding

/-- A map of properties that keeps their keys is one of the shapes they make. -/
theorem map_ofProps {f : Property Ty → Property Ty} (keys : ∀ p, (f p).key = p.key) (props : List (Property Ty))
    (i j : Option (IndexSignature Ty)) : (ofProps props i).props.map f = (ofProps (props.map f) j).props := by
  have graph : List.Forall₂ (fun p q => f p = q) props (props.map f) :=
    List.forall₂_map_right_iff.2 (List.forall₂_same.2 fun _ _ => rfl)
  have shapes := forall₂_ofProps (fun {p q} (h : f p = q) => h ▸ (keys p).symm) graph (i := i) (j := j)
  rwa [← List.forall₂_map_left_iff, List.forall₂_eq_eq_eq] at shapes

end TypeCalculus.Shape

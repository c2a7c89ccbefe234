import Mathlib.Data.List.Forall2
import TypeCalculus.Proofs.Assignable.FirstOrder
import TypeCalculus.Proofs.Ty.Rebuilt

/-! Assignability is a preorder on the first-order types. Transitivity is proved by induction on the weight of the three
    types together: each rule of `Conforms` leads to lighter triples, in a function with the outer types exchanged.
    A union that is built from the elements of a tuple accepts what its elements accept, although it leaves out literals
    beside their base type (`accepts_unionOf`). -/

namespace TypeCalculus
open Ty

namespace FirstOrder

theorem unionOf {ts : List Ty} (h : ∀ t ∈ ts, FirstOrder t) : FirstOrder (unionOf ts) :=
  ⟨normal_unionOf fun t ht => (h t ht).normal,
    unionOf_forall ⟨rfl, nofun⟩ (fun h _ hm => h.under hm) (fun h => ⟨rfl, h⟩)
      fun t ht => (h t ht).nodes⟩

end FirstOrder

namespace Assignable
variable {a b c : Ty}

/-! ### Unions that are built -/

theorem eq_union_of_isUnion {t : Ty} (h : isUnion t = true) : ∃ ms, t = union ms := by
  cases t <;> first | exact ⟨_, rfl⟩ | cases h

theorem isUnion_of_isUnionMember {t : Ty} (h : t.isUnionMember = true) : isUnion t = false := by
  cases t <;> first | rfl | cases h

/-- Only `any` and `unknown` accept one of them. -/
theorem accepts_any_left (ha : a = any ∨ a = unknown) (hb : FirstOrder b) (h : accepts a b = true) :
    b = any ∨ b = unknown := by
  have fa : FirstOrder a := by rcases ha with rfl | rfl <;> exact .leaf rfl trivial rfl rfl
  have single : isUnion a = false := by rcases ha with rfl | rfl <;> rfl
  have immediate : ∀ {b}, FirstOrder b → isUnion b = false → accepts a b = true → b = any ∨ b = unknown := by
    intro b hb hu h
    rcases (accepts_iff_conforms fa hb single hu).1 h with (rfl | rfl | rfl | rfl) | h
    · rcases ha with h | h <;> cases h
    · exact Or.inl rfl
    · exact Or.inr rfl
    · exact ha
    · rcases ha with rfl | rfl <;> cases h with | object hs => cases hs
  cases hu : isUnion b with
  | false => exact immediate hb hu h
  | true =>
    obtain ⟨ms, rfl⟩ := eq_union_of_isUnion hu
    rcases (accepts_union_right fa hb single).1 h with ⟨m, hm, h⟩ | ⟨rfl, -⟩
    · have member := hb.unionForm.single m hm
      rcases immediate (hb.member hm) (isUnion_of_isUnionMember member) h with rfl | rfl <;> cases member
    · rcases ha with h | h <;> cases h

/-- A literal is assignable to what its base type is assignable to. -/
theorem accepts_literal_of_prim {base : Prim} {text : String} (ha : FirstOrder (literal base text)) (hc : FirstOrder c)
    (h : accepts (prim base) c = true) : accepts (literal base text) c = true := by
  have fp : FirstOrder (prim base) := .leaf rfl trivial rfl rfl
  have single : ∀ {c}, FirstOrder c → isUnion c = false → accepts (prim base) c = true →
      accepts (literal base text) c = true := by
    intro c hc hu h
    refine (accepts_iff_conforms ha hc rfl hu).2 ?_
    rcases (accepts_iff_conforms fp hc rfl hu).1 h with (h | rfl | rfl | rfl) | h
    · cases h
    · simp [Immediate]
    · simp [Immediate]
    · exact Or.inr .literal
    · cases h with
      | undefined => cases ha.node
      | object hs => cases hs
  cases hu : isUnion c with
  | false => exact single hc hu h
  | true =>
    obtain ⟨ms, rfl⟩ := eq_union_of_isUnion hu
    refine (accepts_union_right ha hc rfl).2 (Or.inl ?_)
    rcases (accepts_union_right fp hc rfl).1 h with ⟨m, hm, h⟩ | ⟨hbase, ht, hf⟩
    · exact ⟨m, hm, single (hc.member hm) (isUnion_of_isUnionMember (hc.unionForm.single m hm)) h⟩
    · cases hbase
      obtain ⟨v, hv⟩ := ha.boolean_literal
      have : boolLit v ∈ ms := by cases v <;> assumption
      exact ⟨_, this, hv ▸ accepts_refl ha⟩

theorem accepts_distributes (hc : FirstOrder c) : Distributes FirstOrder (accepts · c = true) where
  present := fun ht he => by cases (he ▸ ht).present
  member := fun ht _ hm => ht.member hm
  never := accepts_of_immediate (.leaf rfl trivial rfl rfl) hc (.inl rfl)
  top := fun ht h hu => by
    rcases accepts_any_left ht hc h with rfl | rfl <;> exact accepts_of_immediate hu hc (by simp [Immediate])
  literal := fun ht h => accepts_literal_of_prim ht hc h
  identical := fun ht hu hi h => ht.eq_of_identical hu hi ▸ h
  union := fun ht => accepts_union_left ht hc

/-- A union is assignable to a type exactly if all the types that it was built from are. -/
theorem accepts_unionOf {ts : List Ty} (hts : ∀ t ∈ ts, FirstOrder t) (hc : FirstOrder c) :
    accepts (unionOf ts) c = true ↔ ∀ t ∈ ts, accepts t c = true :=
  (accepts_distributes hc).unionOf hts (FirstOrder.unionOf hts)

/-! ### Shapes -/

theorem required_of_mem_tupleProps {i : Nat} {elems : List Ty} {p : Property Ty} (h : p ∈ tupleProps i elems) :
    p.optional = false := by
  induction elems generalizing i with
  | nil => rw [List.mem_singleton.1 h]
  | cons t ts ih =>
    rcases List.mem_cons.1 h with rfl | h
    · rfl
    · exact ih h

/-- A type is as light as anything that its shape shows, which is first-order as well. -/
theorem firstOrder_of_apparentShape? {s : Shape} (ha : FirstOrder a) (h : apparentShape? a = some s) :
    Shape.Ascending s.props ∧ ∀ p ∈ s.props, p.optional = false ∧ FirstOrder p.type := by
  cases a with
  | object props index =>
    cases h
    obtain ⟨-, required, ascending⟩ := ha.object
    exact ⟨ascending, required⟩
  | array elem readonly =>
    cases h
    refine ⟨Shape.ascending_ofProps _ _, fun p hp => ?_⟩
    rw [List.mem_singleton.1 (Shape.mem_ofProps hp)]
    exact ⟨rfl, .number⟩
  | tuple elems =>
    cases h
    refine ⟨Shape.ascending_ofProps _ _, fun p hp => ⟨?_, ?_⟩⟩
    · exact required_of_mem_tupleProps (Shape.mem_ofProps hp)
    · rcases mem_tupleProps (Shape.mem_ofProps hp) with hm | ⟨n, hn⟩
      · exact ha.part hm
      · rw [hn]
        exact .natLit n
  | function | reference =>
    cases h
    exact ⟨List.Pairwise.nil, nofun⟩
  | _ => cases h

/-- Properties of one key, with the same flags and related types. -/
structure Related (R : Ty → Ty → Prop) (p q : Property Ty) : Prop where
  key : p.key = q.key
  optional : p.optional = q.optional
  readonly : p.readonly = q.readonly
  type : R p.type q.type

theorem related_tupleProps {R : Ty → Ty → Prop} (hR : ∀ n, R (natLit n) (natLit n)) {xs ys : List Ty}
    (h : List.Forall₂ R xs ys) (i : Nat) : List.Forall₂ (Related R) (tupleProps i xs) (tupleProps i ys) := by
  induction h generalizing i with
  | nil => exact .cons ⟨rfl, rfl, rfl, hR i⟩ .nil
  | cons hxy _ ih => exact .cons ⟨rfl, rfl, rfl, hxy⟩ (ih (i + 1))

theorem find?_of_related {R : Ty → Ty → Prop} {ps qs : List (Property Ty)} (h : List.Forall₂ (Related R) ps qs)
    (ascending : Shape.Ascending ps) {key : String} {q : Property Ty} (hq : Shape.find? qs key = some q) :
    ∃ p, Shape.find? ps key = some p ∧ Related R p q := by
  obtain ⟨i, hi⟩ := List.mem_iff_getElem?.1 (Shape.mem_of_find? hq)
  obtain ⟨hlt, rfl⟩ := List.getElem?_eq_some_iff.1 hi
  have related := (List.forall₂_iff_get.1 h).2 i (h.length_eq ▸ hlt) hlt
  refine ⟨_, ?_, related⟩
  rw [← Shape.key_of_find? hq]
  exact related.key ▸ Shape.find?_of_mem ascending (List.get_mem _ _)

/-- The length of a tuple is put in after its positions, so nothing hides it. -/
theorem find?_length_tupleProps (i : Nat) (xs : List Ty) (index : Option (IndexSignature Ty)) :
    Shape.find? (Shape.ofProps (tupleProps i xs) index).props lengthKey =
      some ⟨lengthKey, natLit (i + xs.length), false, false⟩ := by
  have last : ∀ i, ∃ init, tupleProps i xs = init ++ [⟨lengthKey, natLit (i + xs.length), false, false⟩] := by
    induction xs with
    | nil => exact fun i => ⟨[], rfl⟩
    | cons x xs ih =>
      intro i
      obtain ⟨init, h⟩ := ih (i + 1)
      have : i + 1 + xs.length = i + (xs.length + 1) := by omega
      exact ⟨_ :: init, by rw [tupleProps, h, this]; rfl⟩
  obtain ⟨init, h⟩ := last i
  rw [h]
  exact Shape.find?_of_mem (Shape.ascending_ofProps _ _) (Shape.mem_ofProps_last init _ index)

/-! ### Transitivity -/

theorem weight_lt_of_part {t u : Ty} (h : FirstOrder t) (hu : u ∈ t.parts) : u.weight < t.weight := by
  have node := h.node
  cases t with
  | object props index =>
    obtain ⟨rfl, -⟩ := h.object
    obtain ⟨p, hp, rfl⟩ := List.mem_map.1 (by simpa [parts] using hu)
    have := weight_le_of_mem_props hp
    rw [weight_object]
    omega
  | array elem =>
    rw [List.mem_singleton.1 hu, weight]
    omega
  | tuple ts | union ts | reference _ ts =>
    have : u.weight < weightAll ts := weight_lt_of_mem hu
    rw [weight]
    omega
  | function params result =>
    rw [weight]
    rcases List.mem_append.1 hu with hu | hu
    · have := weight_lt_of_mem hu
      omega
    · rw [List.mem_singleton.1 hu]
      omega
  | any | unknown | void | never | prim | literal => cases hu
  | _ => cases node

/-- Assignability is transitive for three types, as far as it is for lighter ones. -/
def TransitiveBelow (n : Nat) : Prop :=
  ∀ {x y z : Ty}, FirstOrder x → FirstOrder y → FirstOrder z → x.weight + y.weight + z.weight < n →
    accepts x y = true → accepts y z = true → accepts x z = true

theorem Pointwise.trans {R S T : Ty → Ty → Prop} {xs ys zs : List Ty} (hl : xs.length ≤ ys.length)
    (h : ∀ x ∈ xs, ∀ y ∈ ys, ∀ z ∈ zs, R x y → S y z → T x z) (hxy : Pointwise R xs ys) (hyz : Pointwise S ys zs) :
    Pointwise T xs zs := by
  intro i x z hx hz
  have hi : i < ys.length := Nat.lt_of_lt_of_le (List.getElem?_eq_some_iff.1 hx).1 hl
  have hy := List.getElem?_eq_getElem hi
  exact h x (List.mem_of_getElem? hx) _ (List.mem_of_getElem? hy) z (List.mem_of_getElem? hz) (hxy i x _ hx hy)
    (hyz i _ z hy hz)

theorem Pointwise.forall₂ {R : Ty → Ty → Prop} {xs ys : List Ty} (hl : xs.length = ys.length) (h : Pointwise R xs ys) :
    List.Forall₂ R xs ys :=
  List.forall₂_iff_get.2 ⟨hl, fun i hx hy => h i _ _ (List.getElem?_eq_getElem hx) (List.getElem?_eq_getElem hy)⟩

/-- A type that conforms to another shows at least what the other shows. -/
theorem provides_of_conforms {s : Shape} (ha : FirstOrder a) (hb : FirstOrder b) (h : Conforms a b)
    (hs : apparentShape? b = some s) : ∃ s', apparentShape? a = some s' ∧ ∀ got ∈ s.props, Provides s' got := by
  cases h with
  | undefined | literal => cases hs
  | @array x _ readonly _ hr =>
    cases hs
    refine ⟨_, rfl, fun got hg => ?_⟩
    rw [List.mem_singleton.1 (Shape.mem_ofProps hg)]
    have found := Shape.find?_of_mem (Shape.ascending_ofProps [⟨lengthKey, Ty.number, false, readonly⟩] none)
      (Shape.mem_ofProps_last [] _ none)
    exact ⟨_, found, rfl, hr, accepts_refl .number⟩
  | @elements xs =>
    cases hs
    refine ⟨_, rfl, fun got hg => ?_⟩
    rw [List.mem_singleton.1 (Shape.mem_ofProps hg)]
    refine ⟨_, find?_length_tupleProps 0 xs _, rfl, nofun, ?_⟩
    exact (accepts_iff_conforms (.natLit _) .number rfl rfl).2 (Or.inr .literal)
  | @tuple xs ys hl hp =>
    cases hs
    have elems := related_tupleProps (fun n => accepts_refl (.natLit n)) (hp.forall₂ hl) 0
    have related := Shape.forall₂_ofProps Related.key elems (i := some ⟨.number, unionOf xs⟩) (j := some ⟨.number, unionOf ys⟩)
    have hsa := firstOrder_of_apparentShape? ha rfl
    have hsb := firstOrder_of_apparentShape? hb rfl
    refine ⟨_, rfl, fun got hg => ?_⟩
    obtain ⟨got', hg', hr⟩ := find?_of_related related hsa.1 (Shape.find?_of_mem hsb.1 hg)
    exact ⟨got', hg', hr.optional.trans (hsb.2 got hg).1, fun h => hr.readonly ▸ h, hr.type⟩
  | reference | function =>
    cases hs
    exact ⟨_, rfl, nofun⟩
  | object hs' h =>
    cases hs
    exact ⟨_, hs', h⟩

section Conforms
variable (ha : FirstOrder a) (hb : FirstOrder b) (hc : FirstOrder c)
  (ih : TransitiveBelow (a.weight + b.weight + c.weight))
include ha hb hc ih

/-- Parts of three types are lighter together. -/
theorem trans_parts {x y z : Ty} (hx : x ∈ a.parts) (hy : y ∈ b.parts) (hz : z ∈ c.parts) :
    (accepts x y = true → accepts y z = true → accepts x z = true) ∧
      (accepts z y = true → accepts y x = true → accepts z x = true) := by
  have := weight_lt_of_part ha hx
  have := weight_lt_of_part hb hy
  have := weight_lt_of_part hc hz
  exact ⟨ih (ha.part hx) (hb.part hy) (hc.part hz) (by omega), ih (hc.part hz) (hb.part hy) (ha.part hx) (by omega)⟩

theorem provides_trans {s s' : Shape} (hs : apparentShape? b = some s) (hs' : apparentShape? a = some s')
    {want : Property Ty} (hw : want.type ∈ c.parts) (h : Provides s want) (h' : ∀ got ∈ s.props, Provides s' got) :
    Provides s' want := by
  obtain ⟨got, hg, -, hr, ht⟩ := h
  have hm := Shape.mem_of_find? hg
  obtain ⟨got', hg', ho', hr', ht'⟩ := h' got hm
  refine ⟨got', Shape.key_of_find? hg ▸ hg', ho', hr ∘ hr', ?_⟩
  have := (weight_le_of_apparentShape? hs).1 got hm
  have := (weight_le_of_apparentShape? hs').1 got' (Shape.mem_of_find? hg')
  have := weight_lt_of_part hc hw
  exact ih ((firstOrder_of_apparentShape? ha hs').2 got' (Shape.mem_of_find? hg')).2
    ((firstOrder_of_apparentShape? hb hs).2 got hm).2 (hc.part hw) (by omega) ht' ht

theorem conforms_trans (hab : Conforms a b) (hbc : Conforms b c) : Conforms a c := by
  cases hbc with
  | undefined =>
    cases hab with
    | literal => cases ha.node
  | literal => cases hab
  | @array y z readonly' _ hr h =>
    have lighter := weight_lt_of_part hb List.mem_cons_self
    have lighter' := weight_lt_of_part hc List.mem_cons_self
    cases hab with
    | @array x _ readonly _ hr' h' =>
      exact .array (hr ∘ hr') ((trans_parts ha hb hc ih List.mem_cons_self List.mem_cons_self List.mem_cons_self).1 h' h)
    | @elements xs _ _ h' =>
      have elems : ∀ x ∈ xs, FirstOrder x := fun x hx => ha.part hx
      refine .elements ((accepts_unionOf elems (hc.part List.mem_cons_self)).2 fun x hx => ?_)
      have := (accepts_unionOf elems (hb.part List.mem_cons_self)).1 h' x hx
      exact (trans_parts ha hb hc ih hx List.mem_cons_self List.mem_cons_self).1 this h
  | @elements ys z _ h =>
    cases hab with
    | @tuple xs _ hl hp =>
      refine .elements ((accepts_unionOf (fun x hx => ha.part hx) (hc.part List.mem_cons_self)).2 fun x hx => ?_)
      obtain ⟨i, hi⟩ := List.mem_iff_getElem?.1 hx
      have hlt : i < ys.length := hl ▸ (List.getElem?_eq_some_iff.1 hi).1
      have hy := List.getElem?_eq_getElem hlt
      have := (accepts_unionOf (fun y hy => hb.part hy) (hc.part List.mem_cons_self)).1 h _ (List.mem_of_getElem? hy)
      exact (trans_parts ha hb hc ih hx (List.mem_of_getElem? hy) List.mem_cons_self).1 (hp i x _ hi hy) this
  | tuple hl hp =>
    cases hab with
    | tuple hl' hp' =>
      exact .tuple (hl'.trans hl) (hp'.trans (Nat.le_of_eq hl') (fun x hx y hy z hz => (trans_parts ha hb hc ih hx hy hz).1) hp)
  | reference hl hp =>
    cases hab with
    | reference hl' hp' =>
      exact .reference (hl'.trans hl) (hp'.trans (Nat.le_of_eq hl') (fun x hx y hy z hz => (trans_parts ha hb hc ih hx hy hz).1) hp)
  | function hl hp h =>
    cases hab with
    | function hl' hp' h' =>
      have params : ∀ {ts : List Ty} {t u : Ty}, u ∈ ts → u ∈ (Ty.function ts t).parts := List.mem_append_left _
      have result : ∀ {ts : List Ty} {t : Ty}, t ∈ (Ty.function ts t).parts := List.mem_append_right _ List.mem_cons_self
      refine .function (Nat.le_trans hl' hl) (hp'.trans hl' (fun x hx y hy z hz hxy hyz => ?_) hp) ?_
      · exact (trans_parts ha hb hc ih (params hx) (params hy) (params hz)).2 hyz hxy
      · exact (trans_parts ha hb hc ih result result result).1 h' h
  | object hs h =>
    obtain ⟨s', hs', h'⟩ := provides_of_conforms ha hb hab hs
    refine .object hs' fun want hw => ?_
    exact provides_trans ha hb hc ih hs hs' (List.mem_append_left _ (List.mem_map_of_mem hw)) (h want hw) h'

end Conforms

/-- `boolean` is assignable to what both its literals are assignable to. -/
theorem accepts_boolean (hc : FirstOrder c) (ht : accepts (boolLit true) c = true) (hf : accepts (boolLit false) c = true) :
    accepts Ty.boolean c = true := by
  have single : ∀ {v c}, FirstOrder c → isUnion c = false → accepts (boolLit v) c = true →
      c = boolLit v ∨ accepts Ty.boolean c = true := by
    intro v c hc hu h
    rcases (accepts_iff_conforms (.boolLit v) hc rfl hu).1 h with (h | rfl | rfl | rfl) | h
    · cases h
    · exact Or.inr (accepts_of_immediate .boolean hc (by simp [Immediate]))
    · exact Or.inr (accepts_of_immediate .boolean hc (by simp [Immediate]))
    · exact Or.inl rfl
    · cases h with
      | literal => exact Or.inr (accepts_refl .boolean)
      | object hs => cases hs
  cases hu : isUnion c with
  | false =>
    rcases single hc hu ht with rfl | h
    · rcases single hc hu hf with h | h
      · simp [boolLit] at h
      · exact h
    · exact h
  | true =>
    obtain ⟨ms, rfl⟩ := eq_union_of_isUnion hu
    have member : ∀ {v}, accepts (boolLit v) (union ms) = true → boolLit v ∈ ms ∨ ∃ m ∈ ms, accepts Ty.boolean m = true := by
      intro v h
      rcases (accepts_union_right (.boolLit v) hc rfl).1 h with ⟨m, hm, h⟩ | ⟨h, -⟩
      · rcases single (hc.member hm) (isUnion_of_isUnionMember (hc.unionForm.single m hm)) h with rfl | h
        · exact Or.inl hm
        · exact Or.inr ⟨m, hm, h⟩
      · cases h
    refine (accepts_union_right .boolean hc rfl).2 ?_
    rcases member ht with ht | h
    · rcases member hf with hf | h
      · exact Or.inr ⟨rfl, ht, hf⟩
      · exact Or.inl h
    · exact Or.inl h

theorem accepts_trans_single (ha : FirstOrder a) (hb : FirstOrder b) (hc : FirstOrder c)
    (ih : TransitiveBelow (a.weight + b.weight + c.weight)) (hua : isUnion a = false) (hub : isUnion b = false)
    (huc : isUnion c = false) (hab : accepts a b = true) (hbc : accepts b c = true) : accepts a c = true := by
  rcases (accepts_iff_conforms ha hb hua hub).1 hab with (rfl | hb' | hb' | rfl) | conforms
  · exact accepts_of_immediate ha hc (Or.inl rfl)
  · rcases accepts_any_left (Or.inl hb') hc hbc with rfl | rfl <;> exact accepts_of_immediate ha hc (by simp [Immediate])
  · rcases accepts_any_left (Or.inr hb') hc hbc with rfl | rfl <;> exact accepts_of_immediate ha hc (by simp [Immediate])
  · exact hbc
  · refine (accepts_iff_conforms ha hc hua huc).2 ?_
    rcases (accepts_iff_conforms hb hc hub huc).1 hbc with (rfl | rfl | rfl | rfl) | conforms'
    · cases conforms
    · simp [Immediate]
    · simp [Immediate]
    · exact Or.inr conforms
    · exact Or.inr (conforms_trans ha hb hc ih conforms conforms')

theorem accepts_trans_of_below (ha : FirstOrder a) (hb : FirstOrder b) (hc : FirstOrder c)
    (ih : TransitiveBelow (a.weight + b.weight + c.weight)) (hab : accepts a b = true) (hbc : accepts b c = true) :
    accepts a c = true := by
  cases hua : isUnion a with
  | true =>
    obtain ⟨ms, rfl⟩ := eq_union_of_isUnion hua
    refine (accepts_union_left ha hc).2 fun m hm => ?_
    have := weight_lt_of_part ha hm
    exact ih (ha.member hm) hb hc (by omega) ((accepts_union_left ha hb).1 hab m hm) hbc
  | false =>
    cases hub : isUnion b with
    | true =>
      obtain ⟨ms, rfl⟩ := eq_union_of_isUnion hub
      have members := (accepts_union_left hb hc).1 hbc
      rcases (accepts_union_right ha hb hua).1 hab with ⟨m, hm, h⟩ | ⟨rfl, ht, hf⟩
      · have := weight_lt_of_part hb hm
        exact ih ha (hb.member hm) hc (by omega) h (members m hm)
      · exact accepts_boolean hc (members _ ht) (members _ hf)
    | false =>
      cases huc : isUnion c with
      | false => exact accepts_trans_single ha hb hc ih hua hub huc hab hbc
      | true =>
        obtain ⟨ms, rfl⟩ := eq_union_of_isUnion huc
        rcases (accepts_union_right hb hc hub).1 hbc with ⟨m, hm, h⟩ | ⟨rfl, ht, hf⟩
        · have := weight_lt_of_part hc hm
          exact (accepts_union_right ha hc hua).2 (Or.inl ⟨m, hm, ih ha hb (hc.member hm) (by omega) hab h⟩)
        · -- A type below `boolean` is one of its literals, `boolean` itself or `never`.
          rcases (accepts_iff_conforms ha hb hua hub).1 hab with (rfl | h | h | rfl) | h
          · exact accepts_of_immediate ha hc (Or.inl rfl)
          · cases h
          · cases h
          · exact hbc
          · cases h with
            | literal => exact accepts_literal_of_prim ha hc hbc

theorem accepts_trans (ha : FirstOrder a) (hb : FirstOrder b) (hc : FirstOrder c) (hab : accepts a b = true)
    (hbc : accepts b c = true) : accepts a c = true := by
  have below : ∀ n, TransitiveBelow n := by
    intro n
    induction n with
    | zero => exact fun _ _ _ h => absurd h (Nat.not_lt_zero _)
    | succ n ih =>
      intro x y z hx hy hz hn hxy hyz
      refine accepts_trans_of_below hx hy hz (fun hx' hy' hz' hn' => ih hx' hy' hz' (by omega)) hxy hyz
  exact below _ ha hb hc (Nat.lt_succ_self _) hab hbc

/-- On first-order types assignability is a preorder: under every limit that cuts off none of the comparisons in question,
    a type is assignable to itself, and assignability is transitive. -/
theorem assignable_preorder {a b c : Ty} (ha : FirstOrder a) (hb : FirstOrder b) (hc : FirstOrder c) (d : Nat) :
    ((run ⟨d, false⟩ a a).2.clipped = false → (run ⟨d, false⟩ a a).1 = true) ∧
    ((run ⟨d, false⟩ a b).2.clipped = false → (run ⟨d, false⟩ b c).2.clipped = false →
      (run ⟨d, false⟩ a c).2.clipped = false →
      (run ⟨d, false⟩ a b).1 = true → (run ⟨d, false⟩ b c).1 = true → (run ⟨d, false⟩ a c).1 = true) := by
  refine ⟨fun h => ?_, fun hab hbc hac => ?_⟩
  · rw [accepts_of_uncut h]
    exact accepts_refl ha
  · rw [accepts_of_uncut hab, accepts_of_uncut hbc, accepts_of_uncut hac]
    exact accepts_trans ha hb hc

/-- A tuple is assignable to an array, and the array to a readonly one of anything. -/
theorem assignable_preorder_tuple :
    let a := Ty.tuple [.string, .stringLit "x"]
    let b := Ty.array .string false
    let c := Ty.array .unknown true
    (run ⟨30, false⟩ a a).1 = true ∧ (run ⟨30, false⟩ a b).1 = true ∧ (run ⟨30, false⟩ b c).1 = true ∧
      (run ⟨30, false⟩ a c).1 = true := by
  intro a b c
  have text : FirstOrder Ty.string := .leaf rfl trivial rfl rfl
  have top : FirstOrder Ty.unknown := .leaf rfl trivial rfl rfl
  have ha : FirstOrder a := by
    refine ⟨⟨trivial, ?_⟩, rfl, ?_⟩ <;> refine List.forall_mem_cons.2 ⟨?_, List.forall_mem_singleton.2 ?_⟩
    · exact text.normal
    · exact normal_literal _ _
    · exact text.nodes
    · exact ⟨rfl, nofun⟩
  have hb : FirstOrder b := ⟨.single trivial rfl text.normal, rfl, List.forall_mem_singleton.2 text.nodes⟩
  have hc : FirstOrder c := ⟨.single trivial rfl top.normal, rfl, List.forall_mem_singleton.2 top.nodes⟩
  obtain ⟨reflexive, transitive⟩ := assignable_preorder ha hb hc 30
  have uncut : ∀ {x y : Ty}, x.weight + y.weight ≤ 30 → (run ⟨30, false⟩ x y).2.clipped = false :=
    fun h => relate_uncut _ h {} rfl
  have hab : (run ⟨30, false⟩ a b).1 = true := by cbv
  have hbc : (run ⟨30, false⟩ b c).1 = true := by cbv
  exact ⟨reflexive (uncut (by decide)), hab, hbc,
    transitive (uncut (by decide)) (uncut (by decide)) (uncut (by decide)) hab hbc⟩

end Assignable
end TypeCalculus

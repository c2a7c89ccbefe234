import TypeCalculus.Proofs.Ty.Alike
import TypeCalculus.Proofs.Ty.Rebuilt

/-! What the union of types has as its members depends on what the types have: `any` and `unknown` absorb the rest, a
    literal goes where its base type is, and `never` is left only where nothing else is (`has_unionOf`). So it does not
    matter how types are grouped before they are united (`leaves_grouped`). Members count up to identity. Conditionals are
    united without loss (`united_cases`). -/

namespace TypeCalculus.Ty

/-- The type, seen as a union, has a member identical to the other type. -/
def Has (t u : Ty) : Prop := ∃ v ∈ t.unionMembers, v.identical u = true

/-- The types have the same members. -/
def SameMembers (a b : Ty) : Prop := ∀ u, a.Has u ↔ b.Has u

/-- One of the types has the member. -/
def SomeHas (ts : List Ty) (u : Ty) : Prop := ∃ t ∈ ts, t.Has u

/-- What is left of some members once they are united. -/
inductive Leaves (S : Ty → Prop) : Ty → Prop
  | any : S any → Leaves S any
  | unknown : ¬S any → S unknown → Leaves S unknown
  | member {u : Ty} : ¬S .any → ¬S .unknown → S u → u ≠ never → (∀ base text, u = literal base text → ¬S (prim base)) →
      Leaves S u
  | never : (∀ v, S v → v = never) → Leaves S never

/-! ### Members -/

theorem has_iff (t u : Ty) : t.Has u ↔ u.erased ∈ t.erased.unionMembers := by
  rw [erased, unionMembers_annotated, annotatedAll_eq, List.mem_map]
  exact exists_congr fun v => and_congr_right fun _ => identical_iff v u

/-- Identical types have the same members. -/
theorem has_of_identical {t t' : Ty} (h : t.identical t' = true) (u : Ty) : t.Has u ↔ t'.Has u := by
  rw [has_iff, has_iff, (identical_iff t t').1 h]

theorem someHas_iff {ts : List Ty} {u : Ty} : SomeHas ts u ↔ ∃ v ∈ unionMembersAll ts, v.identical u = true := by
  constructor
  · rintro ⟨t, ht, v, hv, hi⟩
    exact ⟨v, unionMembers_subset ht hv, hi⟩
  · rintro ⟨v, hv, hi⟩
    obtain ⟨t, ht, hv⟩ := mem_unionMembersAll hv
    exact ⟨t, ht, v, hv, hi⟩

/-- Having a type without parts as a member is having just that type. -/
theorem someHas_atom {ts : List Ty} {u : Ty} (hu : u.isAtom = true) : SomeHas ts u ↔ u ∈ unionMembersAll ts := by
  rw [someHas_iff]
  constructor
  · rintro ⟨v, hv, hi⟩
    exact eq_of_identical_atom hu hi ▸ hv
  · exact fun h => ⟨u, h, identical_refl u⟩

theorem has_atom {t u : Ty} (ht : t.isAtom = true) : t.Has u ↔ u = t := by
  have self : t.unionMembers = [t] := by
    cases t with
    | any | unknown | void | never | prim | literal => rfl
    | _ => cases ht
  rw [Has, self]
  constructor
  · rintro ⟨v, hv, hi⟩
    rw [List.mem_singleton.1 hv] at hi
    exact eq_of_identical_atom ht (identical_symm hi)
  · rintro rfl
    exact ⟨u, List.mem_singleton_self u, identical_refl u⟩

/-! ### What is left -/

section Leaves
variable {S : Ty → Prop} {u : Ty}

theorem leaves_congr {T : Ty → Prop} (h : ∀ v, S v ↔ T v) : Leaves S u ↔ Leaves T u := by
  rw [funext fun v => propext (h v)]

theorem leaves_any (h : S any) : Leaves S u ↔ u = any := by
  constructor
  · intro hu
    cases hu with
    | any => rfl
    | unknown ha _ => exact absurd h ha
    | member ha => exact absurd h ha
    | never hn => cases hn _ h
  · rintro rfl
    exact .any h

theorem leaves_unknown (ha : ¬S any) (h : S unknown) : Leaves S u ↔ u = unknown := by
  constructor
  · intro hu
    cases hu with
    | any h => exact absurd h ha
    | unknown => rfl
    | member _ hk => exact absurd h hk
    | never hn => cases hn _ h
  · rintro rfl
    exact .unknown ha h

end Leaves

/-! ### Members of a union -/

theorem isRedundantIn_iff {ts : List Ty} {t : Ty} :
    isRedundantIn ts t = true ↔ t = never ∨ ∃ base text, t = literal base text ∧ prim base ∈ ts := by
  cases t with
  | never => exact ⟨fun _ => .inl rfl, fun _ => rfl⟩
  | literal base text =>
    constructor
    · intro h
      obtain ⟨v, hv, he⟩ := List.any_eq_true.1 h
      cases v with
      | prim q => exact .inr ⟨base, text, rfl, eq_of_beq he ▸ hv⟩
      | _ => cases he
    · rintro (⟨⟨⟩⟩ | ⟨_, _, ⟨⟩, hp⟩)
      exact List.any_eq_true.2 ⟨_, hp, beq_self_eq_true base⟩
  | _ =>
    constructor
    · rintro ⟨⟩
    · rintro (⟨⟨⟩⟩ | ⟨_, _, ⟨⟩, _⟩)

theorem not_redundant_of_kept {ts : List Ty} {v : Ty} (h : v ∈ keptMembers ts) : ¬isRedundantIn (unionMembersAll ts) v = true := by
  have := (List.mem_filter.1 ((distinct_sublist _ _).subset h)).2
  rwa [Bool.not_eq_true', ← Bool.not_eq_true] at this

section Union
variable {ts : List Ty} {u : Ty}

/-- A member that is left is identical to one that is kept. -/
theorem leaves_of_kept (ha : any ∉ unionMembersAll ts) (hk : unknown ∉ unionMembersAll ts) {v : Ty} (hv : v ∈ keptMembers ts)
    (hi : v.identical u = true) : Leaves (SomeHas ts) u := by
  have needed := not_redundant_of_kept hv
  rw [isRedundantIn_iff, not_or] at needed
  refine .member (mt (someHas_atom rfl).1 ha) (mt (someHas_atom rfl).1 hk)
    (someHas_iff.2 ⟨v, mem_of_keptMembers hv, hi⟩) ?_ ?_
  · rintro rfl
    exact needed.1 (eq_of_identical_atom rfl hi)
  · rintro base text rfl hp
    exact needed.2 ⟨base, text, eq_of_identical_atom rfl hi, (someHas_atom rfl).1 hp⟩

theorem kept_of_leaves (ha : any ∉ unionMembersAll ts) (hk : unknown ∉ unionMembersAll ts) (h : Leaves (SomeHas ts) u) :
    (∃ v ∈ keptMembers ts, v.identical u = true) ∨ keptMembers ts = [] ∧ u = never := by
  cases h with
  | any h => exact absurd ((someHas_atom rfl).1 h) ha
  | unknown _ h => exact absurd ((someHas_atom rfl).1 h) hk
  | member _ _ hu hn hb =>
    obtain ⟨w, hw, hi⟩ := someHas_iff.1 hu
    have needed : ¬isRedundantIn (unionMembersAll ts) w = true := by
      rw [isRedundantIn_iff, not_or]
      refine ⟨?_, ?_⟩
      · rintro rfl
        exact hn (eq_of_identical_atom rfl (identical_symm hi))
      · rintro ⟨base, text, rfl, hp⟩
        exact hb base text (eq_of_identical_atom rfl (identical_symm hi)) ((someHas_atom rfl).2 hp)
    obtain ⟨v, hv, hi'⟩ := identical_mem_keptMembers hw (Bool.eq_false_iff.2 needed)
    exact .inl ⟨v, hv, identical_trans hi' hi⟩
  | never hn =>
    refine .inr ⟨List.eq_nil_iff_forall_not_mem.2 fun v hv => not_redundant_of_kept hv ?_, rfl⟩
    exact isRedundantIn_iff.2 (.inl (hn v (someHas_iff.2 ⟨v, mem_of_keptMembers hv, identical_refl v⟩)))

/-- Where nothing is kept, there was nothing but `never`. -/
theorem leaves_never_of_kept (h : keptMembers ts = []) : Leaves (SomeHas ts) never := by
  have redundant : ∀ w ∈ unionMembersAll ts, isRedundantIn (unionMembersAll ts) w = true := by
    intro w hw
    by_contra hr
    obtain ⟨v, hv, -⟩ := identical_mem_keptMembers hw (Bool.eq_false_iff.2 hr)
    rw [h] at hv
    cases hv
  refine .never fun v hv => ?_
  obtain ⟨w, hw, hi⟩ := someHas_iff.1 hv
  rcases isRedundantIn_iff.1 (redundant w hw) with rfl | ⟨base, text, rfl, hp⟩
  · exact eq_of_identical_atom rfl (identical_symm hi)
  · rcases isRedundantIn_iff.1 (redundant _ hp) with ⟨⟨⟩⟩ | ⟨_, _, ⟨⟩, _⟩

theorem unionOf_any (h : any ∈ unionMembersAll ts) : unionOf ts = any := by
  unfold unionOf
  exact if_pos (List.any_eq_true.2 ⟨any, h, rfl⟩)

theorem unionOf_unknown (ha : any ∉ unionMembersAll ts) (h : unknown ∈ unionMembersAll ts) : unionOf ts = unknown := by
  rcases unionOf_cases ts with ⟨h', -⟩ | ⟨-, he⟩ | ⟨-, hk, -⟩
  · exact absurd h' ha
  · exact he
  · exact absurd h hk

/-- Where nothing absorbs the rest, the union is made of the members that are kept. -/
theorem unionMembers_kept (ha : any ∉ unionMembersAll ts) (hk : unknown ∉ unionMembersAll ts) :
    keptMembers ts = [] ∧ unionOf ts = never ∨ keptMembers ts ≠ [] ∧ (unionOf ts).unionMembers.Perm (keptMembers ts) := by
  have noAny : ¬(unionMembersAll ts).any isAny = true := by
    rw [List.any_eq_true]
    rintro ⟨v, hv, he⟩
    cases v with
    | any => exact ha hv
    | _ => cases he
  have noUnknown : ¬(unionMembersAll ts).any isUnknown = true := by
    rw [List.any_eq_true]
    rintro ⟨v, hv, he⟩
    cases v with
    | unknown => exact hk hv
    | _ => cases he
  have single : ∀ v ∈ keptMembers ts, v.isUnionMember = true := fun v hv =>
    isUnionMember_of_kept (Bool.eq_false_iff.2 noAny) (Bool.eq_false_iff.2 noUnknown) (mem_of_keptMembers hv)
      (Bool.eq_false_iff.2 (not_redundant_of_kept hv))
  have present : absent ∉ keptMembers ts := by
    intro hv
    obtain ⟨t, -, ht⟩ := mem_unionMembersAll (mem_of_keptMembers hv)
    exact absent_not_mem_unionMembers t ht
  have whole : keptMembers ts = [] ∧ unionOf ts = never ∨ (∃ t, keptMembers ts = [t] ∧ unionOf ts = t) ∨
      keptMembers ts ≠ [] ∧ unionOf ts = union (sortByText (keptMembers ts)) := by
    unfold unionOf
    dsimp only
    rw [if_neg noAny, if_neg noUnknown]
    split
    · exact .inl ⟨‹_›, rfl⟩
    · exact .inr (.inl ⟨_, ‹_›, rfl⟩)
    · rename_i some _
      exact .inr (.inr ⟨some, rfl⟩)
  rcases whole with nothing | ⟨t, hkept, he⟩ | ⟨some, he⟩
  · exact .inl nothing
  · rw [hkept] at single present
    refine .inr ⟨by rw [hkept]; exact List.cons_ne_nil _ _, ?_⟩
    have all := unionMembersAll_self single present
    rw [unionMembersAll, unionMembersAll, List.append_nil] at all
    rw [he, hkept, all]
  · refine .inr ⟨some, ?_⟩
    rw [he, unionMembers, unionMembersAll_self (fun v hv => single v (mem_sortByText.1 hv)) (mt mem_sortByText.1 present)]
    exact sortByText_perm _

/-- The members of the union of some types are what is left of the members of the types. -/
theorem has_unionOf : (unionOf ts).Has u ↔ Leaves (SomeHas ts) u := by
  by_cases ha : any ∈ unionMembersAll ts
  · rw [unionOf_any ha, has_atom rfl, leaves_any ((someHas_atom rfl).2 ha)]
  by_cases hk : unknown ∈ unionMembersAll ts
  · rw [unionOf_unknown ha hk, has_atom rfl, leaves_unknown (mt (someHas_atom rfl).1 ha) ((someHas_atom rfl).2 hk)]
  rcases unionMembers_kept ha hk with ⟨hnil, he⟩ | ⟨hsome, perm⟩
  · rw [he, has_atom rfl]
    constructor
    · rintro rfl
      exact leaves_never_of_kept hnil
    · intro h
      rcases kept_of_leaves ha hk h with ⟨v, hv, -⟩ | ⟨-, hu⟩
      · rw [hnil] at hv
        cases hv
      · exact hu
  · constructor
    · rintro ⟨v, hv, hi⟩
      exact leaves_of_kept ha hk (perm.mem_iff.1 hv) hi
    · intro h
      rcases kept_of_leaves ha hk h with ⟨v, hv, hi⟩ | ⟨hnil, -⟩
      · exact ⟨v, perm.mem_iff.2 hv, hi⟩
      · exact absurd hnil hsome

theorem sameMembers_unionOf {us : List Ty} (h : ∀ u, SomeHas ts u ↔ SomeHas us u) : SameMembers (unionOf ts) (unionOf us) := by
  intro u
  rw [has_unionOf, has_unionOf, leaves_congr h]

end Union

/-! ### Unions of unions -/

section Grouped
variable {S : Ty → Prop} {u : Ty}

/-- What is left was there, but for `never`. -/
theorem Leaves.source (h : Leaves S u) (hu : u ≠ .never) : S u := by
  cases h with
  | any h | unknown _ h | member _ _ h => exact h
  | never => exact absurd rfl hu

/-- What is there is left, unless it is absorbed or covered. -/
theorem leaves_prim (ha : ¬S any) (hk : ¬S unknown) {base : Prim} (h : S (prim base)) : Leaves S (prim base) :=
  .member ha hk h nofun nofun

/-- It does not matter whether members are united in groups first. -/
theorem leaves_grouped {ι : Type} {p : ι → Prop} {S : ι → Ty → Prop} :
    Leaves (fun u => ∃ i, p i ∧ Leaves (S i) u) u ↔ Leaves (fun u => ∃ i, p i ∧ S i u) u := by
  by_cases ha : ∃ i, p i ∧ S i any
  · obtain ⟨i, hi, h⟩ := ha
    rw [leaves_any ⟨i, hi, .any h⟩, leaves_any ⟨i, hi, h⟩]
  have noAny : ¬∃ i, p i ∧ Leaves (S i) any := fun ⟨i, hi, h⟩ => ha ⟨i, hi, h.source nofun⟩
  have none : ∀ {i}, p i → ¬S i any := fun hi h => ha ⟨_, hi, h⟩
  by_cases hk : ∃ i, p i ∧ S i unknown
  · obtain ⟨i, hi, h⟩ := hk
    rw [leaves_unknown noAny ⟨i, hi, .unknown (none hi) h⟩, leaves_unknown ha ⟨i, hi, h⟩]
  have noUnknown : ¬∃ i, p i ∧ Leaves (S i) unknown := fun ⟨i, hi, h⟩ => hk ⟨i, hi, h.source nofun⟩
  have none' : ∀ {i}, p i → ¬S i unknown := fun hi h => hk ⟨_, hi, h⟩
  have prims : ∀ base, (∃ i, p i ∧ Leaves (S i) (prim base)) ↔ ∃ i, p i ∧ S i (prim base) := fun base =>
    ⟨fun ⟨i, hi, h⟩ => ⟨i, hi, h.source nofun⟩, fun ⟨i, hi, h⟩ => ⟨i, hi, leaves_prim (none hi) (none' hi) h⟩⟩
  constructor
  · intro h
    cases h with
    | any h => exact absurd h noAny
    | unknown _ h => exact absurd h noUnknown
    | member _ _ h hn hb =>
      obtain ⟨i, hi, h⟩ := h
      exact .member ha hk ⟨i, hi, h.source hn⟩ hn fun base text he hp => hb base text he ((prims base).2 hp)
    | never hn =>
      refine .never fun v ⟨i, hi, hv⟩ => ?_
      by_contra hne
      -- a member that is there is left in its group, or its base type is
      by_cases hb : ∃ base text, v = literal base text ∧ S i (prim base)
      · obtain ⟨base, -, -, hp⟩ := hb
        cases hn _ ((prims base).2 ⟨i, hi, hp⟩)
      · exact hne (hn v ⟨i, hi, .member (none hi) (none' hi) hv hne fun base text he hp => hb ⟨base, text, he, hp⟩⟩)
  · intro h
    cases h with
    | any h => exact absurd h ha
    | unknown _ h => exact absurd h hk
    | member _ _ h hn hb =>
      obtain ⟨i, hi, h⟩ := h
      refine .member noAny noUnknown ⟨i, hi, ?_⟩ hn fun base text he hp => hb base text he ((prims base).1 hp)
      exact .member (none hi) (none' hi) h hn fun base text he hp => hb base text he ⟨i, hi, hp⟩
    | never hn =>
      refine .never fun v ⟨i, hi, hv⟩ => ?_
      by_contra hne
      exact hne (hn v ⟨i, hi, hv.source hne⟩)

/-- What is left stays if it is united again. -/
theorem leaves_leaves : Leaves (Leaves S) u ↔ Leaves S u := by
  have once : ∀ T : Ty → Prop, (fun u => ∃ _ : Unit, True ∧ T u) = T := fun T => funext fun u => by simp
  have grouped := @leaves_grouped u Unit (fun _ => True) fun _ => S
  rwa [once, once] at grouped

end Grouped

/-! ### Unions of conditionals -/

/-- The first type is a conditional that checks the second. -/
def Inspects (c x : Ty) : Prop := ∃ bound yes no distribute, c = conditional x bound yes no distribute

/-- The type is a conditional that checks one of the given types, or a union of such conditionals. -/
inductive Cases (xs : List Ty) : Ty → Prop
  | one {x c : Ty} : x ∈ xs → c.Inspects x → Cases xs c
  | more {cs : List Ty} : cs ≠ [] → (∀ c ∈ cs, ∃ x ∈ xs, c.Inspects x) → Cases xs (union cs)

section Cases
variable {xs cs : List Ty} {t : Ty}

theorem Inspects.unionMembers {c x : Ty} (h : c.Inspects x) : c.unionMembers = [c] := by
  obtain ⟨bound, yes, no, distribute, rfl⟩ := h
  rfl

theorem Inspects.isUnionMember {c x : Ty} (h : c.Inspects x) : c.isUnionMember = true := by
  obtain ⟨bound, yes, no, distribute, rfl⟩ := h
  rfl

theorem unionMembers_inspecting (h : ∀ c ∈ cs, ∃ x ∈ xs, c.Inspects x) : unionMembers (union cs) = cs := by
  refine unionMembersAll_self (fun c hc => ?_) fun ha => ?_
  · obtain ⟨x, -, hx⟩ := h c hc
    exact hx.isUnionMember
  · obtain ⟨x, -, _, _, _, _, he⟩ := h absent ha
    cases he

theorem Cases.members (h : Cases xs t) : t.unionMembers ≠ [] ∧ ∀ c ∈ t.unionMembers, ∃ x ∈ xs, c.Inspects x := by
  cases h with
  | one hx hc =>
    rw [hc.unionMembers]
    exact ⟨nofun, List.forall_mem_singleton.2 ⟨_, hx, hc⟩⟩
  | more hne hcs =>
    rw [unionMembers_inspecting hcs]
    exact ⟨hne, hcs⟩

theorem Cases.mono {ys : List Ty} (h : Cases xs t) (hs : xs ⊆ ys) : Cases ys t := by
  cases h with
  | one hx hc => exact .one (hs hx) hc
  | more hne hcs => exact .more hne fun c hc => (hcs c hc).imp fun x => And.imp_left (hs ·)

/-- Types that are made of conditionals are united without loss. -/
theorem united_cases {ts : List Ty} (hne : ts ≠ []) (h : ∀ t ∈ ts, Cases xs t) :
    Cases xs (unionOf ts) ∧ (∀ c ∈ (unionOf ts).unionMembers, ∃ t ∈ ts, c ∈ t.unionMembers) ∧
      ∀ t ∈ ts, ∀ c ∈ t.unionMembers, ∃ c' ∈ (unionOf ts).unionMembers, c'.identical c = true := by
  have members : ∀ c ∈ unionMembersAll ts, ∃ x ∈ xs, c.Inspects x := by
    intro c hc
    obtain ⟨t, ht, hc⟩ := mem_unionMembersAll hc
    exact (h t ht).members.2 c hc
  have plain : ∀ {c}, c ∈ unionMembersAll ts → c.isConditional = true := by
    intro c hc
    obtain ⟨x, -, _, _, _, _, rfl⟩ := members c hc
    rfl
  have ha : any ∉ unionMembersAll ts := fun hm => by cases plain hm
  have hk : unknown ∉ unionMembersAll ts := fun hm => by cases plain hm
  have needed : ∀ c ∈ unionMembersAll ts, isRedundantIn (unionMembersAll ts) c = false := by
    intro c hc
    obtain ⟨x, -, _, _, _, _, rfl⟩ := members c hc
    rfl
  obtain ⟨t, rest, rfl⟩ := List.exists_cons_of_ne_nil hne
  obtain ⟨c, hc⟩ := List.exists_mem_of_ne_nil _ (h t List.mem_cons_self).members.1
  obtain ⟨c', hc', -⟩ := identical_mem_keptMembers (unionMembers_subset List.mem_cons_self hc)
    (needed c (unionMembers_subset List.mem_cons_self hc))
  rcases unionMembers_kept ha hk with ⟨hnil, -⟩ | ⟨-, perm⟩
  · rw [hnil] at hc'
    cases hc'
  refine ⟨?_, ?_, ?_⟩
  · rcases unionOf_cases (t :: rest) with ⟨hm, -⟩ | ⟨hm, -⟩ | ⟨-, -, ⟨hnil, -⟩ | ⟨v, hv, he⟩ | he⟩
    · exact absurd hm ha
    · exact absurd hm hk
    · rw [hnil] at hc'
      cases hc'
    · obtain ⟨x, hx, hi⟩ := members v (mem_of_keptMembers (hv ▸ List.mem_cons_self))
      exact he ▸ .one hx hi
    · rw [he]
      exact .more (List.ne_nil_of_mem (mem_sortByText.2 hc')) fun c hc => members c (mem_of_keptMembers (mem_sortByText.1 hc))
  · exact fun c hc => mem_unionMembersAll (mem_of_keptMembers (perm.mem_iff.1 hc))
  · intro t ht c hc
    have hm := unionMembers_subset ht hc
    obtain ⟨v, hv, hi⟩ := identical_mem_keptMembers hm (needed c hm)
    exact ⟨v, perm.mem_iff.2 hv, hi⟩

theorem Inspects.apart {c c' x x' : Ty} (hc : c.Inspects x) (hc' : c'.Inspects x') (h : x.identical x' = false) :
    c.identical c' = false := by
  obtain ⟨_, _, _, _, rfl⟩ := hc
  obtain ⟨_, _, _, _, rfl⟩ := hc'
  rw [identical, h]
  simp

/-- Two conditionals that are not identical are left side by side. -/
theorem union_of_apart {ts : List Ty} (h : ∀ t ∈ ts, Cases xs t) {t t' c c' : Ty} (ht : t ∈ ts) (ht' : t' ∈ ts)
    (hc : c ∈ t.unionMembers) (hc' : c' ∈ t'.unionMembers) (apart : c.identical c' = false) : ∃ cs, unionOf ts = union cs := by
  obtain ⟨made, -, into⟩ := united_cases (List.ne_nil_of_mem ht) h
  obtain ⟨v, hv, hi⟩ := into t ht c hc
  obtain ⟨v', hv', hi'⟩ := into t' ht' c' hc'
  generalize unionOf ts = u at made hv hv' ⊢
  cases made with
  | one _ hu =>
    rw [hu.unionMembers] at hv hv'
    rw [List.mem_singleton.1 hv] at hi
    rw [List.mem_singleton.1 hv'] at hi'
    rw [identical_trans (identical_symm hi) hi'] at apart
    cases apart
  | more => exact ⟨_, rfl⟩

end Cases
end TypeCalculus.Ty

import TypeCalculus.Proofs.Ty.NormalForm
import TypeCalculus.Ty.Intersection

/-! Intersections come out in normal form. A meet merges shapes only as deep as its level, so its level has to
    reach down to the innermost shape: at level zero the only shape left is the empty one (`Within`). Merging
    keeps shapes within the level, though it may put the empty shape where no shape was. -/

namespace TypeCalculus.Ty

/-! ### How deep shapes nest -/

mutual

/-- How deep shapes with members nest under unions, intersections and shapes. -/
def nest : Ty → Nat
  | object [] none => 0
  | object props index => 1 + max (nestProps props) (nestIndex index)
  | union members => nestAll members
  | intersection members => nestAll members
  | _ => 0
termination_by structural t => t

def nestAll : List Ty → Nat
  | [] => 0
  | t :: ts => max t.nest (nestAll ts)
termination_by structural ts => ts

def nestProps : List (Property Ty) → Nat
  | [] => 0
  | ⟨_, type, _, _⟩ :: rest => max type.nest (nestProps rest)
termination_by structural props => props

def nestIndex : Option (IndexSignature Ty) → Nat
  | none => 0
  | some ⟨_, value⟩ => value.nest
termination_by structural index => index

end

theorem nestAll_le {n : Nat} {ts : List Ty} : nestAll ts ≤ n ↔ ∀ t ∈ ts, t.nest ≤ n := by
  induction ts with
  | nil => simp [nestAll]
  | cons t ts ih => simp only [nestAll, Nat.max_le, ih, List.mem_cons, forall_eq_or_imp]

theorem nestProps_le {n : Nat} {props : List (Property Ty)} :
    nestProps props ≤ n ↔ ∀ p ∈ props, p.type.nest ≤ n := by
  induction props with
  | nil => simp [nestProps]
  | cons p props ih => simp only [nestProps, Nat.max_le, ih, List.mem_cons, forall_eq_or_imp]

theorem nestIndex_le {n : Nat} {index : Option (IndexSignature Ty)} :
    nestIndex index ≤ n ↔ ∀ i, index = some i → i.value.nest ≤ n := by
  cases index <;> simp [nestIndex]

/-- A shape is empty, or nests one deeper than what it holds. -/
theorem nest_object (props : List (Property Ty)) (index : Option (IndexSignature Ty)) :
    props = [] ∧ index = none ∨ (object props index).nest = 1 + max (nestProps props) (nestIndex index) := by
  cases props with
  | nil =>
    cases index with
    | none => exact Or.inl ⟨rfl, rfl⟩
    | some i => exact Or.inr rfl
  | cons p props => exact Or.inr rfl

theorem nest_object_zero {props : List (Property Ty)} {index : Option (IndexSignature Ty)}
    (h : (object props index).nest ≤ 0) : object props index = emptyObject := by
  rcases nest_object props index with ⟨rfl, rfl⟩ | he
  · rfl
  · omega

theorem nest_object_succ {n : Nat} {props : List (Property Ty)} {index : Option (IndexSignature Ty)} :
    (object props index).nest ≤ n + 1 ↔
      (∀ p ∈ props, p.type.nest ≤ n) ∧ ∀ i, index = some i → i.value.nest ≤ n := by
  rw [← nestProps_le, ← nestIndex_le]
  rcases nest_object props index with ⟨rfl, rfl⟩ | he
  · simp [nest, nestProps, nestIndex]
  · omega

mutual

theorem nest_le_shapeDepth : (t : Ty) → t.nest ≤ t.shapeDepth
  | object props index => by
    have := nestProps_le_shapeDepthProps props
    have := nestIndex_le_shapeDepthIndex index
    rcases nest_object props index with ⟨rfl, rfl⟩ | he
    · exact Nat.zero_le _
    · simp only [he, shapeDepth]
      omega
  | union members | intersection members => by
    simpa only [nest, shapeDepth] using nestAll_le_shapeDepthAll members
  | absent | any | unknown | void | never | prim _ | literal .. | template _ | array .. | tuple _ | param ..
  | infer .. | conditional .. | reference .. | function .. | keyOf _ | access .. | mapping .. => by
    simp only [nest, Nat.zero_le]

theorem nestAll_le_shapeDepthAll : (ts : List Ty) → nestAll ts ≤ shapeDepthAll ts
  | [] => by simp only [nestAll, Nat.zero_le]
  | t :: ts => by
    have := nest_le_shapeDepth t
    have := nestAll_le_shapeDepthAll ts
    simp only [nestAll, shapeDepthAll]
    omega

theorem nestProps_le_shapeDepthProps : (props : List (Property Ty)) → nestProps props ≤ shapeDepthProps props
  | [] => by simp only [nestProps, Nat.zero_le]
  | ⟨_, t, _, _⟩ :: props => by
    have := nest_le_shapeDepth t
    have := nestProps_le_shapeDepthProps props
    simp only [nestProps, shapeDepthProps]
    omega

theorem nestIndex_le_shapeDepthIndex : (index : Option (IndexSignature Ty)) → nestIndex index ≤ shapeDepthIndex index
  | none => by simp only [nestIndex, Nat.zero_le]
  | some ⟨_, t⟩ => by simpa only [nestIndex, shapeDepthIndex] using nest_le_shapeDepth t

end

/-! ### Types within a level -/

/-- The type is in normal form, and its shapes nest no deeper than the level. -/
structure Within (level : Nat) (t : Ty) : Prop where
  normal : Normal t
  nest : t.nest ≤ level

theorem within_emptyObject (level : Nat) : Within level emptyObject := ⟨normal_emptyObject, Nat.zero_le _⟩

theorem within_object {level : Nat} {props : List (Property Ty)} {index : Option (IndexSignature Ty)} :
    Within (level + 1) (object props index) ↔ Shape.Ascending props ∧ (∀ p ∈ props, Within level p.type) ∧
      ∀ i, index = some i → Within level i.value := by
  constructor
  · rintro ⟨hn, hd⟩
    obtain ⟨ha, hp, hi⟩ := normal_object.1 hn
    obtain ⟨hp', hi'⟩ := nest_object_succ.1 hd
    exact ⟨ha, fun p h => ⟨hp p h, hp' p h⟩, fun i h => ⟨hi i h, hi' i h⟩⟩
  · rintro ⟨ha, hp, hi⟩
    exact ⟨normal_object.2 ⟨ha, fun p h => (hp p h).normal, fun i h => (hi i h).normal⟩,
      nest_object_succ.2 ⟨fun p h => (hp p h).nest, fun i h => (hi i h).nest⟩⟩

theorem within_union_member {level : Nat} {members : List Ty} (h : Within level (union members)) :
    ∀ m ∈ members, Within level m := by
  intro m hm
  have hd : nestAll members ≤ level := by simpa only [Ty.nest] using h.nest
  exact ⟨h.normal.child hm, nestAll_le.1 hd m hm⟩

theorem within_meet_member {level : Nat} {members : List Ty} (h : Within level (intersection members)) :
    ∀ m ∈ members, Within level m := by
  intro m hm
  have hd : nestAll members ≤ level := by simpa only [Ty.nest] using h.nest
  exact ⟨h.normal.child hm, nestAll_le.1 hd m hm⟩

theorem within_unionOf {level : Nat} {ts : List Ty} (h : ∀ t ∈ ts, Within level t) : Within level (unionOf ts) := by
  refine ⟨normal_unionOf fun t ht => (h t ht).normal, ?_⟩
  have member : ∀ u ∈ unionMembersAll ts, u.nest ≤ level := by
    intro u hu
    obtain ⟨t, ht, hu⟩ := mem_unionMembersAll hu
    exact (unionMembers_forall within_union_member t (h t ht) u hu).nest
  have kept : ∀ u ∈ distinct [] ((unionMembersAll ts).filter fun t => !isRedundantIn (unionMembersAll ts) t),
      u.nest ≤ level := fun u hu => member u (List.mem_filter.1 ((distinct_sublist _ _).subset hu)).1
  unfold unionOf
  dsimp only
  split
  · exact Nat.zero_le _
  · split
    · exact Nat.zero_le _
    · split
      · exact Nat.zero_le _
      · rename_i t he
        exact kept t (he ▸ List.mem_singleton_self t)
      · rw [Ty.nest]
        exact nestAll_le.2 fun u hu => kept u (mem_sortByText.1 hu)

/-! ### Members -/

theorem mem_meetMembersAll {u : Ty} : {ts : List Ty} → u ∈ meetMembersAll ts → ∃ t ∈ ts, u ∈ t.meetMembers
  | t :: ts, h => by
    rw [meetMembersAll] at h
    rcases List.mem_append.1 h with h | h
    · exact ⟨t, List.mem_cons_self, h⟩
    · obtain ⟨v, hv, hu⟩ := mem_meetMembersAll h
      exact ⟨v, List.mem_cons_of_mem _ hv, hu⟩

theorem mem_meetMembersAll_of {t u : Ty} {ts : List Ty} (ht : t ∈ ts) (hu : u ∈ t.meetMembers) : u ∈ meetMembersAll ts := by
  induction ts with
  | nil => cases ht
  | cons s ss ih =>
    rw [meetMembersAll]
    rcases List.mem_cons.1 ht with rfl | ht
    · exact List.mem_append_left _ hu
    · exact List.mem_append_right _ (ih ht)

theorem meetMembers_self {t : Ty} (ha : t ≠ absent) (hi : ∀ ms, t ≠ intersection ms) : t.meetMembers = [t] := by
  cases t with
  | absent => exact absurd rfl ha
  | intersection ms => exact absurd rfl (hi ms)
  | _ => rfl

theorem mem_knownMembers {t u : Ty} {ts : List Ty} (ht : t ∈ ts) (hu : u ∈ t.meetMembers) (known : u ≠ unknown) :
    u ∈ knownMembers ts := by
  refine List.mem_filter.2 ⟨mem_meetMembersAll_of ht hu, ?_⟩
  cases u <;> first | rfl | exact absurd rfl known

theorem meetMembers_forall {P : Ty → Prop} (hP : ∀ {ms : List Ty}, P (intersection ms) → ∀ m ∈ ms, P m) :
    (t : Ty) → P t → ∀ u ∈ t.meetMembers, P u
  | intersection ms, h, u, hu => by
    rw [meetMembers] at hu
    obtain ⟨t, ht, hu⟩ := mem_meetMembersAll hu
    have := List.sizeOf_lt_of_mem ht
    exact meetMembers_forall hP t (hP h t ht) u hu
  | absent, _, _, hu => by cases hu
  | any, h, _, hu | unknown, h, _, hu | void, h, _, hu | never, h, _, hu | prim _, h, _, hu | literal .., h, _, hu
  | template _, h, _, hu | object .., h, _, hu | array .., h, _, hu | tuple _, h, _, hu | union _, h, _, hu
  | param .., h, _, hu | infer .., h, _, hu | conditional .., h, _, hu | reference .., h, _, hu
  | function .., h, _, hu | keyOf _, h, _, hu | access .., h, _, hu | mapping .., h, _, hu => by
    rw [meetMembers, List.mem_singleton] at hu
    · exact hu ▸ h
    all_goals simp

theorem knownMembers_forall {P : Ty → Prop} (hP : ∀ {ms : List Ty}, P (intersection ms) → ∀ m ∈ ms, P m) {ts : List Ty}
    (h : ∀ t ∈ ts, P t) : ∀ u ∈ knownMembers ts, P u := by
  intro u hu
  obtain ⟨t, ht, hu⟩ := mem_meetMembersAll (List.mem_filter.1 hu).1
  exact meetMembers_forall hP t (h t ht) u hu

theorem intersection_not_mem_meetMembers {ms : List Ty} : (t : Ty) → intersection ms ∉ t.meetMembers
  | intersection ns, h => by
    rw [meetMembers] at h
    obtain ⟨t, ht, hu⟩ := mem_meetMembersAll h
    have := List.sizeOf_lt_of_mem ht
    exact intersection_not_mem_meetMembers t hu
  | absent, h => by cases h
  | any, h | unknown, h | void, h | never, h | prim _, h | literal .., h | template _, h | object .., h
  | array .., h | tuple _, h | union _, h | param .., h | infer .., h | conditional .., h
  | reference .., h | function .., h | keyOf _, h | access .., h | mapping .., h => by
    cases List.mem_singleton.1 h

theorem absent_not_mem_meetMembers : (t : Ty) → absent ∉ t.meetMembers
  | intersection ns, h => by
    rw [meetMembers] at h
    obtain ⟨t, ht, hu⟩ := mem_meetMembersAll h
    have := List.sizeOf_lt_of_mem ht
    exact absent_not_mem_meetMembers t hu
  | absent, h => by cases h
  | any, h | unknown, h | void, h | never, h | prim _, h | literal .., h | template _, h | object .., h
  | array .., h | tuple _, h | union _, h | param .., h | infer .., h | conditional .., h
  | reference .., h | function .., h | keyOf _, h | access .., h | mapping .., h => by
    cases List.mem_singleton.1 h

theorem within_knownMembers {level : Nat} {ts : List Ty} (h : ∀ t ∈ ts, Within level t) :
    ∀ u ∈ knownMembers ts, Within level u := knownMembers_forall within_meet_member h

theorem splitAtUnion_eq_none {ts : List Ty} (h : splitAtUnion ts = none) (ms : List Ty) : union ms ∉ ts := by
  induction ts with
  | nil => exact List.not_mem_nil
  | cons t ts ih =>
    intro hm
    rw [splitAtUnion.eq_def] at h
    split at h
    · contradiction
    · cases h
    · rename_i u us hne he
      obtain ⟨rfl, rfl⟩ := List.cons.inj he
      rcases List.mem_cons.1 hm with hm | hm
      · exact hne ms hm.symm
      · exact ih (Option.map_eq_none_iff.1 h) hm

theorem splitAtUnion_eq_some {ts before members after : List Ty}
    (h : splitAtUnion ts = some (before, members, after)) : ts = before ++ union members :: after := by
  induction ts generalizing before with
  | nil => cases h
  | cons t ts ih =>
    rw [splitAtUnion.eq_def] at h
    split at h
    · cases h
    · rename_i ms us he
      obtain ⟨rfl, rfl⟩ := List.cons.inj he
      cases h
      rfl
    · rename_i u us _ he
      obtain ⟨rfl, rfl⟩ := List.cons.inj he
      obtain ⟨⟨b, m, a⟩, hs, e⟩ := Option.map_eq_some_iff.1 h
      cases e
      rw [ih hs]
      rfl

/-- A member in the place of its union. -/
theorem forall_splitMember {P : Ty → Prop} {before members after : List Ty} {m : Ty}
    (h : ∀ u ∈ before ++ union members :: after, P u) (member : P (union members) → P m) :
    ∀ u ∈ before ++ m :: after, P u := by
  obtain ⟨hb, hu, ha⟩ := List.forall_mem_append.1 h |>.imp_right List.forall_mem_cons.1
  exact List.forall_mem_append.2 ⟨hb, List.forall_mem_cons.2 ⟨member hu, ha⟩⟩

/-- What is left when `never`, `any`, `unknown` and unions are dealt with may be a member. -/
theorem isMeetMember_of_known {ts : List Ty} (hnever : ¬(knownMembers ts).any isNever = true)
    (hany : ¬(knownMembers ts).any isAny = true) (hunion : splitAtUnion (knownMembers ts) = none) :
    ∀ u ∈ knownMembers ts, u.isMeetMember = true := by
  intro u hu
  cases u with
  | union ms => exact absurd hu (splitAtUnion_eq_none hunion ms)
  | intersection ms =>
    obtain ⟨t, -, ht⟩ := mem_meetMembersAll (List.mem_filter.1 hu).1
    exact absurd ht (intersection_not_mem_meetMembers t)
  | any => exact absurd (List.any_eq_true.2 ⟨any, hu, rfl⟩) hany
  | unknown => cases (List.mem_filter.1 hu).2
  | never => exact absurd (List.any_eq_true.2 ⟨never, hu, rfl⟩) hnever
  | _ => rfl

/-! ### Pruning -/

theorem pruneAgainst_sublist {x : Ty} {ys kept : List Ty} {stays : Bool}
    (h : pruneAgainst x ys = some (stays, kept)) : kept.Sublist ys := by
  induction ys generalizing stays kept with
  | nil =>
    cases h
    exact List.Sublist.refl _
  | cons y ys ih =>
    have keep : (pruneAgainst x ys).map (fun r => (r.1, y :: r.2)) = some (stays, kept) →
        kept.Sublist (y :: ys) := by
      intro h
      obtain ⟨⟨s, k⟩, hk, e⟩ := Option.map_eq_some_iff.1 h
      cases e
      exact (ih hk).cons_cons y
    rw [pruneAgainst] at h
    split at h
    · exact keep h
    · split at h
      · exact (ih h).cons y
      · split at h
        · cases h
          exact List.Sublist.refl _
        · split at h
          · cases h
          · exact keep h

theorem prune_sublist {ts kept : List Ty} (h : prune ts = some kept) : kept.Sublist ts := by
  induction ts using prune.induct generalizing kept with
  | case1 =>
    rw [prune] at h
    cases h
    exact List.Sublist.refl _
  | case2 x xs hp =>
    rw [prune] at h
    split at h
    · cases h
    · rename_i hp'
      rw [hp] at hp'
      cases hp'
  | case3 x xs stays rest hp ih =>
    rw [prune] at h
    split at h
    · cases h
    · rename_i hp'
      rw [hp] at hp'
      cases hp'
      obtain ⟨r, hr, rfl⟩ := Option.map_eq_some_iff.1 h
      have sub := (ih hr).trans (pruneAgainst_sublist hp)
      split
      · exact sub.cons_cons x
      · exact sub.cons x

/-- Members that may be members, and among which any two shapes are identical, have an intersection in normal
    form. -/
theorem within_closeMeet {level : Nat} {ts : List Ty} (h : ∀ t ∈ ts, Within level t)
    (hm : ∀ t ∈ ts, t.isMeetMember = true)
    (hs : ∀ x ∈ ts, ∀ y ∈ ts, x.isShape = true → y.isShape = true → x.identical y = true) :
    Within level (closeMeet ts) := by
  unfold closeMeet
  split
  · exact ⟨normal_never, Nat.zero_le _⟩
  · exact within_emptyObject level
  · rename_i t hp
    exact h t ((distinct_sublist _ _).subset ((prune_sublist hp).subset (List.mem_singleton_self t)))
  · rename_i kept h₀ h₁ hp
    have sub : ∀ {t}, t ∈ sortByText kept → t ∈ ts := fun ht =>
      (distinct_sublist _ _).subset ((prune_sublist hp).subset (mem_sortByText.1 ht))
    have apart := apart_sortByText ((distinct_pairwise [] ts).sublist (prune_sublist hp))
    refine ⟨⟨⟨?_, fun m hm' => hm m (sub hm'), ?_, apart, sortByText_pairwise _⟩, fun u hu => (h u (sub hu)).normal⟩, ?_⟩
    · rw [(sortByText_perm _).length_eq]
      exact two_le_length h₀ h₁
    · refine apart.imp_of_mem fun ha hb hab => ?_
      rintro ⟨sa, sb⟩
      rw [hs _ (sub ha) _ (sub hb) sa sb] at hab
      cases hab
    · rw [Ty.nest]
      exact nestAll_le.2 fun t ht => (h t (sub ht)).nest

/-! ### Merging shapes -/

theorem parts_toTy_forall {P : Ty → Prop} {s : Shape} :
    (∀ u ∈ s.toTy.parts, P u) ↔ (∀ p ∈ s.props, P p.type) ∧ ∀ i, s.index = some i → P i.value := by
  simp only [Shape.toTy, parts, List.forall_mem_append, List.forall_mem_map, Option.mem_toList, Option.map_eq_some_iff]
  refine and_congr_right fun _ => ⟨fun h i hi => h _ ⟨i, hi, rfl⟩, ?_⟩
  rintro h _ ⟨i, hi, rfl⟩
  exact h i hi

/-- What the types of two shapes and their meets have in common the types of the merged shape have. -/
theorem parts_mergeShapes {P : Ty → Prop} {meet : List Ty → Ty} {a b : Shape} (hmeet : ∀ x y, P x → P y → P (meet [x, y]))
    (ha : ∀ u ∈ a.toTy.parts, P u) (hb : ∀ u ∈ b.toTy.parts, P u) : ∀ u ∈ (mergeShapes meet a b).toTy.parts, P u := by
  rw [parts_toTy_forall] at ha hb ⊢
  refine ⟨fun p hp => ?_, fun i hi => ?_⟩
  · rcases List.mem_append.1 (Shape.mem_ofProps hp) with hp | hp
    · obtain ⟨q, hq, rfl⟩ := List.mem_map.1 hp
      split
      · rename_i r hr
        exact hmeet _ _ (ha.1 q hq) (hb.1 r (Shape.mem_of_find? hr))
      · exact ha.1 q hq
    · exact hb.1 p (List.mem_filter.1 hp).1
  · dsimp only [mergeShapes, Shape.ofProps] at hi
    split at hi
    · exact hb.2 i hi
    · rename_i i' j' hi' hj'
      split at hi
      · cases hi
        exact hmeet _ _ (ha.2 i' hi') (hb.2 j' hj')
      · cases hi
        exact ha.2 _ hi'
    · rename_i i' hi' _
      cases hi
      exact ha.2 _ hi'

/-- Shapes merged have what merging hands on, and other types are left as they are. -/
theorem gatherShapes_forall {P : Ty → Prop} {meet : List Ty → Ty}
    (hmerge : ∀ {a b : Shape}, P a.toTy → P b.toTy → P (mergeShapes meet a b).toTy) {merged : Option Shape} {ts : List Ty}
    (hmerged : ∀ s, merged = some s → P s.toTy) (ht : ∀ t ∈ ts, P t) : ∀ u ∈ gatherShapes meet merged ts, P u := by
  induction merged, ts using gatherShapes.induct meet with
  | case1 merged =>
    intro u hu
    rw [gatherShapes] at hu
    cases merged with
    | none => cases hu
    | some s => exact List.mem_singleton.1 hu ▸ hmerged s rfl
  | case2 merged props index ts next ih =>
    refine ih ?_ fun t hm => ht t (List.mem_cons_of_mem _ hm)
    rintro s ⟨⟩
    have hp := ht _ List.mem_cons_self
    cases merged with
    | none => exact hp
    | some shape => exact hmerge (hmerged shape rfl) hp
  | case3 merged t ts hne ih =>
    intro u hu
    rw [gatherShapes] at hu
    · rcases List.mem_cons.1 hu with rfl | hu
      · exact ht u List.mem_cons_self
      · exact ih hmerged (fun v hv => ht v (List.mem_cons_of_mem _ hv)) u hu
    · exact hne

section Merging
variable {level : Nat} {meet : List Ty → Ty}
  (hmeet : ∀ a b, Within level a → Within level b → Within level (meet [a, b]))
include hmeet

theorem within_mergeShapes {a b : Shape} (ha : Within (level + 1) a.toTy) (hb : Within (level + 1) b.toTy) :
    Within (level + 1) (mergeShapes meet a b).toTy := by
  have merged := parts_mergeShapes hmeet (parts_toTy_forall.2 (within_object.1 ha).2) (parts_toTy_forall.2 (within_object.1 hb).2)
  exact within_object.2 ⟨Shape.ascending_ofProps _ _, parts_toTy_forall.1 merged⟩

/-- After merging every type is within the level, and there is one shape at most. -/
theorem within_gatherShapes {merged : Option Shape} {ts : List Ty}
    (hmerged : ∀ s, merged = some s → Within (level + 1) s.toTy) (hts : ∀ t ∈ ts, Within (level + 1) t) :
    (∀ u ∈ gatherShapes meet merged ts, Within (level + 1) u ∧ (u.isShape = true ∨ u ∈ ts)) ∧
    ∀ x ∈ gatherShapes meet merged ts, ∀ y ∈ gatherShapes meet merged ts,
      x.isShape = true → y.isShape = true → x = y := by
  induction merged, ts using gatherShapes.induct meet with
  | case1 merged =>
    rw [gatherShapes]
    cases merged with
    | none => exact ⟨nofun, nofun⟩
    | some s =>
      refine ⟨fun u hu => ?_, fun x hx y hy _ _ => ?_⟩
      · rw [List.mem_singleton.1 hu]
        exact ⟨hmerged s rfl, Or.inl rfl⟩
      · exact (List.mem_singleton.1 hx).trans (List.mem_singleton.1 hy).symm
  | case2 merged props index ts next ih =>
    have hnext : ∀ s, some next = some s → Within (level + 1) s.toTy := by
      rintro s ⟨⟩
      have hp := hts _ List.mem_cons_self
      cases merged with
      | none => exact hp
      | some shape => exact within_mergeShapes hmeet (hmerged shape rfl) hp
    have step : gatherShapes meet merged (object props index :: ts) = gatherShapes meet (some next) ts := rfl
    rw [step]
    obtain ⟨hw, hone⟩ := ih hnext fun t ht => hts t (List.mem_cons_of_mem _ ht)
    refine ⟨fun u hu => ⟨(hw u hu).1, (hw u hu).2.imp_right (List.mem_cons_of_mem _)⟩, hone⟩
  | case3 merged t ts hne ih =>
    have ht : t.isShape = false := by
      cases t with
      | object props index => exact absurd rfl (hne props index)
      | _ => rfl
    obtain ⟨hw, hone⟩ := ih hmerged fun u hu => hts u (List.mem_cons_of_mem _ hu)
    rw [gatherShapes]
    · refine ⟨fun u hu => ?_, fun x hx y hy sx sy => ?_⟩
      · rcases List.mem_cons.1 hu with rfl | hu
        · exact ⟨hts u List.mem_cons_self, Or.inr List.mem_cons_self⟩
        · exact ⟨(hw u hu).1, (hw u hu).2.imp_right (List.mem_cons_of_mem _)⟩
      · rcases List.mem_cons.1 hx with rfl | hx
        · rw [ht] at sx
          cases sx
        · rcases List.mem_cons.1 hy with rfl | hy
          · rw [ht] at sy
            cases sy
          · exact hone x hx y hy sx sy
    · exact hne

end Merging

/-- Merging shapes without members gives no others. -/
theorem mem_gatherShapes_empty {meet : List Ty → Ty} {merged : Option Shape} {ts : List Ty}
    (hmerged : ∀ s, merged = some s → s = {}) (hts : ∀ t ∈ ts, t.isShape = true → t = emptyObject) :
    ∀ u ∈ gatherShapes meet merged ts, u ∈ ts ∨ u = emptyObject := by
  induction merged, ts using gatherShapes.induct meet with
  | case1 merged =>
    intro u hu
    rw [gatherShapes] at hu
    cases merged with
    | none => cases hu
    | some s =>
      rw [hmerged s rfl] at hu
      exact Or.inr (List.mem_singleton.1 hu)
  | case2 merged props index ts next ih =>
    cases hts _ List.mem_cons_self rfl
    have hnext : ∀ s, some next = some s → s = {} := by
      rintro s ⟨⟩
      cases merged with
      | none => rfl
      | some shape =>
        cases hmerged shape rfl
        exact Shape.ofProps_self .nil none
    intro u hu
    exact (ih hnext (fun t ht => hts t (List.mem_cons_of_mem _ ht)) u hu).imp_left (List.mem_cons_of_mem _)
  | case3 merged t ts hne ih =>
    intro u hu
    rw [gatherShapes] at hu
    · rcases List.mem_cons.1 hu with rfl | hu
      · exact Or.inl List.mem_cons_self
      · exact (ih hmerged (fun v hv => hts v (List.mem_cons_of_mem _ hv)) u hu).imp_left (List.mem_cons_of_mem _)
    · exact hne

/-! ### Meets -/

theorem meetAt_union {level : Nat} {ts before members after : List Ty}
    (hnever : ¬(knownMembers ts).any isNever = true) (hany : ¬(knownMembers ts).any isAny = true)
    (h : splitAtUnion (knownMembers ts) = some (before, members, after)) :
    meetAt level ts = unionOf (members.map fun m => meetAt level (before ++ m :: after)) := by
  rw [meetAt.eq_def, if_neg hnever, if_neg hany]
  split
  · rename_i h'
    rw [h] at h'
    cases h'
    exact congrArg unionOf (List.attach_map_val (f := fun m : Ty => meetAt level (before ++ m :: after)))
  · rename_i h'
    rw [h] at h'
    cases h'

theorem meetAt_zero {ts : List Ty} (hnever : ¬(knownMembers ts).any isNever = true)
    (hany : ¬(knownMembers ts).any isAny = true) (h : splitAtUnion (knownMembers ts) = none) :
    meetAt 0 ts = closeMeet (gatherShapes (fun _ => never) none (knownMembers ts)) := by
  rw [meetAt.eq_def, if_neg hnever, if_neg hany]
  split
  · rename_i h'
    rw [h] at h'
    cases h'
  · rfl

theorem meetAt_succ {level : Nat} {ts : List Ty} (hnever : ¬(knownMembers ts).any isNever = true)
    (hany : ¬(knownMembers ts).any isAny = true) (h : splitAtUnion (knownMembers ts) = none) :
    meetAt (level + 1) ts = closeMeet (gatherShapes (meetAt level) none (knownMembers ts)) := by
  rw [meetAt.eq_def, if_neg hnever, if_neg hany]
  split
  · rename_i h'
    rw [h] at h'
    cases h'
  · rfl

/-- Without members shapes leave nothing to merge. -/
theorem within_closeGathered_zero {ts : List Ty} (h : ∀ t ∈ ts, Within 0 t) (single : ∀ t ∈ ts, t.isMeetMember = true) :
    Within 0 (closeMeet (gatherShapes (fun _ => never) none ts)) := by
  have empty : ∀ x ∈ ts, x.isShape = true → x = emptyObject := by
    intro x hx sx
    cases x with
    | object props index => exact nest_object_zero (h _ hx).nest
    | _ => cases sx
  have gathered := @mem_gatherShapes_empty (fun _ => never) none ts nofun empty
  have shape : ∀ x ∈ gatherShapes (fun _ => never) none ts, x.isShape = true → x = emptyObject :=
    fun x hx sx => (gathered x hx).elim (fun hx => empty x hx sx) id
  refine within_closeMeet (fun t ht => ?_) (fun t ht => ?_) fun x hx y hy sx sy => ?_
  · rcases gathered t ht with ht | rfl
    · exact h t ht
    · exact within_emptyObject 0
  · rcases gathered t ht with ht | rfl
    · exact single t ht
    · rfl
  · rw [shape x hx sx, shape y hy sy]
    exact identical_refl _

theorem within_closeGathered {level : Nat} {meet : List Ty → Ty} {ts : List Ty}
    (hmeet : ∀ a b, Within level a → Within level b → Within level (meet [a, b])) (h : ∀ t ∈ ts, Within (level + 1) t)
    (single : ∀ t ∈ ts, t.isMeetMember = true) : Within (level + 1) (closeMeet (gatherShapes meet none ts)) := by
  obtain ⟨gathered, one⟩ := @within_gatherShapes level meet hmeet none ts nofun h
  refine within_closeMeet (fun t ht => (gathered t ht).1) (fun t ht => ?_) fun x hx y hy sx sy => ?_
  · rcases (gathered t ht).2 with st | ht
    · cases t with
      | object => rfl
      | _ => cases st
    · exact single t ht
  · rw [one x hx y hy sx sy]
    exact identical_refl _

/-- Meets keep types within the level. -/
theorem within_meetAt {level : Nat} {ts : List Ty} (h : ∀ t ∈ ts, Within level t) : Within level (meetAt level ts) := by
  induction level, ts using meetAt.induct with
  | case1 level ts hnever =>
    rw [meetAt.eq_def, if_pos hnever]
    exact ⟨normal_never, Nat.zero_le _⟩
  | case2 level ts hnever hany =>
    rw [meetAt.eq_def, if_neg hnever, if_pos hany]
    exact ⟨normal_any, Nat.zero_le _⟩
  | case3 level ts hnever hany before members after hu ih =>
    have known := within_knownMembers h
    rw [splitAtUnion_eq_some hu] at known
    rw [meetAt_union hnever hany hu]
    refine within_unionOf fun t ht => ?_
    obtain ⟨m, hm, rfl⟩ := List.mem_map.1 ht
    exact ih m hm (forall_splitMember known fun hu => within_union_member hu m hm)
  | case4 ts hnever hany hu =>
    rw [meetAt_zero hnever hany hu]
    exact within_closeGathered_zero (within_knownMembers h) (isMeetMember_of_known hnever hany hu)
  | case5 ts hnever hany hu level ih =>
    rw [meetAt_succ hnever hany hu]
    refine within_closeGathered (fun a b ha hb => ?_) (within_knownMembers h) (isMeetMember_of_known hnever hany hu)
    exact ih [a, b] (List.forall_mem_cons.2 ⟨ha, List.forall_mem_singleton.2 hb⟩)

/-- The intersection of types in normal form is in normal form. -/
theorem normal_meetOf {ts : List Ty} (h : ∀ t ∈ ts, Normal t) : Normal (meetOf ts) := by
  have deep := nestAll_le.1 (nestAll_le_shapeDepthAll ts)
  exact (within_meetAt fun t ht => ⟨h t ht, deep t ht⟩).normal

end TypeCalculus.Ty

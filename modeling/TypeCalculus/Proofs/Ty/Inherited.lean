import TypeCalculus.Proofs.Ty.Rebuild

/-! Properties of trees that the normalising constructors hand on. A constructor takes types apart, drops some of
    the parts and puts the rest together again, so what holds of its results follows from a few closure rules
    (`Inherited`). A property of all nodes of a tree, along any choice of subtrees, has these rules as soon as its
    nodes do (`Throughout`). -/

namespace TypeCalculus.Ty
open Assignable

/-! ### Members of an intersection side by side -/

/-- As far as the two types can be compared, neither implies the other and neither excludes it. -/
def Coexist (x y : Ty) : Prop :=
  x.isConcrete = true → y.isConcrete = true →
    assignable x y = false ∧ assignable y x = false ∧ isDisjoint x y = false

theorem isDisjoint_comm (x y : Ty) : isDisjoint x y = isDisjoint y x := by
  unfold isDisjoint
  cases x.baseOf? with
  | none => cases y.baseOf? <;> rfl
  | some p =>
    cases y.baseOf? with
    | none => rfl
    | some q =>
      dsimp only
      rw [Bool.or_assoc, Bool.or_assoc, Bool.or_comm x.isLiteral, show decide (p ≠ q) = decide (q ≠ p) from
        decide_eq_decide.2 ne_comm]

theorem Coexist.symm {x y : Ty} (h : Coexist x y) : Coexist y x := by
  intro hy hx
  obtain ⟨hxy, hyx, hd⟩ := h hx hy
  exact ⟨hyx, hxy, isDisjoint_comm x y ▸ hd⟩

theorem coexist_pruneAgainst {x : Ty} {ys kept : List Ty} (h : pruneAgainst x ys = some (true, kept)) :
    ∀ y ∈ kept, Coexist x y := by
  induction ys generalizing kept with
  | nil =>
    cases h
    nofun
  | cons y ys ih =>
    have keep : Coexist x y → (pruneAgainst x ys).map (fun r => (r.1, y :: r.2)) = some (true, kept) →
        ∀ z ∈ kept, Coexist x z := by
      intro hxy h z hz
      obtain ⟨⟨s, k⟩, hk, e⟩ := Option.map_eq_some_iff.1 h
      cases e
      rcases List.mem_cons.1 hz with rfl | hz
      · exact hxy
      · exact ih hk z hz
    rw [pruneAgainst] at h
    split at h
    · rename_i hopen
      refine keep (fun hx hy => ?_) h
      rw [hx, hy] at hopen
      cases hopen
    · split at h
      · exact ih h
      · split at h
        · cases h
        · split at h
          · cases h
          · rename_i hxy hyx hd
            exact keep (fun _ _ => ⟨by simpa using hxy, by simpa using hyx, by simpa using hd⟩) h

/-- The members that are left after pruning stay side by side. -/
theorem coexist_prune {ts kept : List Ty} (h : prune ts = some kept) : kept.Pairwise Coexist := by
  induction ts using prune.induct generalizing kept with
  | case1 =>
    rw [prune] at h
    cases h
    exact List.Pairwise.nil
  | case2 x xs hp =>
    rw [prune] at h
    split at h
    · cases h
    · rename_i hp'
      rw [hp] at hp'
      cases hp'
  | case3 x xs stays rest hp ih =>
    rw [prune] at h
    split at h
    · cases h
    · rename_i hp'
      rw [hp] at hp'
      cases hp'
      obtain ⟨r, hr, rfl⟩ := Option.map_eq_some_iff.1 h
      cases stays with
      | false => exact ih hr
      | true =>
        have hx := coexist_pruneAgainst hp
        exact List.Pairwise.cons (fun y hy => hx y ((prune_sublist hr).subset hy)) (ih hr)

/-- What the members of a computed intersection have in common. Of members with the same text a shape is the last. -/
structure Met (members : List Ty) : Prop where
  present : absent ∉ members
  coexist : members.Pairwise Coexist
  shapeLast : members.Pairwise fun a b => a.isShape = true → a.print ≠ b.print

/-- Shapes merged stand alone and after the other types. -/
theorem gatherShapes_eq (meet : List Ty → Ty) (merged : Option Shape) (ts : List Ty) :
    ∃ shape : Option Shape,
      gatherShapes meet merged ts = ts.filter (fun t => !t.isShape) ++ (shape.map Shape.toTy).toList := by
  induction merged, ts using gatherShapes.induct meet with
  | case1 merged => exact ⟨merged, rfl⟩
  | case2 merged props index ts next ih => exact ih
  | case3 merged t ts hne ih =>
    obtain ⟨shape, hs⟩ := ih
    have ht : t.isShape = false := by
      cases t with
      | object props index => exact absurd rfl (hne props index)
      | _ => rfl
    refine ⟨shape, ?_⟩
    rw [gatherShapes, hs, List.filter_cons_of_pos (by rw [ht]; rfl), List.cons_append]
    exact hne

theorem shapeLast_gatherShapes (meet : List Ty → Ty) (merged : Option Shape) (ts : List Ty) :
    (gatherShapes meet merged ts).Pairwise fun a _ => a.isShape = false := by
  obtain ⟨shape, hs⟩ := gatherShapes_eq meet merged ts
  have others : ∀ t ∈ ts.filter (fun t => !t.isShape), t.isShape = false := fun t ht => by
    simpa using (List.mem_filter.1 ht).2
  rw [hs, List.pairwise_append]
  refine ⟨List.pairwise_of_forall_mem_list fun a ha _ _ => others a ha, ?_, fun a ha _ _ => others a ha⟩
  cases shape with
  | none => exact List.Pairwise.nil
  | some s => exact List.pairwise_singleton _ _

theorem absent_not_mem_gatherShapes {meet : List Ty → Ty} {merged : Option Shape} {ts : List Ty} (h : absent ∉ ts) :
    absent ∉ gatherShapes meet merged ts := by
  obtain ⟨shape, hs⟩ := gatherShapes_eq meet merged ts
  rw [hs]
  intro ha
  rcases List.mem_append.1 ha with ha | ha
  · exact h (List.mem_filter.1 ha).1
  · cases shape with
    | none => cases ha
    | some s => cases List.mem_singleton.1 ha

theorem isMeetMember_gatherShapes {meet : List Ty → Ty} {merged : Option Shape} {ts : List Ty}
    (h : ∀ t ∈ ts, t.isMeetMember = true) : ∀ t ∈ gatherShapes meet merged ts, t.isMeetMember = true := by
  obtain ⟨shape, hs⟩ := gatherShapes_eq meet merged ts
  rw [hs]
  intro t ht
  rcases List.mem_append.1 ht with ht | ht
  · exact h t (List.mem_filter.1 ht).1
  · cases shape with
    | none => cases ht
    | some s =>
      cases List.mem_singleton.1 ht
      rfl

theorem absent_not_mem_knownMembers (ts : List Ty) : absent ∉ knownMembers ts := by
  intro h
  obtain ⟨t, -, ht⟩ := mem_meetMembersAll (List.mem_filter.1 h).1
  exact absent_not_mem_meetMembers t ht

/-- Pruning and sorting keep shapes behind other types of the same text. -/
theorem met_sortByText {ts kept : List Ty} (hp : prune (distinct [] ts) = some kept) (ha : absent ∉ ts)
    (hs : ts.Pairwise fun a _ => a.isShape = false) : Met (sortByText kept) := by
  have sub : kept.Sublist ts := (prune_sublist hp).trans (distinct_sublist [] ts)
  refine ⟨fun h => ha (sub.subset (mem_sortByText.1 h)),
    (sortByText_perm kept).symm.pairwise (coexist_prune hp) Coexist.symm, ?_⟩
  rw [List.pairwise_iff_forall_sublist]
  intro a b hab sa he
  have pair : [a, b].filter (fun t => t.print = b.print) = [a, b] := by simp [he]
  have inOrder := hab.filter fun t => decide (t.print = b.print)
  rw [pair, sortByText_stable] at inOrder
  have := List.pairwise_iff_forall_sublist.1 (hs.sublist sub) (inOrder.trans List.filter_sublist)
  rw [sa] at this
  cases this

/-! ### Properties of intersections -/

/-- Intersections hand the property on from the types that they are made of. -/
structure Meeting (P : Ty → Prop) : Prop where
  never : P never
  emptyObject : P emptyObject
  unionMember : ∀ {ms m}, P (union ms) → m ∈ ms → P m
  unionOf : ∀ {ts}, (∀ t ∈ ts, P t) → P (unionOf ts)
  meetMember : ∀ {ms m}, P (intersection ms) → m ∈ ms → P m
  meet : ∀ {ms}, (∀ m ∈ ms, P m) → Met ms → 2 ≤ ms.length → (∀ m ∈ ms, m.isMeetMember = true) → P (intersection ms)
  merge : ∀ {meet a b}, (∀ x y, P x → P y → P (meet [x, y])) → P a.toTy → P b.toTy → P (mergeShapes meet a b).toTy

namespace Meeting
variable {P : Ty → Prop} (M : Meeting P)
include M

theorem knownMembers {ts : List Ty} (ht : ∀ t ∈ ts, P t) : ∀ u ∈ knownMembers ts, P u :=
  knownMembers_forall (fun h _ => M.meetMember h) ht

theorem closeMeet {ts : List Ty} (ht : ∀ t ∈ ts, P t) (ha : absent ∉ ts)
    (hs : ts.Pairwise fun a _ => a.isShape = false) (hm : ∀ t ∈ ts, t.isMeetMember = true) : P (closeMeet ts) := by
  unfold Ty.closeMeet
  split
  · exact M.never
  · exact M.emptyObject
  · rename_i t hp
    exact ht t ((distinct_sublist _ _).subset ((prune_sublist hp).subset (List.mem_singleton_self t)))
  · rename_i kept h₀ h₁ hp
    have sub : ∀ {m}, m ∈ sortByText kept → m ∈ ts := fun hm =>
      (distinct_sublist _ _).subset ((prune_sublist hp).subset (mem_sortByText.1 hm))
    refine M.meet (fun m hm => ht m (sub hm)) (met_sortByText hp ha hs) ?_ fun m h => hm m (sub h)
    rw [(sortByText_perm _).length_eq]
    exact two_le_length h₀ h₁

section Merging
variable {meet : List Ty → Ty} (hmeet : ∀ a b, P a → P b → P (meet [a, b]))
include hmeet

theorem gatherShapes {merged : Option Shape} {ts : List Ty} (hmerged : ∀ s, merged = some s → P s.toTy)
    (ht : ∀ t ∈ ts, P t) : ∀ u ∈ gatherShapes meet merged ts, P u :=
  gatherShapes_forall (M.merge hmeet) hmerged ht

theorem closeGathered {ts : List Ty} (hm : ∀ t ∈ Ty.knownMembers ts, t.isMeetMember = true) (ht : ∀ t ∈ ts, P t) :
    P (Ty.closeMeet (Ty.gatherShapes meet none (Ty.knownMembers ts))) :=
  M.closeMeet (M.gatherShapes hmeet nofun (M.knownMembers ht))
    (absent_not_mem_gatherShapes (absent_not_mem_knownMembers ts)) (shapeLast_gatherShapes meet none _)
    (isMeetMember_gatherShapes hm)

end Merging

/-- A member of a union in the place of the union. -/
theorem splitMember {before members after : List Ty} {m : Ty} (h : ∀ u ∈ before ++ union members :: after, P u)
    (hm : m ∈ members) : ∀ u ∈ before ++ m :: after, P u :=
  forall_splitMember h fun hu => M.unionMember hu hm

theorem meetAt {level : Nat} {ts : List Ty} (ht : ∀ t ∈ ts, P t) : P (meetAt level ts) := by
  induction level, ts using meetAt.induct with
  | case1 level ts hnever =>
    rw [Ty.meetAt.eq_def, if_pos hnever]
    exact M.never
  | case2 level ts hnever hany =>
    rw [Ty.meetAt.eq_def, if_neg hnever, if_pos hany]
    obtain ⟨u, hu, he⟩ := List.any_eq_true.1 hany
    have := M.knownMembers ht u hu
    cases u <;> first | exact this | cases he
  | case3 level ts hnever hany before members after hu ih =>
    have known := M.knownMembers ht
    rw [splitAtUnion_eq_some hu] at known
    rw [meetAt_union hnever hany hu]
    refine M.unionOf fun t ht => ?_
    obtain ⟨m, hm, rfl⟩ := List.mem_map.1 ht
    exact ih m hm (M.splitMember known hm)
  | case4 ts hnever hany hu =>
    rw [meetAt_zero hnever hany hu]
    exact M.closeGathered (fun _ _ _ _ => M.never) (isMeetMember_of_known hnever hany hu) ht
  | case5 ts hnever hany hu level ih =>
    rw [meetAt_succ hnever hany hu]
    refine M.closeGathered (fun a b ha hb => ih [a, b] fun t ht => ?_) (isMeetMember_of_known hnever hany hu) ht
    rcases List.mem_cons.1 ht with rfl | ht
    · exact ha
    · exact List.mem_singleton.1 ht ▸ hb

end Meeting

/-! ### Inherited properties -/

/-- The type is known and stands for itself: it is put together from parts and is neither a union nor an
    intersection. -/
def isStructural : Ty → Bool
  | union _ | intersection _ | param .. | infer .. | conditional .. | reference .. | keyOf _ | access .. | mapping .. =>
    false
  | _ => true

/-- The normalising constructors hand the property on from parts to results. -/
structure Inherited (P : Ty → Prop) : Prop where
  part : ∀ {t u}, t.isStructural = true → P t → u ∈ t.parts → P u
  build : ∀ {t}, t.isStructural = true → (∀ u ∈ t.parts, P u) → P t
  unionMember : ∀ {ms m}, P (union ms) → m ∈ ms → P m
  union : ∀ {ms}, (∀ m ∈ ms, P m) → absent ∉ ms → P (union ms)
  meetMember : ∀ {ms m}, P (intersection ms) → m ∈ ms → P m
  meet : ∀ {ms}, (∀ m ∈ ms, P m) → Met ms → P (intersection ms)

theorem inherited_true : Inherited fun _ => True :=
  ⟨fun _ _ _ => trivial, fun _ _ => trivial, fun _ _ => trivial, fun _ _ => trivial, fun _ _ => trivial,
    fun _ _ => trivial⟩

namespace Inherited
variable {P : Ty → Prop} (h : Inherited P)
include h

theorem leaf {t : Ty} (ht : t.isStructural = true) (hp : t.parts = []) : P t :=
  h.build ht fun u hu => by
    rw [hp] at hu
    cases hu

theorem literal (base : Prim) (text : String) : P (.literal base text) := h.leaf rfl rfl

/-! ### Unions -/

theorem unionMembers {t : Ty} (ht : P t) : ∀ u ∈ t.unionMembers, P u :=
  unionMembers_forall (fun hm _ => h.unionMember hm) t ht

theorem unionOf {ts : List Ty} (ht : ∀ t ∈ ts, P t) : P (unionOf ts) := by
  have kept : ∀ u ∈ distinct [] ((unionMembersAll ts).filter fun t => !isRedundantIn (unionMembersAll ts) t),
      P u ∧ u ≠ absent := by
    intro u hu
    obtain ⟨t, htm, hu⟩ := mem_unionMembersAll (List.mem_filter.1 ((distinct_sublist _ _).subset hu)).1
    refine ⟨h.unionMembers (ht t htm) u hu, ?_⟩
    rintro rfl
    exact absent_not_mem_unionMembers t hu
  unfold Ty.unionOf
  dsimp only
  split
  · exact h.leaf rfl rfl
  · split
    · exact h.leaf rfl rfl
    · split
      · exact h.leaf rfl rfl
      · rename_i t he
        exact (kept t (he ▸ List.mem_singleton_self t)).1
      · refine h.union (fun m hm => (kept m (mem_sortByText.1 hm)).1) fun ha => ?_
        exact (kept absent (mem_sortByText.1 ha)).2 rfl

theorem unionOf_pair {a b : Ty} (ha : P a) (hb : P b) : P (Ty.unionOf [a, b]) := by
  refine h.unionOf fun t ht => ?_
  rcases List.mem_cons.1 ht with rfl | ht
  · exact ha
  · exact List.mem_singleton.1 ht ▸ hb

/-! ### Templates -/

omit h in
theorem pushText {done : List (Segment Ty)} (hd : ∀ t ∈ holes done, P t) (s : String) :
    ∀ t ∈ holes (pushText done s), P t := by
  unfold Ty.pushText
  split
  · exact hd
  · split <;> exact hd

omit h in
theorem pushSegments {done : List (Segment Ty)} (hd : ∀ t ∈ holes done, P t) :
    {inner : List (Segment Ty)} → (∀ t ∈ holes inner, P t) → ∀ t ∈ holes (pushSegments done inner), P t
  | [], _ => hd
  | .text s :: _, hi => pushSegments (pushText hd s) hi
  | .hole u :: _, hi => by
    have hd' : ∀ t ∈ holes (.hole u :: done), P t := by
      intro t ht
      rcases List.mem_cons.1 ht with rfl | ht
      · exact hi t List.mem_cons_self
      · exact hd t ht
    exact pushSegments hd' fun t ht => hi t (List.mem_cons_of_mem _ ht)

theorem closeTemplate {segments : List (Segment Ty)} (hs : ∀ t ∈ holes segments, P t) :
    P (Ty.closeTemplate segments) := by
  unfold Ty.closeTemplate
  split
  · exact h.leaf rfl rfl
  · exact h.leaf rfl rfl
  · exact h.leaf rfl rfl
  · exact h.build rfl hs

theorem splicing : Splicing P P fun done => ∀ t ∈ holes done, P t where
  never := h.leaf rfl rfl
  unionMember := h.unionMember
  unionOf := h.unionOf
  text := pushText
  inline hd hi := pushSegments hd fun _ ht => h.part rfl hi ht
  hole hd ht _ := List.forall_mem_cons.2 ⟨ht, hd⟩
  close hd := h.closeTemplate fun t ht => hd t (by rwa [holes_reverse, List.mem_reverse] at ht)

theorem templateOf {segments : List (Segment Ty)} (hs : ∀ t ∈ holes segments, P t) : P (templateOf segments) :=
  h.splicing.templateAfter nofun hs

/-! ### Shapes -/

theorem object {props : List (Property Ty)} {index : Option (IndexSignature Ty)} :
    P (.object props index) ↔ (∀ p ∈ props, P p.type) ∧ ∀ i, index = some i → P i.value := by
  constructor
  · intro ho
    refine ⟨fun p hp => h.part rfl ho (List.mem_append_left _ (List.mem_map_of_mem hp)), ?_⟩
    rintro i rfl
    exact h.part rfl ho (List.mem_append_right _ List.mem_cons_self)
  · rintro ⟨hp, hi⟩
    refine h.build rfl fun u hu => ?_
    rcases List.mem_append.1 hu with hu | hu
    · obtain ⟨p, hm, rfl⟩ := List.mem_map.1 hu
      exact hp p hm
    · cases index with
      | none => cases hu
      | some i => exact List.mem_singleton.1 hu ▸ hi i rfl

theorem ofProps {props : List (Property Ty)} {index : Option (IndexSignature Ty)} (hp : ∀ p ∈ props, P p.type)
    (hi : ∀ i, index = some i → P i.value) : P (Shape.ofProps props index).toTy :=
  h.object.2 ⟨fun p hm => hp p (Shape.mem_ofProps hm), hi⟩

/-! ### Intersections -/

theorem mergeShapes {meet : List Ty → Ty} (hmeet : ∀ a b, P a → P b → P (meet [a, b])) {a b : Shape} (ha : P a.toTy)
    (hb : P b.toTy) : P (mergeShapes meet a b).toTy :=
  h.object.2 (parts_toTy_forall.1
    (parts_mergeShapes hmeet (parts_toTy_forall.2 (h.object.1 ha)) (parts_toTy_forall.2 (h.object.1 hb))))

theorem meeting : Meeting P :=
  ⟨h.leaf rfl rfl, h.leaf rfl rfl, h.unionMember, h.unionOf, h.meetMember,
    fun hm hc _ _ => h.meet hm hc, fun hmeet => h.mergeShapes hmeet⟩

theorem meetOf {ts : List Ty} (ht : ∀ t ∈ ts, P t) : P (meetOf ts) := h.meeting.meetAt ht

/-! ### Rebuilding -/

section Rebuild
variable {m : Type → Type} [Monad m] [LawfulMonad m] (R : Results m) {f : Ty → m Ty}

/-- A type rebuilt from parts with an inherited property has it, if it is neither a parameter nor a conditional.
    What the constructors do not look into, such as a reference, is left to `kept`. -/
theorem rebuild {t : Ty} (hparam : t.isParam = false) (hcond : t.isConditional = false)
    (kept : ∀ {u}, u.kind? = t.kind? → (∀ v ∈ u.parts, P v) → u.isPending = true ∨ u.kind? = some .reference → P u)
    (hf : ∀ u ∈ t.parts, R.All P (f u)) : R.All P (t.rebuild f) := by
  have rebuilds : Rebuilds P P t := by
    refine ⟨fun ht => ?_, fun {u} hu he hp => ?_, fun _ => h.unionOf, fun _ => h.meetOf, fun _ => h.templateOf,
      fun _ hp hi => h.ofProps hp fun i he => (hi i he).1⟩
    · cases t with
      | absent | any | unknown | void | never | prim | literal => exact h.leaf rfl rfl
      | _ => simp [isAtom] at ht
    · cases u with
      | array | tuple | function => exact h.build rfl hp
      | infer | keyOf | access | mapping => exact kept he hp (.inl rfl)
      | reference => exact kept he hp (.inr rfl)
      | _ => cases hu
  exact rebuilds.results R hparam hcond hf

end Rebuild
end Inherited

/-! ### Properties of all nodes -/

theorem sizeOf_lt_of_child {t u : Ty} (h : u ∈ t.children) : sizeOf u < sizeOf t := by
  have listed : ∀ {ts : List Ty}, u ∈ ts → sizeOf u < sizeOf ts := List.sizeOf_lt_of_mem
  cases t with
  | template segments =>
    obtain ⟨s, hs, he⟩ := List.mem_filterMap.1 h
    have := List.sizeOf_lt_of_mem hs
    cases s with
    | text => cases he
    | hole v =>
      cases he
      rw [Segment.hole.sizeOf_spec] at this
      rw [template.sizeOf_spec]
      omega
  | object props index =>
    rw [object.sizeOf_spec]
    rcases List.mem_append.1 h with h | h
    · obtain ⟨p, hp, rfl⟩ := List.mem_map.1 h
      have := List.sizeOf_lt_of_mem hp
      cases p
      rw [Property.mk.sizeOf_spec] at this
      dsimp only
      omega
    · cases index with
      | none => cases h
      | some i =>
        cases i
        obtain rfl := List.mem_singleton.1 h
        rw [Option.some.sizeOf_spec, IndexSignature.mk.sizeOf_spec]
        omega
  | infer name constraint =>
    obtain rfl : u = constraint := by
      cases constraint with
      | absent => cases h
      | _ => exact List.mem_singleton.1 h
    rw [infer.sizeOf_spec]
    omega
  | function params result =>
    rw [function.sizeOf_spec]
    rcases List.mem_append.1 h with h | h
    · have : sizeOf u < sizeOf params := listed h
      omega
    · rw [List.mem_singleton.1 h]
      omega
  | tuple ts | union ts | intersection ts | reference _ ts =>
    have : sizeOf u < sizeOf ts := listed h
    simp only [tuple.sizeOf_spec, union.sizeOf_spec, intersection.sizeOf_spec, reference.sizeOf_spec]
    omega
  | any | unknown | void | never | prim | literal | absent => cases h
  | _ =>
    simp only [children, parts, List.mem_cons, List.not_mem_nil, or_false] at h
    simp only [array.sizeOf_spec, param.sizeOf_spec, conditional.sizeOf_spec, keyOf.sizeOf_spec, access.sizeOf_spec,
      mapping.sizeOf_spec]
    rcases h with rfl | rfl | rfl | rfl <;> omega

/-- What holds of a type as soon as it holds of its children holds of all types. -/
theorem children_induction {P : Ty → Prop} (step : ∀ t, (∀ u ∈ t.children, P u) → P t) (t : Ty) : P t := by
  induction hn : sizeOf t using Nat.strongRecOn generalizing t with
  | ind n ih =>
    subst hn
    exact step t fun u hu => ih _ (sizeOf_lt_of_child hu) u rfl

/-- Every node of the tree has a property, where `sub` tells which subtrees of a node count. -/
inductive Throughout (sub : Ty → List Ty) (p : Ty → Prop) : Ty → Prop
  | mk {t : Ty} : p t → (∀ u ∈ sub t, Throughout sub p u) → Throughout sub p t

section Throughout
variable {sub : Ty → List Ty} {p q : Ty → Prop} {t u : Ty}

theorem Throughout.node : Throughout sub p t → p t
  | mk hp _ => hp

theorem Throughout.under : Throughout sub p t → u ∈ sub t → Throughout sub p u
  | mk _ hs, hu => hs u hu

theorem Throughout.imp (h : ∀ t, p t → q t) (ht : Throughout sub p t) : Throughout sub q t := by
  induction ht with
  | mk hp _ ih => exact ⟨h _ hp, ih⟩

/-- A property of all nodes is inherited if it looks into the parts of known types and its nodes have it there. -/
theorem inherited_throughout
    (hsub : ∀ {t : Ty}, t.isStructural = true → sub t = t.parts) (hunion : ∀ ms, sub (union ms) = ms)
    (hmeet : ∀ ms, sub (intersection ms) = ms) (hp : ∀ {t : Ty}, t.isStructural = true → p t)
    (hpunion : ∀ {ms}, absent ∉ ms → p (union ms)) (hpmeet : ∀ {ms}, Met ms → p (intersection ms)) :
    Inherited (Throughout sub p) where
  part ht h hu := h.under (by rwa [hsub ht])
  build ht hu := ⟨hp ht, fun u h => hu u (by rwa [hsub ht] at h)⟩
  unionMember h hm := h.under (by rwa [hunion])
  union hm ha := ⟨hpunion ha, fun u h => hm u (by rwa [hunion] at h)⟩
  meetMember h hm := h.under (by rwa [hmeet])
  meet hm hc := ⟨hpmeet hc, fun u h => hm u (by rwa [hmeet] at h)⟩

end Throughout
end TypeCalculus.Ty

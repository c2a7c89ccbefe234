import TypeCalculus.Proofs.Ty.Renamed.Constructors

/-! Intersections of renamed types. Which members an intersection keeps depends on their order, and so on their texts, where
    shapes are merged and known types are compared. It does not where these are the same types on both sides, and the
    members whose names change stand on their own (`renamed_meetOf`). -/

namespace TypeCalculus.Ty

/-! ### Names told apart -/

theorem eq_of_map_eq {α β : Type} {f : α → β} {xs ys : List α} (h : ∀ x ∈ xs, ∀ y ∈ ys, f x = f y → x = y)
    (he : xs.map f = ys.map f) : xs = ys := by
  induction xs generalizing ys with
  | nil =>
    cases ys with
    | nil => rfl
    | cons => cases he
  | cons x xs ih =>
    cases ys with
    | nil => cases he
    | cons y ys =>
      obtain ⟨hx, hxs⟩ := List.cons.inj he
      rw [h x List.mem_cons_self y List.mem_cons_self hx,
        ih (fun a ha b hb => h a (List.mem_cons_of_mem _ ha) b (List.mem_cons_of_mem _ hb)) hxs]

/-- The free names of the tree are among the given ones, and its conditionals and placeholders stay as they are. -/
structure Loose (φ : String → String) (A : Set String) (t : Ty) : Prop where
  free : ∀ n, Free n t → n ∈ A
  bound : Throughout parts (fun u => u.isConditional = true ∨ u.isInfer = true → Fixes φ u) t

theorem inherited_free (A : Set String) : Inherited fun t => ∀ n, Free n t → n ∈ A where
  part ht h hu n hn := by_contra fun hA => (inherited_notFree n).part ht (fun hf => hA (h n hf)) hu hn
  build ht h n hn := by_contra fun hA => (inherited_notFree n).build ht (fun u hu hf => hA (h u hu n hf)) hn
  unionMember h hm n hn := by_contra fun hA => (inherited_notFree n).unionMember (fun hf => hA (h n hf)) hm hn
  union h ha n hn := by_contra fun hA => (inherited_notFree n).union (fun m hm hf => hA (h m hm n hf)) ha hn
  meetMember h hm n hn := by_contra fun hA => (inherited_notFree n).meetMember (fun hf => hA (h n hf)) hm hn
  meet h hm n hn := by_contra fun hA => (inherited_notFree n).meet (fun m hm hf => hA (h m hm n hf)) hm hn

theorem unbound_of_structural {t : Ty} (h : t.isStructural = true) : ¬(t.isConditional = true ∨ t.isInfer = true) := by
  rintro (hk | hk) <;> cases t <;> first | (cases h; done) | cases hk

theorem inherited_bound (φ : String → String) :
    Inherited (Throughout parts fun u => u.isConditional = true ∨ u.isInfer = true → Fixes φ u) :=
  inherited_throughout (fun _ => rfl) (fun _ => rfl) (fun _ => rfl)
    (fun ht hk => absurd hk (unbound_of_structural ht))
    (fun _ h => by rcases h with h | h <;> cases h) fun _ h => by rcases h with h | h <;> cases h

theorem inherited_loose (φ : String → String) (A : Set String) : Inherited (Loose φ A) where
  part ht h hu := ⟨(inherited_free A).part ht h.free hu, (inherited_bound φ).part ht h.bound hu⟩
  build ht h := ⟨(inherited_free A).build ht fun u hu => (h u hu).free, (inherited_bound φ).build ht fun u hu => (h u hu).bound⟩
  unionMember h hm := ⟨(inherited_free A).unionMember h.free hm, (inherited_bound φ).unionMember h.bound hm⟩
  union h ha := ⟨(inherited_free A).union (fun m hm => (h m hm).free) ha, (inherited_bound φ).union (fun m hm => (h m hm).bound) ha⟩
  meetMember h hm := ⟨(inherited_free A).meetMember h.free hm, (inherited_bound φ).meetMember h.bound hm⟩
  meet h hm := ⟨(inherited_free A).meet (fun m hm => (h m hm).free) hm, (inherited_bound φ).meet (fun m hm => (h m hm).bound) hm⟩

section Names
variable {φ : String → String} {A : Set String} {a b t u : Ty}

theorem Loose.part (h : Loose φ A t) (hc : t.isConditional = false) (hu : u ∈ t.parts) : Loose φ A u :=
  ⟨fun n hn => h.free n (.part (by rwa [openParts_eq hc]) hn), h.bound.under hu⟩

theorem Fixes.loose (h : Fixes φ t) (hf : ∀ n, Free n t → n ∈ A) : Loose φ A t := by
  refine ⟨hf, ?_⟩
  clear hf
  induction h with
  | mk hn hp ih => exact ⟨fun _ => ⟨hn, hp⟩, ih⟩

theorem Fixes.erased (h : Fixes φ t) : Fixes φ t.erased := by
  rw [← rename_eq_self] at h ⊢
  rw [Ty.erased, ← annotated_rename, h]

theorem throughout_erased {p q : Ty → Prop} (h : ∀ u, p u → q u.erased) (ht : Throughout parts p t) :
    Throughout parts q t.erased := by
  induction ht with
  | @mk t hp _ ih =>
    refine ⟨h t hp, fun u hu => ?_⟩
    rw [parts_erased] at hu
    obtain ⟨v, hv, rfl⟩ := List.mem_map.1 hu
    exact ih v hv

theorem Loose.erased (h : Loose φ A t) : Loose φ A t.erased := by
  refine ⟨fun n hn => h.free n ?_, throughout_erased (fun u hu hk => (hu ?_).erased) h.bound⟩
  · rwa [← mem_freeParams, freeParams, ← freeInto_annotated bare, ← freeParams, mem_freeParams]
  · cases u <;> exact hk

/-- Trees in which names are told apart are told apart by their renamed trees. -/
theorem eq_of_rename (hA : Set.InjOn φ A) (ha : Loose φ A a) (hb : Loose φ A b) (h : a.rename φ = b.rename φ) : a = b := by
  induction a using parts_induction generalizing b with
  | step a ih =>
    have same : ∀ p : Ty → Bool, (∀ t, p (t.rename φ) = p t) → p a = p b := fun p hp => by rw [← hp a, h, hp]
    have params : a.isParam = b.isParam := same isParam fun t => by cases t <;> rfl
    have infers : a.isInfer = b.isInfer := same isInfer fun t => by cases t <;> rfl
    have conditionals : a.isConditional = b.isConditional := same isConditional fun t => by cases t <;> rfl
    by_cases hfixed : a.isConditional = true ∨ a.isInfer = true
    · rw [(ha.bound.node hfixed).rename_eq, (hb.bound.node (by rwa [← conditionals, ← infers])).rename_eq] at h
      exact h
    obtain ⟨ca, ia⟩ := not_or.1 hfixed
    rw [Bool.not_eq_true] at ca ia
    cases hp : a.isParam with
    | true =>
      cases a with
      | param n c d =>
        cases b with
        | param m c' d' =>
          obtain ⟨he, rfl, rfl⟩ := param.inj h
          rw [hA (ha.free n .here) (hb.free m .here) he]
        | _ => cases params
      | _ => cases hp
    | false =>
      have shells : a.shell id = b.shell id := by
        rw [← shell_unnamed (φ := φ) hp ia, ← shell_unnamed (φ := φ) (params ▸ hp) (infers ▸ ia), ← shell_rename, h, shell_rename]
      refine eq_of_shell hp shells (eq_of_map_eq (f := rename φ) (fun u hu v hv he => ?_) ?_)
      · exact ih u hu (ha.part ca hu) (hb.part (conditionals ▸ ca) hv) he
      · rw [← parts_rename, h, parts_rename]

/-- Renaming keeps trees in which names are told apart apart. -/
theorem identical_rename (hA : Set.InjOn φ A) (ha : Loose φ A a) (hb : Loose φ A b) :
    (a.rename φ).identical (b.rename φ) = a.identical b := by
  rw [Bool.eq_iff_iff, identical_iff, identical_iff, Ty.erased, annotated_rename, Ty.erased, annotated_rename]
  exact ⟨eq_of_rename hA ha.erased hb.erased, congrArg (rename φ)⟩

end Names

/-! ### What goes along with renaming -/

section Along
variable (φ : String → String)

theorem renameAll_append (xs ys : List Ty) : renameAll φ (xs ++ ys) = renameAll φ xs ++ renameAll φ ys := by
  rw [renameAll_eq, renameAll_eq, renameAll_eq, List.map_append]

theorem keepsKnown_rename : KeepsKnown (rename φ) := ⟨isConcrete_rename φ, fun _ h => (fixes_concrete φ h).rename_eq⟩

mutual

theorem meetMembers_rename : (t : Ty) → (t.rename φ).meetMembers = renameAll φ t.meetMembers
  | intersection ms => by simp only [rename, meetMembers, meetMembersAll_rename ms]
  | absent | any | unknown | void | never | prim _ | literal .. | template _ | object .. | array .. | tuple _
  | union _ | param .. | infer .. | conditional .. | reference .. | function .. | keyOf _ | access ..
  | mapping .. => by simp only [rename, meetMembers, renameAll]

theorem meetMembersAll_rename : (ts : List Ty) → meetMembersAll (renameAll φ ts) = renameAll φ (meetMembersAll ts)
  | [] => rfl
  | t :: ts => by
    rw [renameAll, meetMembersAll, meetMembersAll, renameAll_append, meetMembers_rename t, meetMembersAll_rename ts]

end

theorem knownMembers_rename (ts : List Ty) : knownMembers (renameAll φ ts) = renameAll φ (knownMembers ts) := by
  have unknown : ∀ t : Ty, (t.rename φ).isUnknown = t.isUnknown := fun t => by cases t <;> rfl
  rw [knownMembers, meetMembersAll_rename, knownMembers, renameAll_eq, renameAll_eq, List.filter_map]
  exact congrArg (List.map _ <| List.filter · _) (funext fun t => congrArg (!·) (unknown t))

theorem any_rename {p : Ty → Bool} (hp : ∀ t : Ty, p (t.rename φ) = p t) (ts : List Ty) : (renameAll φ ts).any p = ts.any p := by
  rw [renameAll_eq, List.any_map]
  exact congrArg (ts.any ·) (funext hp)

theorem splitAtUnion_rename (ts : List Ty) : splitAtUnion (renameAll φ ts) =
    (splitAtUnion ts).map fun e => (renameAll φ e.1, renameAll φ e.2.1, renameAll φ e.2.2) := by
  induction ts with
  | nil => rfl
  | cons t ts ih =>
    cases t with
    | union => rfl
    | _ =>
      rw [renameAll, rename, splitAtUnion, ih, splitAtUnion, Option.map_map, Option.map_map]
      · rfl
      all_goals
        intros
        contradiction

theorem knownNever_rename (ts : List Ty) : (knownMembers (renameAll φ ts)).any isNever = (knownMembers ts).any isNever := by
  rw [knownMembers_rename, any_rename φ fun t => by cases t <;> rfl]

theorem knownAny_rename (ts : List Ty) : (knownMembers (renameAll φ ts)).any isAny = (knownMembers ts).any isAny := by
  rw [knownMembers_rename, any_rename φ fun t => by cases t <;> rfl]

theorem splitKnown_rename (ts : List Ty) : splitAtUnion (knownMembers (renameAll φ ts)) =
    (splitAtUnion (knownMembers ts)).map fun e => (renameAll φ e.1, renameAll φ e.2.1, renameAll φ e.2.2) := by
  rw [knownMembers_rename, splitAtUnion_rename]

end Along

/-! ### Intersections -/

/-- Nothing merges, compares or splits the type in an intersection, as long as it is not known. -/
def isRigid : Ty → Bool
  | param .. | array .. | tuple _ | function .. | reference .. | keyOf _ | access .. | mapping .. => true
  | _ => false

/-- No name below a node that sorts its parts or binds names is mapped to another. -/
inductive Straight (φ : String → String) : Ty → Prop
  | fixed {t : Ty} : Fixes φ t → Straight φ t
  | node {t : Ty} : t.isRigid = true ∨ t.isShape = true → (∀ u ∈ t.parts, Straight φ u) → Straight φ t

theorem ofProps_rename (φ : String → String) (ps : List (Property Ty)) (i : Option (IndexSignature Ty)) :
    (Shape.ofProps ps i).toTy.rename φ = (Shape.ofProps (ps.map (renameProp φ)) (renameIndex φ i)).toTy := by
  refine congrArg₂ object ?_ rfl
  rw [renameProps_eq]
  exact Shape.map_ofProps (f := renameProp φ) (fun _ => rfl) ps i (renameIndex φ i)

/-- The results of a list renamed. -/
theorem mapM_rename {α β : Type} {φ : α → α} {ψ : β → β} {f g : α → Option β} {xs : List α} {ys : List β}
    (h : ∀ x ∈ xs, ∀ y, f x = some y → g (φ x) = some (ψ y)) (hys : xs.mapM f = some ys) :
    (xs.map φ).mapM g = some (ys.map ψ) := by
  obtain ⟨zs, hzs, same⟩ := mapM_partner (R := fun z y => z = ψ y) (fun x hx y hy => ⟨_, h x hx y hy, rfl⟩) hys
  have mapped : List.Forall₂ Eq zs (ys.map ψ) := List.forall₂_map_right_iff.2 same
  rw [List.forall₂_eq_eq_eq] at mapped
  exact mapped ▸ hzs

/-- A node that does not sort its parts is rebuilt as it is renamed. -/
theorem straight_rebuild {φ : String → String} {f g : Ty → Option Ty} {t u : Ty} (hr : t.isRigid = true ∨ t.isShape = true)
    (hp : t.isParam = false) (hf : ∀ v ∈ t.parts, ∀ w, f v = some w → g (v.rename φ) = some (w.rename φ))
    (h : t.rebuild f = some u) :
    (t.rename φ).rebuild g = some (u.rename φ) ∧ (t.isRigid = true → u.isRigid = true) := by
  have row : NodeForm t → NodeForm (t.rename φ) → t.isRow = true → t.isShape = false →
      (t.rename φ).rebuild g = some (u.rename φ) ∧ (t.isRigid = true → u.isRigid = true) := by
    intro hn hn' hrow hs
    obtain ⟨us, hus, -, rfl⟩ := rebuild_row_eq_some hn hrow h
    rw [rebuild_row hn' ((isRow_rename φ t).trans hrow), parts_rename, mapM_rename hf hus]
    refine ⟨congrArg some (refill_rename hrow hs us), fun h => ?_⟩
    cases t <;> exact h
  cases t with
  | param => cases hp
  | array | tuple | reference | function | keyOf | access | mapping =>
    exact row trivial trivial rfl rfl
  | object ps i =>
    obtain ⟨qs, hqs, h⟩ := Option.bind_eq_some_iff.1 h
    obtain ⟨j, hj, he⟩ := Option.bind_eq_some_iff.1 h
    cases he
    have props : (ps.map (renameProp φ)).mapM (mapProp g) = some (qs.map (renameProp φ)) := by
      refine mapM_rename (fun p hp q hq => ?_) hqs
      obtain ⟨w, hw, he⟩ := Option.bind_eq_some_iff.1 hq
      cases he
      exact Option.bind_eq_some_iff.2 ⟨_, hf p.type (List.mem_append_left _ (List.mem_map_of_mem hp)) w hw, rfl⟩
    have value : mapIndex g (renameIndex φ i) = some (renameIndex φ j) := by
      cases i with
      | none =>
        cases hj
        rfl
      | some i =>
        obtain ⟨w, hw, he⟩ := Option.bind_eq_some_iff.1 hj
        cases he
        exact Option.bind_eq_some_iff.2 ⟨_, hf i.value (List.mem_append_right _ List.mem_cons_self) w hw, rfl⟩
    rw [rename, renameProps_eq, ofProps_rename]
    exact ⟨Option.bind_eq_some_iff.2 ⟨_, props, Option.bind_eq_some_iff.2 ⟨_, value, rfl⟩⟩, nofun⟩
  | _ => rcases hr with hr | hr <;> cases hr

/-- A type that has a place in an intersection of renamed types. -/
structure Held (φ : String → String) (A : Set String) (t : Ty) : Prop where
  loose : Loose φ A t
  stands : Fixes φ t ∨ t.isRigid = true

section Meets
variable {φ : String → String} {A : Set String} (hA : Set.InjOn φ A)

theorem Held.union_stays {ms : List Ty} (h : Held φ A (union ms)) : Fixes φ (union ms) :=
  h.stands.resolve_right Bool.false_ne_true

theorem Held.unionMember {ms : List Ty} {m : Ty} (h : Held φ A (union ms)) (hm : m ∈ ms) : Held φ A m :=
  ⟨(inherited_loose φ A).unionMember h.loose hm, .inl ((inherited_fixes φ).unionMember h.union_stays hm)⟩

theorem Held.members {ts : List Ty} (h : ∀ t ∈ ts, Held φ A t) : ∀ t ∈ knownMembers ts, Held φ A t := by
  refine knownMembers_forall (P := Held φ A) (fun {ms} h m hm => ?_) h
  refine ⟨(inherited_loose φ A).meetMember h.loose hm, .inl ?_⟩
  rcases h.stands with hf | hr
  · exact (inherited_fixes φ).meetMember hf hm
  · cases hr

/-- Shapes are merged with shapes that stay, so they stay. -/
theorem gatherShapes_rename {merged : Option Shape} {ts : List Ty} (hm : ∀ s, merged = some s → Fixes φ s.toTy)
    (h : ∀ t ∈ ts, Held φ A t) {meet : List Ty → Ty} (hmeet : ∀ a b, Fixes φ a → Fixes φ b → Fixes φ (meet [a, b])) :
    gatherShapes meet merged (renameAll φ ts) = renameAll φ (gatherShapes meet merged ts) := by
  induction merged, ts using gatherShapes.induct meet with
  | case1 merged =>
    cases merged with
    | none => rfl
    | some s => exact congrArg (· :: []) (hm s rfl).rename_eq.symm
  | case2 merged props index ts next ih =>
    obtain ⟨ho, h⟩ := List.forall_mem_cons.1 h
    have stays : Fixes φ (object props index) := ho.stands.resolve_right Bool.false_ne_true
    rw [renameAll, stays.rename_eq]
    cases merged with
    | none =>
      refine ih (fun s hs => ?_) h
      obtain rfl := Option.some.inj hs
      exact stays
    | some s =>
      refine ih (fun s' hs => ?_) h
      obtain rfl := Option.some.inj hs
      exact (inherited_fixes φ).mergeShapes hmeet (hm s rfl) stays
  | case3 merged t ts hne ih =>
    obtain ⟨-, h⟩ := List.forall_mem_cons.1 h
    have hne' : ∀ props index, t.rename φ = object props index → False := by
      intro props index he
      cases t with
      | object => exact hne _ _ rfl
      | _ => cases he
    rw [renameAll, gatherShapes, gatherShapes, renameAll, ih hm h]
    · exact hne
    · exact hne'

include hA

theorem distinct_rename {seen ts : List Ty} (hs : ∀ t ∈ seen, Loose φ A t) (ht : ∀ t ∈ ts, Loose φ A t) :
    distinct (renameAll φ seen) (renameAll φ ts) = renameAll φ (distinct seen ts) := by
  induction ts generalizing seen with
  | nil => rfl
  | cons t ts ih =>
    rw [List.forall_mem_cons] at ht
    have same : (renameAll φ seen).any (·.identical (t.rename φ)) = seen.any (·.identical t) := by
      rw [renameAll_eq, List.any_map, Bool.eq_iff_iff, List.any_eq_true, List.any_eq_true]
      exact exists_congr fun u => and_congr_right fun hu => by
        rw [Function.comp_apply, identical_rename hA (hs u hu) ht.1]
    rw [renameAll, distinct, distinct, same]
    split
    · exact ih hs ht.2
    · rw [renameAll, ← ih (List.forall_mem_cons.2 ⟨ht.1, hs⟩) ht.2, renameAll]

theorem renamed_closeMeet {ts : List Ty} (h : ∀ t ∈ ts, Loose φ A t) : Renamed φ (closeMeet (renameAll φ ts)) (closeMeet ts) := by
  have kept : distinct [] (renameAll φ ts) = renameAll φ (distinct [] ts) := distinct_rename hA (List.forall_mem_nil _) h
  unfold closeMeet
  rw [kept, renameAll_eq, prune_map (keepsKnown_rename φ)]
  cases prune (distinct [] ts) with
  | none => exact renamed_atom φ rfl
  | some kept =>
    match kept with
    | [] => exact renamed_rename φ emptyObject
    | [t] => exact renamed_rename φ t
    | t :: u :: us =>
      refine Matches.renamed (RenamedNode.intersection ?_)
      have mapped : annotatedAll bare ((t :: u :: us).map (rename φ)) = (annotatedAll bare (t :: u :: us)).map (rename φ) := by
        rw [← renameAll_eq, annotatedAll_rename, renameAll_eq]
      have left := (sortByText_perm ((t :: u :: us).map (rename φ))).map (annotated bare)
      have right := ((sortByText_perm (t :: u :: us)).map (annotated bare)).map (rename φ)
      simp only [annotatedAll_eq] at mapped ⊢
      exact left.trans (mapped ▸ right.symm)

theorem renamed_closeGathered {meet : List Ty → Ty} {ts : List Ty} (h : ∀ t ∈ ts, Held φ A t)
    (hf : ∀ a b, Fixes φ a → Fixes φ b → Fixes φ (meet [a, b]))
    (hl : ∀ a b, Loose φ A a → Loose φ A b → Loose φ A (meet [a, b])) :
    Renamed φ (closeMeet (gatherShapes meet none (knownMembers (renameAll φ ts))))
      (closeMeet (gatherShapes meet none (knownMembers ts))) := by
  rw [knownMembers_rename, gatherShapes_rename (by nofun) (Held.members h) hf]
  exact renamed_closeMeet hA ((inherited_loose φ A).meeting.gatherShapes hl nofun fun t ht => (Held.members h t ht).loose)

theorem renamed_meetAt (level : Nat) {ts : List Ty} (h : ∀ t ∈ ts, Held φ A t) :
    Renamed φ (meetAt level (renameAll φ ts)) (meetAt level ts) := by
  have pair : ∀ {P : Ty → Prop} {a b : Ty}, P a → P b → ∀ t ∈ [a, b], P t := fun ha hb =>
    List.forall_mem_cons.2 ⟨ha, List.forall_mem_singleton.2 hb⟩
  induction level, ts using meetAt.induct with
  | case1 level ts hnever =>
    rw [meetAt.eq_def, if_pos ((knownNever_rename φ ts).trans hnever), meetAt.eq_def, if_pos hnever]
    exact renamed_atom φ rfl
  | case2 level ts hnever hany =>
    rw [meetAt.eq_def, if_neg ((knownNever_rename φ ts).symm ▸ hnever), if_pos ((knownAny_rename φ ts).trans hany),
      meetAt.eq_def, if_neg hnever, if_pos hany]
    exact renamed_atom φ rfl
  | case3 level ts hnever hany before members after hu ih =>
    have hu' := (splitKnown_rename φ ts).trans (congrArg _ hu)
    rw [meetAt_union ((knownNever_rename φ ts).symm ▸ hnever) ((knownAny_rename φ ts).symm ▸ hany) hu',
      meetAt_union hnever hany hu]
    have held := Held.members h
    rw [splitAtUnion_eq_some hu] at held
    have whole := held (union members) (List.mem_append_right _ List.mem_cons_self)
    have stays : ∀ m ∈ members, Fixes φ m := fun m hm => (inherited_fixes φ).unionMember whole.union_stays hm
    dsimp only
    rw [renameAll_self fun m hm => (stays m hm).rename_eq]
    refine renamed_unionOf_forall₂ ?_
    rw [List.forall₂_map_left_iff, List.forall₂_map_right_iff]
    refine List.forall₂_same.2 fun m hm => ?_
    have := ih m hm (forall_splitMember held fun whole => whole.unionMember hm)
    rwa [renameAll_append, renameAll, (stays m hm).rename_eq] at this
  | case4 ts hnever hany hu =>
    rw [meetAt_zero ((knownNever_rename φ ts).symm ▸ hnever) ((knownAny_rename φ ts).symm ▸ hany)
      ((splitKnown_rename φ ts).trans (congrArg _ hu)), meetAt_zero hnever hany hu]
    exact renamed_closeGathered hA h (fun _ _ _ _ => (inherited_fixes φ).leaf rfl rfl)
      fun _ _ _ _ => (inherited_loose φ A).leaf rfl rfl
  | case5 ts hnever hany hu level ih =>
    rw [meetAt_succ ((knownNever_rename φ ts).symm ▸ hnever) ((knownAny_rename φ ts).symm ▸ hany)
      ((splitKnown_rename φ ts).trans (congrArg _ hu)), meetAt_succ hnever hany hu]
    exact renamed_closeGathered hA h (fun _ _ ha hb => (inherited_fixes φ).meeting.meetAt (pair ha hb))
      fun _ _ ha hb => (inherited_loose φ A).meeting.meetAt (pair ha hb)

/-- The intersection of renamed types is that of the types, renamed, where the types stand on their own or stay. -/
theorem renamed_meetOf {ts : List Ty} (h : ∀ t ∈ ts, Held φ A t) : Renamed φ (meetOf (renameAll φ ts)) (meetOf ts) := by
  have depth : shapeDepthAll (renameAll φ ts) = shapeDepthAll ts := by
    have each : ∀ t ∈ ts, (t.rename φ).shapeDepth = t.shapeDepth := by
      intro t ht
      rcases (h t ht).stands with hf | hr
      · rw [hf.rename_eq]
      · cases t <;> first | rfl | cases hr
    clear h
    induction ts with
    | nil => rfl
    | cons t ts ih =>
      rw [List.forall_mem_cons] at each
      rw [renameAll, shapeDepthAll, shapeDepthAll, each.1, ih each.2]
  rw [meetOf, depth]
  exact renamed_meetAt hA _ h

end Meets
end TypeCalculus.Ty

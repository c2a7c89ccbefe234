import TypeCalculus.Proofs.Ty.Inherited

/-! Every level that reaches down to the innermost shape with members gives the same meet (`meetAt_eq_meetOf`). Meets
    put no shape deeper than it was, so a level that is enough for some types is enough for what is made of them. -/

namespace TypeCalculus.Ty

/-- Nothing is merged before the first shape. -/
theorem unmerged {P : Shape → Prop} : ∀ s : Shape, none = some s → P s := fun s h => absurd h.symm (Option.some_ne_none s)

/-! ### Shapes nest no deeper -/

section Nest
variable {n level : Nat} {ts : List Ty}

theorem nest_union_member {ms : List Ty} (h : (union ms).nest ≤ n) : ∀ m ∈ ms, m.nest ≤ n := nestAll_le.1 h

theorem nest_meet_member {ms : List Ty} (h : (intersection ms).nest ≤ n) : ∀ m ∈ ms, m.nest ≤ n := nestAll_le.1 h

theorem nest_shape {s : Shape} : s.toTy.nest ≤ n + 1 ↔ ∀ u ∈ s.toTy.parts, u.nest ≤ n :=
  nest_object_succ.trans (parts_toTy_forall (P := fun u => u.nest ≤ n)).symm

theorem nest_unionOf (h : ∀ t ∈ ts, t.nest ≤ n) : (unionOf ts).nest ≤ n :=
  unionOf_forall (P := fun t => t.nest ≤ n) (Nat.zero_le _) nest_union_member nestAll_le.2 h

theorem nest_knownMembers (h : ∀ t ∈ ts, t.nest ≤ n) : ∀ u ∈ knownMembers ts, u.nest ≤ n :=
  knownMembers_forall (P := fun t => t.nest ≤ n) nest_meet_member h

theorem nest_closeMeet (h : ∀ t ∈ ts, t.nest ≤ n) : (closeMeet ts).nest ≤ n := by
  have kept : ∀ {us : List Ty}, prune (distinct [] ts) = some us → ∀ u ∈ us, u.nest ≤ n := fun hp u hu =>
    h u ((distinct_sublist _ _).subset ((prune_sublist hp).subset hu))
  unfold closeMeet
  split
  · exact Nat.zero_le _
  · exact Nat.zero_le _
  · rename_i t hp
    exact kept hp t List.mem_cons_self
  · rename_i us _ _ hp
    exact nestAll_le.2 fun u hu => kept hp u (mem_sortByText.1 hu)

theorem nest_mergeShapes {meet : List Ty → Ty} (hmeet : ∀ x y : Ty, x.nest ≤ n → y.nest ≤ n → (meet [x, y]).nest ≤ n)
    {a b : Shape} (ha : a.toTy.nest ≤ n + 1) (hb : b.toTy.nest ≤ n + 1) : (mergeShapes meet a b).toTy.nest ≤ n + 1 :=
  nest_shape.2 (parts_mergeShapes hmeet (nest_shape.1 ha) (nest_shape.1 hb))

/-- A member of a union in the place of the union nests no deeper. -/
theorem nest_splitMember {before members after : List Ty} {m : Ty}
    (h : ∀ u ∈ before ++ union members :: after, u.nest ≤ n) (hm : m ∈ members) : ∀ u ∈ before ++ m :: after, u.nest ≤ n :=
  forall_splitMember h fun hu => nest_union_member hu m hm

theorem nest_meetAt (h : ∀ t ∈ ts, t.nest ≤ level) : (meetAt level ts).nest ≤ level := by
  induction level, ts using meetAt.induct with
  | case1 level ts hnever =>
    rw [meetAt.eq_def, if_pos hnever]
    exact Nat.zero_le _
  | case2 level ts hnever hany =>
    rw [meetAt.eq_def, if_neg hnever, if_pos hany]
    exact Nat.zero_le _
  | case3 level ts hnever hany before members after hu ih =>
    have known := nest_knownMembers h
    rw [splitAtUnion_eq_some hu] at known
    rw [meetAt_union hnever hany hu]
    exact nest_unionOf (List.forall_mem_map.2 fun m hm => ih m hm (nest_splitMember known hm))
  | case4 ts hnever hany hu =>
    have shape : ∀ x ∈ knownMembers ts, x.isShape = true → x = emptyObject := by
      intro x hx sx
      cases x with
      | object props index => exact nest_object_zero (nest_knownMembers h _ hx)
      | _ => cases sx
    rw [meetAt_zero hnever hany hu]
    refine nest_closeMeet fun t ht => ?_
    rcases @mem_gatherShapes_empty (fun _ => never) none (knownMembers ts) unmerged shape t ht with ht | rfl
    · exact nest_knownMembers h t ht
    · exact Nat.zero_le _
  | case5 ts hnever hany hu level ih =>
    have meet : ∀ x y : Ty, x.nest ≤ level → y.nest ≤ level → (meetAt level [x, y]).nest ≤ level := fun x y hx hy =>
      ih [x, y] (List.forall_mem_cons.2 ⟨hx, List.forall_mem_singleton.2 hy⟩)
    rw [meetAt_succ hnever hany hu]
    exact nest_closeMeet (gatherShapes_forall (P := fun t => t.nest ≤ level + 1) (nest_mergeShapes meet) unmerged
      (nest_knownMembers h))

end Nest

/-! ### Meets that agree on the types of shapes -/

section Congr
variable {P : Ty → Prop} {meet meet' : List Ty → Ty} (hmeet : ∀ x y, P x → P y → meet [x, y] = meet' [x, y])
include hmeet

theorem mergeShapes_congr {a b : Shape} (ha : ∀ u ∈ a.toTy.parts, P u) (hb : ∀ u ∈ b.toTy.parts, P u) :
    mergeShapes meet a b = mergeShapes meet' a b := by
  rw [parts_toTy_forall] at ha hb
  unfold mergeShapes
  refine congrArg₂ Shape.ofProps (congrArg (· ++ _) (List.map_congr_left fun p hp => ?_)) ?_
  · split
    · rename_i q hq
      rw [hmeet _ _ (ha.1 p hp) (hb.1 q (Shape.mem_of_find? hq))]
    · rfl
  · split
    · rfl
    · rename_i i j hi hj
      rw [hmeet _ _ (ha.2 i hi) (hb.2 j hj)]
    · rfl

theorem gatherShapes_congr (closed : ∀ x y, P x → P y → P (meet [x, y])) {merged : Option Shape} {ts : List Ty}
    (hmerged : ∀ s, merged = some s → ∀ u ∈ s.toTy.parts, P u) (ht : ∀ t ∈ ts, t.isShape = true → ∀ u ∈ t.parts, P u) :
    gatherShapes meet merged ts = gatherShapes meet' merged ts := by
  induction ts generalizing merged with
  | nil => rfl
  | cons t ts ih =>
    obtain ⟨here, rest⟩ := List.forall_mem_cons.1 ht
    cases t with
    | object props index =>
      have own : ∀ u ∈ (Shape.toTy ⟨props, index⟩).parts, P u := here rfl
      cases merged with
      | none => exact @ih (some ⟨props, index⟩) (fun s hs => Option.some.inj hs ▸ own) rest
      | some s =>
        have merges := hmerged s rfl
        have next := @ih (some (mergeShapes meet s ⟨props, index⟩))
          (fun s' hs => Option.some.inj hs ▸ parts_mergeShapes closed merges own) rest
        refine next.trans ?_
        rw [mergeShapes_congr hmeet merges own]
        rfl
    | _ => exact congrArg (_ :: ·) (ih hmerged rest)

end Congr

/-! ### Levels -/

section Levels
variable {level level' : Nat} {ts : List Ty}

/-- A level that is enough for the types gives the meet of the next level. -/
theorem meetAt_succ_of_nest (h : ∀ t ∈ ts, t.nest ≤ level) : meetAt level ts = meetAt (level + 1) ts := by
  induction level, ts using meetAt.induct with
  | case1 level ts hnever => rw [meetAt.eq_def, if_pos hnever, meetAt.eq_def, if_pos hnever]
  | case2 level ts hnever hany =>
    rw [meetAt.eq_def, if_neg hnever, if_pos hany, meetAt.eq_def, if_neg hnever, if_pos hany]
  | case3 level ts hnever hany before members after hu ih =>
    have known := nest_knownMembers h
    rw [splitAtUnion_eq_some hu] at known
    rw [meetAt_union hnever hany hu, meetAt_union hnever hany hu]
    exact congrArg unionOf (List.map_congr_left fun m hm => ih m hm (nest_splitMember known hm))
  | case4 ts hnever hany hu =>
    -- the shapes are empty, so no two types are met
    have none : ∀ t ∈ knownMembers ts, t.isShape = true → ∀ u ∈ t.parts, False := by
      intro t ht st u hu
      cases t with
      | object props index =>
        rw [nest_object_zero (nest_knownMembers h _ ht)] at hu
        cases hu
      | _ => cases st
    rw [meetAt_zero hnever hany hu, meetAt_succ hnever hany hu]
    exact congrArg closeMeet (gatherShapes_congr (fun _ _ h _ => h.elim) (fun _ _ h _ => h) unmerged none)
  | case5 ts hnever hany hu level ih =>
    have parts : ∀ t ∈ knownMembers ts, t.isShape = true → ∀ u ∈ t.parts, u.nest ≤ level := by
      intro t ht st
      cases t with
      | object props index => exact nest_shape (s := ⟨props, index⟩).1 (nest_knownMembers h _ ht)
      | _ => cases st
    have pair : ∀ x y : Ty, x.nest ≤ level → y.nest ≤ level → ∀ t ∈ [x, y], t.nest ≤ level := fun _ _ hx hy =>
      List.forall_mem_cons.2 ⟨hx, List.forall_mem_singleton.2 hy⟩
    rw [meetAt_succ hnever hany hu, meetAt_succ hnever hany hu]
    exact congrArg closeMeet (gatherShapes_congr (fun x y hx hy => ih [x, y] (pair x y hx hy))
      (fun x y hx hy => nest_meetAt (pair x y hx hy)) unmerged parts)

theorem meetAt_of_le (h : ∀ t ∈ ts, t.nest ≤ level) (hl : level ≤ level') : meetAt level ts = meetAt level' ts := by
  induction hl with
  | refl => rfl
  | step hl ih => exact ih.trans (meetAt_succ_of_nest fun t ht => Nat.le_trans (h t ht) hl)

/-- A level that is enough for the types gives their intersection. -/
theorem meetAt_eq_meetOf (h : ∀ t ∈ ts, t.nest ≤ level) : meetAt level ts = meetOf ts := by
  have least : ∀ t ∈ ts, t.nest ≤ nestAll ts := nestAll_le.1 (Nat.le_refl _)
  calc meetAt level ts = meetAt (nestAll ts) ts := (meetAt_of_le least (nestAll_le.2 h)).symm
    _ = meetOf ts := meetAt_of_le least (nestAll_le_shapeDepthAll ts)

end Levels
end TypeCalculus.Ty

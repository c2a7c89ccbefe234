import Mathlib
import TypeCalculus.Proofs.Ty.Rebuilt

/-! The normalising constructors are idempotent. What a union or a template looks like is settled by its form alone;
    the members of an intersection are met by the second run in the order of their texts, where no pair of them is
    pruned any more (`Met`). -/

namespace TypeCalculus.Ty

/-! ### Unions -/

theorem absent_not_mem_unionOf {ts ms : List Ty} (h : unionOf ts = union ms) : absent ∉ ms := by
  intro ha
  rcases unionOf_cases ts with ⟨-, he⟩ | ⟨-, he⟩ | ⟨-, -, ⟨-, he⟩ | ⟨t, hk, he⟩ | he⟩
  · cases he.symm.trans h
  · cases he.symm.trans h
  · cases he.symm.trans h
  · obtain ⟨u, -, hu⟩ := mem_unionMembersAll (mem_of_keptMembers (hk ▸ List.mem_singleton_self t))
    exact union_not_mem_unionMembers u (he.symm.trans h ▸ hu)
  · cases he.symm.trans h
    obtain ⟨u, -, hu⟩ := mem_unionMembersAll (mem_of_keptMembers (mem_sortByText.1 ha))
    exact absent_not_mem_unionMembers u hu

/-- Uniting the members of a union again gives the union. -/
theorem unionOf_members_unionOf {ts ms : List Ty} (h : unionOf ts = union ms) : unionOf ms = union ms :=
  unionOf_members (unionForm_unionOf h) (absent_not_mem_unionOf h)

/-- A union takes the members of a union in it. -/
theorem unionOf_singleton_union (ms : List Ty) : unionOf [union ms] = unionOf ms := by
  have flat : unionMembersAll [union ms] = unionMembersAll ms := List.append_nil _
  unfold unionOf
  rw [flat]

theorem unionOf_singleton {t : Ty} (single : t.isUnionMember = true) (present : t ≠ absent) : unionOf [t] = t := by
  have flat : unionMembersAll [t] = [t] :=
    unionMembersAll_self (List.forall_mem_singleton.2 single) fun h => present (List.mem_singleton.1 h).symm
  have alone : isRedundantIn [t] t = false := by
    cases t with
    | never => cases single
    | _ => rfl
  unfold unionOf
  rw [flat]
  cases t with
  | any | unknown => cases single
  | _ =>
    dsimp only
    rw [if_neg (by nofun), if_neg (by nofun), List.filter_cons_of_pos (by rw [alone]; rfl)]
    rfl

theorem unionOf_unionOf (ts : List Ty) : unionOf [unionOf ts] = unionOf ts := by
  cases he : unionOf ts with
  | union ms => rw [unionOf_singleton_union, unionOf_members_unionOf he]
  | absent => exact absurd he (unionOf_ne_absent ts)
  | any | unknown | never => rfl
  | _ => exact unionOf_singleton rfl nofun

/-! ### Intersections -/

theorem unknown_not_mem_closeMeet {ts : List Ty} (h : ∀ t ∈ ts, t.isMeetMember = true) :
    unknown ∉ (closeMeet ts).unionMembers := by
  unfold closeMeet
  split
  · nofun
  · nofun
  · rename_i t hp
    have member := h t ((distinct_sublist _ _).subset ((prune_sublist hp).subset (List.mem_singleton_self t)))
    cases t with
    | unknown | union => cases member
    | _ => nofun
  · nofun

/-- No intersection is `unknown`, and none has it as an alternative: `unknown` adds nothing to the others. -/
theorem unknown_not_mem_meetAt (level : Nat) (ts : List Ty) : unknown ∉ (meetAt level ts).unionMembers := by
  induction level, ts using meetAt.induct with
  | case1 level ts hnever =>
    rw [meetAt.eq_def, if_pos hnever]
    intro hu
    cases List.mem_singleton.1 hu
  | case2 level ts hnever hany =>
    rw [meetAt.eq_def, if_neg hnever, if_pos hany]
    intro hu
    cases List.mem_singleton.1 hu
  | case3 level ts hnever hany before members after hu ih =>
    rw [meetAt_union hnever hany hu]
    refine unionOf_forall (P := fun t => unknown ∉ t.unionMembers) (fun hu => ?_) ?_ ?_ fun t ht => ?_
    · cases List.mem_singleton.1 hu
    · exact fun {ms} h m hm hu => h (by rw [unionMembers]; exact unionMembers_subset hm hu)
    · intro ms h hu
      rw [unionMembers] at hu
      obtain ⟨m, hm, hu⟩ := mem_unionMembersAll hu
      exact h m hm hu
    · obtain ⟨m, hm, rfl⟩ := List.mem_map.1 ht
      exact ih m hm
  | case4 ts hnever hany hu =>
    rw [meetAt_zero hnever hany hu]
    exact unknown_not_mem_closeMeet (isMeetMember_gatherShapes (isMeetMember_of_known hnever hany hu))
  | case5 ts hnever hany hu level ih =>
    rw [meetAt_succ hnever hany hu]
    exact unknown_not_mem_closeMeet (isMeetMember_gatherShapes (isMeetMember_of_known hnever hany hu))

theorem meetOf_ne_unknown (ts : List Ty) : meetOf ts ≠ unknown := by
  intro h
  have := unknown_not_mem_meetAt (shapeDepthAll ts) ts
  rw [show meetAt (shapeDepthAll ts) ts = unknown from h] at this
  exact this List.mem_cons_self

theorem closeMeet_ne_absent {ts : List Ty} (h : absent ∉ ts) : closeMeet ts ≠ absent := by
  unfold closeMeet
  split
  · nofun
  · nofun
  · rename_i t hp
    rintro rfl
    exact h ((distinct_sublist _ _).subset ((prune_sublist hp).subset (List.mem_singleton_self _)))
  · nofun

theorem meetOf_ne_absent (ts : List Ty) : meetOf ts ≠ absent := by
  have close : ∀ meet, closeMeet (gatherShapes meet none (knownMembers ts)) ≠ absent := fun meet =>
    closeMeet_ne_absent (absent_not_mem_gatherShapes (absent_not_mem_knownMembers ts))
  unfold meetOf
  rw [meetAt.eq_def]
  split
  · nofun
  · split
    · nofun
    · split
      · exact unionOf_ne_absent _
      · split
        · exact close _
        · exact close _

theorem meetAt_congr {level : Nat} {ts us : List Ty} (h : knownMembers ts = knownMembers us) :
    meetAt level ts = meetAt level us := by
  rw [meetAt.eq_def, meetAt.eq_def level us, h]

/-- The meet of an only member is the member. -/
theorem meetAt_member {level : Nat} {t : Ty} (single : t.isMeetMember = true) (present : t ≠ absent) :
    meetAt level [t] = t := by
  have known : knownMembers [t] = [t] :=
    knownMembers_self (List.forall_mem_singleton.2 single) fun h => present (List.mem_singleton.1 h).symm
  have hnever : ¬(knownMembers [t]).any isNever = true := by
    rw [known]
    cases t with
    | never => cases single
    | _ => nofun
  have hany : ¬(knownMembers [t]).any isAny = true := by
    rw [known]
    cases t with
    | any => cases single
    | _ => nofun
  have hunion : splitAtUnion (knownMembers [t]) = none := by
    rw [known]
    exact splitAtUnion_members (List.forall_mem_singleton.2 single)
  have close : ∀ meet : List Ty → Ty, closeMeet (gatherShapes meet none (knownMembers [t])) = t := by
    intro meet
    rw [known, gatherShapes_single (List.pairwise_singleton _ _), shapes_last (List.pairwise_singleton _ _), closeMeet,
      distinct_self (List.pairwise_singleton _ _), prune_self (List.pairwise_singleton _ _)]
  cases level with
  | zero => rw [meetAt_zero hnever hany hunion, close]
  | succ level => rw [meetAt_succ hnever hany hunion, close]

/-- A type made by constructors is its own meet, unless it adds nothing to an intersection. -/
theorem meetAt_self {level : Nat} {t : Ty} (ht : Built t) (known : t ≠ unknown) (present : t ≠ absent) :
    meetAt level [t] = t := by
  have closed : ∀ {u}, Built u → u.isUnionMember = true → u ≠ absent → meetAt level [u] = u := by
    intro u hu single present
    cases u with
    | intersection ms =>
      have spread : knownMembers [intersection ms] = knownMembers ms :=
        congrArg (List.filter _) (List.append_nil (meetMembersAll ms))
      rw [meetAt_congr spread, meetAt_members hu.normal.form (hu.tidy.node.meet ms rfl)]
    | union | any | unknown | never => cases single
    | _ => exact meetAt_member rfl present
  cases t with
  | unknown => exact absurd rfl known
  | any =>
    have hnever : ¬(knownMembers [any]).any isNever = true := nofun
    have hany : (knownMembers [any]).any isAny = true := rfl
    rw [meetAt.eq_def, if_neg hnever, if_pos hany]
  | never =>
    have hnever : (knownMembers [never]).any isNever = true := rfl
    rw [meetAt.eq_def, if_pos hnever]
  | union ms =>
    have form : UnionForm ms := ht.normal.form
    have absent' := ht.tidy.node.union ms rfl
    have each : ms.map (fun m => meetAt level ([] ++ m :: [])) = ms := by
      refine (List.map_congr_left fun m hm => ?_).trans (List.map_id ms)
      exact closed (ht.part rfl hm) (form.single m hm) fun h => absent' (h ▸ hm)
    have hnever : ¬(knownMembers [union ms]).any isNever = true := nofun
    have hany : ¬(knownMembers [union ms]).any isAny = true := nofun
    have split : splitAtUnion (knownMembers [union ms]) = some ([], ms, []) := rfl
    rw [meetAt_union hnever hany split, each, unionOf_members form absent']
  | _ => exact closed ht rfl present

theorem meetOf_meetOf {ts : List Ty} (h : ∀ t ∈ ts, Built t) : meetOf [meetOf ts] = meetOf ts :=
  meetAt_self (built_meetOf h) (meetOf_ne_unknown ts) (meetOf_ne_absent ts)

/-! ### All three -/

/-- Constructing a union, an intersection or a template anew gives the same type: from the type itself and from the
    parts that it holds. -/
theorem constructors_idempotent :
    (∀ ts, unionOf [unionOf ts] = unionOf ts ∧ ∀ ms, unionOf ts = union ms → unionOf ms = unionOf ts) ∧
      (∀ ts, (∀ t ∈ ts, Built t) →
        meetOf [meetOf ts] = meetOf ts ∧ ∀ ms, meetOf ts = intersection ms → meetOf ms = meetOf ts) ∧
      ∀ segments, (∀ t ∈ holes segments, Built t) →
        ∀ inner, templateOf segments = template inner → templateOf inner = template inner := by
  refine ⟨fun ts => ⟨unionOf_unionOf ts, fun ms h => ?_⟩, fun ts hts => ⟨meetOf_meetOf hts, fun ms h => ?_⟩, ?_⟩
  · rw [h, unionOf_members_unionOf h]
  · have built : Built (intersection ms) := h ▸ built_meetOf hts
    rw [h, meetOf_members built.normal.form (built.tidy.node.meet ms rfl)]
  · intro segments hs inner h
    have normal : Normal (template inner) := h ▸ normal_templateOf fun t ht => (hs t ht).normal
    exact templateOf_segments normal.form

/-- `A & (B | C)` is a union of two intersections and stays one, and the members of `A & C` may come in any order. -/
theorem constructors_idempotent_distributed :
    let a := param "A" absent absent
    let b := param "B" absent absent
    let c := param "C" absent absent
    (∀ t ∈ [a, union [b, c]], Built t) ∧ (∀ t ∈ [c, a], Built t) ∧
      meetOf [a, union [b, c]] = union [intersection [a, b], intersection [a, c]] ∧
      meetOf [union [intersection [a, b], intersection [a, c]]] = union [intersection [a, b], intersection [a, c]] ∧
      meetOf [c, a] = intersection [a, c] ∧ meetOf [a, c] = intersection [a, c] := by
  intro a b c
  have ba : Built a := built_param "A"
  have bc : Built c := built_param "C"
  have alternatives : Built (union [b, c]) := built_pair (built_param "B") bc rfl rfl rfl rfl (by decide)
  have spread : ∀ t ∈ [a, union [b, c]], Built t := List.forall_mem_cons.2 ⟨ba, List.forall_mem_singleton.2 alternatives⟩
  have swapped : ∀ t ∈ [c, a], Built t := List.forall_mem_cons.2 ⟨bc, List.forall_mem_singleton.2 ba⟩
  have first : meetOf [a, union [b, c]] = union [intersection [a, b], intersection [a, c]] := by
    cbv
  have second : meetOf [c, a] = intersection [a, c] := by
    cbv
  have again := (constructors_idempotent.2.1 _ spread).1
  have members := (constructors_idempotent.2.1 _ swapped).2 _ second
  rw [first] at again
  rw [second] at members
  exact ⟨spread, swapped, first, again, second, members⟩

end TypeCalculus.Ty

import Mathlib.Algebra.Order.BigOperators.Group.List
import Mathlib.Algebra.Order.Ring.Nat
import TypeCalculus.Proofs.Ty.Walk

/-! How often a type can be split into alternatives: a union into its members, `boolean` into its literals, and then
    the alternatives in turn. Templates and intersections of unions become unions of as many choices as their parts
    have together. The normalising constructors make no choices of their own. -/

namespace TypeCalculus.Ty

/-- The largest of some numbers, or zero. -/
def largest (ns : List Nat) : Nat := ns.foldr max 0

theorem largest_le {n : Nat} {ns : List Nat} : largest ns ≤ n ↔ ∀ m ∈ ns, m ≤ n := by
  induction ns with
  | nil => simp [largest]
  | cons m ns ih =>
    have more : largest (m :: ns) = max m (largest ns) := rfl
    rw [more, Nat.max_le, ih, List.forall_mem_cons]

mutual

/-- How often the type can be split. -/
def choices : Ty → Nat
  | union members => 1 + largest (choicesOfAll members)
  | prim .boolean => 1
  | intersection members => (choicesOfAll members).sum
  | template segments => (choicesOfHoles segments).sum
  | _ => 0
termination_by structural t => t

def choicesOfAll : List Ty → List Nat
  | [] => []
  | t :: ts => t.choices :: choicesOfAll ts
termination_by structural ts => ts

def choicesOfHoles : List (Segment Ty) → List Nat
  | [] => []
  | .text _ :: rest => choicesOfHoles rest
  | .hole t :: rest => t.choices :: choicesOfHoles rest
termination_by structural segments => segments

end

theorem choicesOfAll_eq (ts : List Ty) : choicesOfAll ts = ts.map choices := by
  induction ts with
  | nil => rfl
  | cons t ts ih => rw [choicesOfAll, ih, List.map_cons]

theorem choicesOfHoles_eq (segments : List (Segment Ty)) : choicesOfHoles segments = (holes segments).map choices := by
  induction segments with
  | nil => rfl
  | cons s rest ih =>
    cases s with
    | text => rw [choicesOfHoles, ih, holes_text]
    | hole t => rw [choicesOfHoles, ih, holes_hole, List.map_cons]

/-- The choices of some types together. -/
def choicesSum (ts : List Ty) : Nat := (ts.map choices).sum

@[simp]
theorem choicesSum_nil : choicesSum [] = 0 := rfl

@[simp]
theorem choicesSum_cons (t : Ty) (ts : List Ty) : choicesSum (t :: ts) = t.choices + choicesSum ts := by
  simp [choicesSum]

@[simp]
theorem choicesSum_append (xs ys : List Ty) : choicesSum (xs ++ ys) = choicesSum xs + choicesSum ys := by
  simp [choicesSum]

theorem choicesSum_perm {xs ys : List Ty} (h : xs.Perm ys) : choicesSum xs = choicesSum ys := (h.map choices).sum_eq

theorem choicesSum_sublist {xs ys : List Ty} (h : xs.Sublist ys) : choicesSum xs ≤ choicesSum ys :=
  (h.map choices).sum_le_sum fun _ _ => Nat.zero_le _

@[simp]
theorem choices_intersection (members : List Ty) : (intersection members).choices = choicesSum members := by
  rw [choices, choicesOfAll_eq, choicesSum]

@[simp]
theorem choices_template (segments : List (Segment Ty)) : (template segments).choices = choicesSum (holes segments) := by
  rw [choices, choicesOfHoles_eq, choicesSum]

theorem choices_union_le {n : Nat} {members : List Ty} : (union members).choices ≤ n + 1 ↔ ∀ m ∈ members, m.choices ≤ n := by
  rw [choices, choicesOfAll_eq, Nat.add_comm, Nat.add_le_add_iff_right, largest_le, List.forall_mem_map]

theorem choices_union_pos (members : List Ty) : 0 < (union members).choices := by
  rw [choices]
  omega

/-- A member of a union has fewer choices than the union. -/
theorem choices_lt_of_member {members : List Ty} {m : Ty} (h : m ∈ members) : m.choices < (union members).choices := by
  have pos := choices_union_pos members
  have few := (choices_union_le (n := (union members).choices - 1)).1 (by omega) m h
  omega

/-! ### Unions -/

theorem choices_unionMembers {n : Nat} {t : Ty} (h : t.choices ≤ n) : ∀ u ∈ t.unionMembers, u.choices ≤ n :=
  unionMembers_forall (P := fun u => u.choices ≤ n)
    (fun hu _ hm => Nat.le_trans (Nat.le_of_lt (choices_lt_of_member hm)) hu) t h

/-- A union can be split once more than the types that it unites. -/
theorem choices_unionOf {n : Nat} {ts : List Ty} (h : ∀ t ∈ ts, t.choices ≤ n) : (unionOf ts).choices ≤ n + 1 := by
  have kept : ∀ u ∈ distinct [] ((unionMembersAll ts).filter fun t => !isRedundantIn (unionMembersAll ts) t),
      u.choices ≤ n := by
    intro u hu
    obtain ⟨t, ht, hu⟩ := mem_unionMembersAll (List.mem_filter.1 ((distinct_sublist _ _).subset hu)).1
    exact choices_unionMembers (h t ht) u hu
  unfold unionOf
  dsimp only
  split
  · exact Nat.zero_le _
  · split
    · exact Nat.zero_le _
    · split
      · exact Nat.zero_le _
      · rename_i t he
        exact Nat.le_succ_of_le (kept t (he ▸ List.mem_singleton_self t))
      · exact choices_union_le.2 fun m hm => kept m (mem_sortByText.1 hm)

theorem choices_unionOf_map {α : Type} {n : Nat} {xs : List α} {f : α → Ty} (h : ∀ x ∈ xs, (f x).choices ≤ n) :
    (unionOf (xs.map f)).choices ≤ n + 1 :=
  choices_unionOf (List.forall_mem_map.2 h)

/-! ### Templates -/

theorem holes_pushText (done : List (Segment Ty)) (s : String) : holes (pushText done s) = holes done := by
  unfold pushText
  split
  · rfl
  · split <;> rfl

theorem choicesSum_pushSegments (done inner : List (Segment Ty)) :
    choicesSum (holes (pushSegments done inner)) = choicesSum (holes done) + choicesSum (holes inner) := by
  induction inner generalizing done with
  | nil => rfl
  | cons s rest ih =>
    cases s with
    | text s => rw [pushSegments, ih, holes_pushText, holes_text]
    | hole t =>
      rw [pushSegments, ih, holes_hole, holes_hole, choicesSum_cons, choicesSum_cons]
      omega

theorem choices_closeTemplate (segments : List (Segment Ty)) :
    (closeTemplate segments).choices ≤ choicesSum (holes segments) := by
  unfold closeTemplate
  split
  · exact Nat.zero_le _
  · exact Nat.zero_le _
  · exact Nat.zero_le _
  · rw [choices_template]

/-- A template has as many choices as its holes together. -/
theorem choices_templateAfter (done segments : List (Segment Ty)) :
    (templateAfter done segments).choices ≤ choicesSum (holes done) + choicesSum (holes segments) := by
  induction done, segments using templateAfter.induct with
  | case1 done =>
    have whole := choices_closeTemplate done.reverse
    rw [holes_reverse, choicesSum_perm (List.reverse_perm _)] at whole
    rw [templateAfter]
    exact whole
  | case2 done s rest ih =>
    rw [templateAfter, holes_text]
    rwa [holes_pushText] at ih
  | case3 done s rest =>
    rw [templateAfter, if_pos rfl]
    exact Nat.zero_le _
  | case4 done base s rest hb ih =>
    rw [holes_pushText] at ih
    rw [templateAfter, if_neg hb, holes_hole, choicesSum_cons]
    omega
  | case5 done rest ih | case6 done rest ih =>
    rw [holes_pushText] at ih
    rw [templateAfter, holes_hole, choicesSum_cons]
    omega
  | case7 done rest ih₁ ih₂ =>
    rw [holes_pushText] at ih₁ ih₂
    rw [templateAfter, holes_hole, choicesSum_cons, show (prim .boolean).choices = 1 from rfl]
    have both := choices_unionOf (List.forall_mem_cons.2 ⟨ih₁, List.forall_mem_singleton.2 ih₂⟩)
    omega
  | case8 done rest =>
    rw [templateAfter]
    exact Nat.zero_le _
  | case9 done inner rest ih =>
    rw [choicesSum_pushSegments] at ih
    rw [templateAfter, holes_hole, choicesSum_cons, choices_template]
    omega
  | case10 done members rest ih ihm =>
    rw [templateAfter_union, holes_hole, choicesSum_cons]
    have each : ∀ m ∈ members, (if m.isAbsent then templateAfter done rest else templateAfter done (.hole m :: rest)).choices ≤
        choicesSum (holes done) + ((union members).choices - 1) + choicesSum (holes rest) := by
      intro m hm
      have fewer := choices_lt_of_member hm
      split
      · omega
      · have := ihm m hm
        rw [holes_hole, choicesSum_cons] at this
        omega
    have whole := choices_unionOf_map each
    have pos := choices_union_pos members
    omega
  | case11 done t rest h₁ h₂ h₃ h₄ h₅ h₆ h₇ hc =>
    rw [templateAfter, if_pos hc]
    · exact Nat.zero_le _
    all_goals assumption
  | case12 done t rest h₁ h₂ h₃ h₄ h₅ h₆ h₇ hc ih =>
    rw [holes_hole, choicesSum_cons] at ih
    rw [templateAfter, if_neg hc, holes_hole, choicesSum_cons]
    · omega
    all_goals assumption

/-! ### Intersections -/

mutual

theorem choicesSum_meetMembers : (t : Ty) → choicesSum t.meetMembers ≤ t.choices
  | intersection ms => by
    rw [meetMembers, choices_intersection]
    exact choicesSum_meetMembersAll ms
  | absent => Nat.zero_le _
  | any | unknown | void | never | prim _ | literal .. | template _ | object .. | array .. | tuple _
  | union _ | param .. | infer .. | conditional .. | reference .. | function .. | keyOf _
  | access .. | mapping .. => by simp [meetMembers]

theorem choicesSum_meetMembersAll : (ts : List Ty) → choicesSum (meetMembersAll ts) ≤ choicesSum ts
  | [] => Nat.zero_le _
  | t :: ts => by
    have := choicesSum_meetMembers t
    have := choicesSum_meetMembersAll ts
    rw [meetMembersAll, choicesSum_append, choicesSum_cons]
    omega

end

theorem choicesSum_knownMembers (ts : List Ty) : choicesSum (knownMembers ts) ≤ choicesSum ts :=
  Nat.le_trans (choicesSum_sublist List.filter_sublist) (choicesSum_meetMembersAll ts)

theorem choices_closeMeet (ts : List Ty) : (closeMeet ts).choices ≤ choicesSum ts := by
  unfold closeMeet
  split
  · exact Nat.zero_le _
  · exact Nat.zero_le _
  · rename_i t hp
    have sub := choicesSum_sublist ((prune_sublist hp).trans (distinct_sublist [] ts))
    rw [choicesSum_cons] at sub
    omega
  · rename_i kept _ _ hp
    rw [choices_intersection, choicesSum_perm (sortByText_perm kept)]
    exact choicesSum_sublist ((prune_sublist hp).trans (distinct_sublist [] ts))

theorem choicesSum_gatherShapes (meet : List Ty → Ty) (merged : Option Shape) (ts : List Ty) :
    choicesSum (gatherShapes meet merged ts) ≤ choicesSum ts := by
  induction merged, ts using gatherShapes.induct meet with
  | case1 merged =>
    cases merged with
    | none => exact Nat.zero_le _
    | some s => exact Nat.zero_le _
  | case2 merged props index ts next ih =>
    have step : gatherShapes meet merged (object props index :: ts) = gatherShapes meet (some next) ts := rfl
    rw [step, choicesSum_cons]
    omega
  | case3 merged t ts hne ih =>
    rw [gatherShapes]
    · rw [choicesSum_cons, choicesSum_cons]
      omega
    · exact hne

/-- A meet has as many choices as its members together. -/
theorem choices_meetAt (level : Nat) (ts : List Ty) : (meetAt level ts).choices ≤ choicesSum ts := by
  refine Nat.le_trans ?_ (choicesSum_knownMembers ts)
  induction level, ts using meetAt.induct with
  | case1 level ts hnever =>
    rw [meetAt.eq_def, if_pos hnever]
    exact Nat.zero_le _
  | case2 level ts hnever hany =>
    rw [meetAt.eq_def, if_neg hnever, if_pos hany]
    exact Nat.zero_le _
  | case3 level ts hnever hany before members after hu ih =>
    rw [meetAt_union hnever hany hu, splitAtUnion_eq_some hu, choicesSum_append, choicesSum_cons]
    have each : ∀ m ∈ members, (meetAt level (before ++ m :: after)).choices ≤
        choicesSum before + ((union members).choices - 1) + choicesSum after := by
      intro m hm
      have fewer := choices_lt_of_member hm
      have known := choicesSum_knownMembers (before ++ m :: after)
      rw [choicesSum_append, choicesSum_cons] at known
      have := ih m hm
      omega
    have whole := choices_unionOf_map each
    have pos := choices_union_pos members
    omega
  | case4 ts hnever hany hu =>
    rw [meetAt_zero hnever hany hu]
    exact Nat.le_trans (choices_closeMeet _) (choicesSum_gatherShapes _ _ _)
  | case5 ts hnever hany hu level ih =>
    rw [meetAt_succ hnever hany hu]
    exact Nat.le_trans (choices_closeMeet _) (choicesSum_gatherShapes _ _ _)

/-! ### Rebuilding -/

section Rebuild
variable {f : Ty → Option Ty}

theorem choicesSum_mapM {ts us : List Ty} (h : ts.mapM f = some us)
    (hf : ∀ t ∈ ts, ∀ u, f t = some u → u.choices ≤ t.choices) : choicesSum us ≤ choicesSum ts := by
  induction ts generalizing us with
  | nil =>
    cases h
    exact Nat.le_refl _
  | cons t ts ih =>
    rw [List.mapM_cons] at h
    obtain ⟨v, hv, h⟩ := Option.bind_eq_some_iff.1 h
    obtain ⟨vs, hvs, h⟩ := Option.bind_eq_some_iff.1 h
    cases h
    have head := hf t List.mem_cons_self v hv
    have tail := ih hvs fun u hu => hf u (List.mem_cons_of_mem _ hu)
    rw [choicesSum_cons, choicesSum_cons]
    omega

theorem choicesSum_ofHole (t : Ty) (rest : List (Segment Ty)) :
    choicesSum (holes (.ofHole t :: rest)) = t.choices + choicesSum (holes rest) := by
  cases t with
  | absent => exact (Nat.zero_add _).symm
  | _ => exact choicesSum_cons _ _

theorem choicesSum_mapHoles {segments segments' : List (Segment Ty)} (h : segments.mapM (mapHole f) = some segments')
    (hf : ∀ t ∈ holes segments, ∀ u, f t = some u → u.choices ≤ t.choices) :
    choicesSum (holes segments') ≤ choicesSum (holes segments) := by
  induction segments generalizing segments' with
  | nil =>
    cases h
    exact Nat.le_refl _
  | cons s rest ih =>
    rw [List.mapM_cons] at h
    obtain ⟨s', hs, h⟩ := Option.bind_eq_some_iff.1 h
    obtain ⟨rest', hrest, h⟩ := Option.bind_eq_some_iff.1 h
    cases h
    cases s with
    | text =>
      cases hs
      rw [holes_text, holes_text]
      exact ih hrest hf
    | hole t =>
      obtain ⟨v, hv, he⟩ := Option.bind_eq_some_iff.1 hs
      cases he
      have head := hf t List.mem_cons_self v hv
      have tail := ih hrest fun u hu => hf u (List.mem_cons_of_mem _ hu)
      rw [choicesSum_ofHole, holes_hole, choicesSum_cons]
      omega

/-- Rebuilding a type makes no choices if rebuilding its parts makes none. -/
theorem choices_rebuild {t u : Ty} (h : t.rebuild f = some u)
    (hf : ∀ v ∈ t.parts, ∀ w, f v = some w → w.choices ≤ v.choices) : u.choices ≤ t.choices := by
  have row : NodeForm t → t.isRow = true → u.choices ≤ t.choices := by
    intro hn hr
    obtain ⟨us, -, -, rfl⟩ := rebuild_row_eq_some hn hr h
    cases t <;> first | exact Nat.zero_le _ | cases hr
  cases t with
  | template segments =>
    obtain ⟨ss, hs, he⟩ := Option.bind_eq_some_iff.1 h
    cases he
    have sum := choicesSum_mapHoles hs hf
    have whole := choices_templateAfter [] ss
    rw [choices_template]
    exact Nat.le_trans whole (by simpa [holes] using sum)
  | union members =>
    obtain ⟨us, hs, he⟩ := Option.bind_eq_some_iff.1 h
    cases he
    have each : ∀ u ∈ us, u.choices ≤ (union members).choices - 1 := by
      refine Results.option.mapM (fun t ht u hu => ?_) us hs
      have := choices_lt_of_member ht
      have := hf t ht u hu
      omega
    have whole := choices_unionOf each
    have pos := choices_union_pos members
    omega
  | intersection members =>
    obtain ⟨us, hs, he⟩ := Option.bind_eq_some_iff.1 h
    cases he
    rw [choices_intersection]
    exact Nat.le_trans (choices_meetAt _ us) (choicesSum_mapM hs hf)
  | object props index =>
    obtain ⟨ps, -, h⟩ := Option.bind_eq_some_iff.1 h
    obtain ⟨i, -, h⟩ := Option.bind_eq_some_iff.1 h
    cases h
    exact Nat.zero_le _
  | array | tuple | reference | function | keyOf | access | mapping =>
    exact row trivial rfl
  | infer name constraint =>
    rw [rebuild] at h
    split at h
    · cases h
      exact Nat.le_refl _
    · obtain ⟨v, -, h⟩ := Option.bind_eq_some_iff.1 h
      cases h
      exact Nat.zero_le _
  | conditional check bound yes no distribute =>
    obtain ⟨c, -, h⟩ := Option.bind_eq_some_iff.1 h
    obtain ⟨b, -, h⟩ := Option.bind_eq_some_iff.1 h
    obtain ⟨y, -, h⟩ := Option.bind_eq_some_iff.1 h
    obtain ⟨n, -, h⟩ := Option.bind_eq_some_iff.1 h
    cases h
    exact Nat.zero_le _
  | _ =>
    cases h
    exact Nat.le_refl _

end Rebuild
end TypeCalculus.Ty

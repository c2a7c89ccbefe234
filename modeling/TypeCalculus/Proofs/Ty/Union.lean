import TypeCalculus.Proofs.Ty.Identity
import TypeCalculus.Ty.Union

/-! What unions are made of: the members of the types that they unite, each identity once and in the order of
    their texts. -/

namespace TypeCalculus.Ty

/-! ### Members -/

attribute [grind =] unionMembers unionMembersAll distinct

theorem mem_unionMembersAll {u : Ty} : {ts : List Ty} → u ∈ unionMembersAll ts → ∃ t ∈ ts, u ∈ t.unionMembers
  | t :: ts, h => by
    rw [unionMembersAll] at h
    rcases List.mem_append.1 h with h | h
    · exact ⟨t, List.mem_cons_self, h⟩
    · obtain ⟨v, hv, hu⟩ := mem_unionMembersAll h
      exact ⟨v, List.mem_cons_of_mem _ hv, hu⟩

theorem unionMembers_subset {t u : Ty} : {ts : List Ty} → t ∈ ts → u ∈ t.unionMembers → u ∈ unionMembersAll ts
  | v :: vs, ht, hu => by
    rw [unionMembersAll]
    rcases List.mem_cons.1 ht with rfl | ht
    · exact List.mem_append_left _ hu
    · exact List.mem_append_right _ (unionMembers_subset ht hu)

/-- A property of the parts of unions and of the types themselves is one of their members. -/
theorem unionMembers_forall {P : Ty → Prop} (hP : ∀ {ms : List Ty}, P (union ms) → ∀ m ∈ ms, P m) :
    (t : Ty) → P t → ∀ u ∈ t.unionMembers, P u
  | union ms, h, u, hu => by
    rw [unionMembers] at hu
    obtain ⟨t, ht, hu⟩ := mem_unionMembersAll hu
    have := List.sizeOf_lt_of_mem ht
    exact unionMembers_forall hP t (hP h t ht) u hu
  | absent, _, _, hu => by cases hu
  | any, h, _, hu | unknown, h, _, hu | void, h, _, hu | never, h, _, hu | prim _, h, _, hu | literal .., h, _, hu
  | template _, h, _, hu | object .., h, _, hu | array .., h, _, hu | tuple _, h, _, hu | intersection _, h, _, hu
  | param .., h, _, hu | infer .., h, _, hu | conditional .., h, _, hu | reference .., h, _, hu
  | function .., h, _, hu | keyOf _, h, _, hu | access .., h, _, hu | mapping .., h, _, hu => by
    rw [unionMembers, List.mem_singleton] at hu
    · exact hu ▸ h
    all_goals simp

theorem union_not_mem_unionMembers {ms : List Ty} : (t : Ty) → union ms ∉ t.unionMembers
  | union ns, h => by
    rw [unionMembers] at h
    obtain ⟨t, ht, hu⟩ := mem_unionMembersAll h
    have := List.sizeOf_lt_of_mem ht
    exact union_not_mem_unionMembers t hu
  | absent, h => by cases h
  | any, h | unknown, h | void, h | never, h | prim _, h | literal .., h | template _, h | object .., h
  | array .., h | tuple _, h | intersection _, h | param .., h | infer .., h | conditional .., h
  | reference .., h | function .., h | keyOf _, h | access .., h | mapping .., h => by
    cases List.mem_singleton.1 h

theorem absent_not_mem_unionMembers : (t : Ty) → absent ∉ t.unionMembers
  | union ns, h => by
    rw [unionMembers] at h
    obtain ⟨t, ht, hu⟩ := mem_unionMembersAll h
    have := List.sizeOf_lt_of_mem ht
    exact absent_not_mem_unionMembers t hu
  | absent, h => by cases h
  | any, h | unknown, h | void, h | never, h | prim _, h | literal .., h | template _, h | object .., h
  | array .., h | tuple _, h | intersection _, h | param .., h | infer .., h | conditional .., h
  | reference .., h | function .., h | keyOf _, h | access .., h | mapping .., h => by
    cases List.mem_singleton.1 h

/-! ### Distinct types -/

theorem distinct_sublist (seen ts : List Ty) : (distinct seen ts).Sublist ts := by
  induction ts generalizing seen with
  | nil => exact List.Sublist.refl _
  | cons t ts ih =>
    rw [distinct]
    split
    · exact (ih seen).cons t
    · exact (ih (t :: seen)).cons_cons t

theorem not_identical_of_mem_distinct {seen ts : List Ty} {u v : Ty} (hu : u ∈ seen) (hv : v ∈ distinct seen ts) :
    u.identical v = false := by
  induction ts generalizing seen with
  | nil => cases hv
  | cons t ts ih =>
    rw [distinct] at hv
    split at hv
    · exact ih hu hv
    · rename_i hs
      rcases List.mem_cons.1 hv with rfl | hv
      · simp only [List.any_eq_true, not_exists, not_and, Bool.not_eq_true] at hs
        exact hs u hu
      · exact ih (List.mem_cons_of_mem _ hu) hv

/-- No two of the types that are left are identical. -/
theorem distinct_pairwise (seen ts : List Ty) : (distinct seen ts).Pairwise fun a b => a.identical b = false := by
  induction ts generalizing seen with
  | nil => exact List.Pairwise.nil
  | cons t ts ih =>
    rw [distinct]
    split
    · exact ih seen
    · exact List.Pairwise.cons (fun v hv => not_identical_of_mem_distinct List.mem_cons_self hv) (ih (t :: seen))

/-- Every type is identical to one that was seen or is left. -/
theorem identical_mem_distinct {seen ts : List Ty} {t : Ty} (h : t ∈ ts) :
    ∃ u, (u ∈ seen ∨ u ∈ distinct seen ts) ∧ u.identical t = true := by
  induction ts generalizing seen with
  | nil => cases h
  | cons u us ih =>
    rw [distinct]
    rcases List.mem_cons.1 h with rfl | h
    · split
      · rename_i hs
        obtain ⟨v, hv, hi⟩ := List.any_eq_true.1 hs
        exact ⟨v, Or.inl hv, hi⟩
      · exact ⟨t, Or.inr List.mem_cons_self, identical_refl t⟩
    · split
      · exact ih h
      · obtain ⟨v, hv | hv, hi⟩ := @ih (u :: seen) h
        · rcases List.mem_cons.1 hv with rfl | hv
          · exact ⟨v, Or.inr List.mem_cons_self, hi⟩
          · exact ⟨v, Or.inl hv, hi⟩
        · exact ⟨v, Or.inr (List.mem_cons_of_mem _ hv), hi⟩

/-! ### The order of texts -/

theorem sortByText_perm (ts : List Ty) : (sortByText ts).Perm ts := by
  have h := (List.mergeSort_perm (ts.map fun t => (t.print, t)) fun a b => decide (a.1 ≤ b.1)).map (·.2)
  simpa [sortByText, Function.comp_def] using h

theorem mem_sortByText {t : Ty} {ts : List Ty} : t ∈ sortByText ts ↔ t ∈ ts := (sortByText_perm ts).mem_iff

theorem sortByText_pairwise (ts : List Ty) : (sortByText ts).Pairwise fun a b => a.print ≤ b.print := by
  have sorted : ((ts.map fun t => (t.print, t)).mergeSort fun a b => decide (a.1 ≤ b.1)).Pairwise
      fun a b => decide (a.1 ≤ b.1) = true := by
    refine List.pairwise_mergeSort ?_ ?_ _
    · intro a b c hab hbc
      exact decide_eq_true (String.le_trans (of_decide_eq_true hab) (of_decide_eq_true hbc))
    · intro a b
      simpa using String.le_total a.1 b.1
  have texts : ∀ p ∈ (ts.map fun t => (t.print, t)).mergeSort fun a b => decide (a.1 ≤ b.1), p.1 = p.2.print := by
    intro p hp
    obtain ⟨t, -, rfl⟩ := List.mem_map.1 (List.mem_mergeSort.1 hp)
    rfl
  unfold sortByText
  rw [List.pairwise_map]
  refine sorted.imp_of_mem fun ha hb h => ?_
  rw [← texts _ ha, ← texts _ hb]
  exact of_decide_eq_true h

/-- Types with the same text keep their order. -/
theorem sortByText_stable (ts : List Ty) (s : String) :
    (sortByText ts).filter (fun t => t.print = s) = ts.filter fun t => t.print = s := by
  let texts := ts.map fun t => (t.print, t)
  let sorted := texts.mergeSort fun a b => decide (a.1 ≤ b.1)
  have equal : (texts.filter fun p => p.1 = s).Pairwise fun a b => decide (a.1 ≤ b.1) = true := by
    refine List.pairwise_of_forall_mem_list fun a ha b hb => ?_
    rw [of_decide_eq_true (List.mem_filter.1 ha).2, of_decide_eq_true (List.mem_filter.1 hb).2]
    exact decide_eq_true (String.le_refl s)
  have sub : (texts.filter fun p => p.1 = s).Sublist sorted := by
    refine List.sublist_mergeSort ?_ ?_ equal List.filter_sublist
    · intro a b c hab hbc
      exact decide_eq_true (String.le_trans (of_decide_eq_true hab) (of_decide_eq_true hbc))
    · intro a b
      simpa using String.le_total a.1 b.1
  have same : sorted.filter (fun p => p.1 = s) = texts.filter fun p => p.1 = s := by
    refine (List.Sublist.eq_of_length ?_ ?_).symm
    · simpa using sub.filter fun p => decide (p.1 = s)
    · exact ((List.mergeSort_perm texts _).filter _).length_eq.symm
  have text : ∀ p ∈ sorted, p.1 = p.2.print := by
    intro p hp
    obtain ⟨t, -, rfl⟩ := List.mem_map.1 (List.mem_mergeSort.1 hp)
    rfl
  calc (sortByText ts).filter (fun t => t.print = s)
      = (sorted.filter fun p => p.2.print = s).map (·.2) := by rw [sortByText, List.filter_map]; rfl
    _ = (sorted.filter fun p => p.1 = s).map (·.2) := by
        refine congrArg (List.map Prod.snd) (List.filter_congr fun p hp => ?_)
        rw [text p hp]
    _ = (texts.filter fun p => p.1 = s).map (·.2) := by rw [same]
    _ = ts.filter fun t => t.print = s := by simp [texts, List.filter_map, Function.comp_def]

/-! ### Members that are kept -/

/-- The members that a union of the given types keeps, before they are ordered. -/
def keptMembers (ts : List Ty) : List Ty :=
  distinct [] ((unionMembersAll ts).filter fun t => !isRedundantIn (unionMembersAll ts) t)

theorem mem_of_keptMembers {ts : List Ty} {u : Ty} (h : u ∈ keptMembers ts) : u ∈ unionMembersAll ts :=
  (List.mem_filter.1 ((distinct_sublist _ _).subset h)).1

theorem identical_mem_keptMembers {ts : List Ty} {u : Ty} (hu : u ∈ unionMembersAll ts)
    (hr : isRedundantIn (unionMembersAll ts) u = false) : ∃ v ∈ keptMembers ts, v.identical u = true := by
  have filtered : u ∈ (unionMembersAll ts).filter fun t => !isRedundantIn (unionMembersAll ts) t :=
    List.mem_filter.2 ⟨hu, by rw [hr]; rfl⟩
  obtain ⟨v, hv | hv, hi⟩ := @identical_mem_distinct [] _ u filtered
  · cases hv
  · exact ⟨v, hv, hi⟩

theorem unionOf_cases (ts : List Ty) :
    any ∈ unionMembersAll ts ∧ unionOf ts = any ∨ unknown ∈ unionMembersAll ts ∧ unionOf ts = unknown ∨
    any ∉ unionMembersAll ts ∧ unknown ∉ unionMembersAll ts ∧ (keptMembers ts = [] ∧ unionOf ts = never ∨
      (∃ t, keptMembers ts = [t] ∧ unionOf ts = t) ∨ unionOf ts = union (sortByText (keptMembers ts))) := by
  have mem_any : (unionMembersAll ts).any isAny = true ↔ any ∈ unionMembersAll ts := by
    refine List.any_eq_true.trans ⟨fun ⟨u, hu, h⟩ => ?_, fun h => ⟨_, h, rfl⟩⟩
    cases u <;> first | exact hu | cases h
  have mem_unknown : (unionMembersAll ts).any isUnknown = true ↔ unknown ∈ unionMembersAll ts := by
    refine List.any_eq_true.trans ⟨fun ⟨u, hu, h⟩ => ?_, fun h => ⟨_, h, rfl⟩⟩
    cases u <;> first | exact hu | cases h
  unfold unionOf
  dsimp only
  rw [← mem_any, ← mem_unknown]
  split
  · exact Or.inl ⟨‹_›, rfl⟩
  · split
    · exact Or.inr (Or.inl ⟨‹_›, rfl⟩)
    · refine Or.inr (Or.inr ⟨‹_›, ‹_›, ?_⟩)
      split
      · exact Or.inl ⟨‹_›, rfl⟩
      · exact Or.inr (Or.inl ⟨_, ‹_›, rfl⟩)
      · exact Or.inr (Or.inr rfl)

/-- A member that goes into a union is covered by a member that is left, unless it is `never` or absorbed. -/
theorem unionOf_covers {ts : List Ty} {u : Ty} (hu : u ∈ unionMembersAll ts) :
    unionOf ts = any ∨ unionOf ts = unknown ∨ u = never ∨
      ∃ v ∈ unionMembersAll ts, (unionOf ts = v ∨ ∃ ms, unionOf ts = union ms ∧ v ∈ ms) ∧
        (v.identical u = true ∨ ∃ base text, u = literal base text ∧ v = prim base) := by
  rcases unionOf_cases ts with ⟨-, he⟩ | ⟨-, he⟩ | ⟨-, -, hk⟩
  · exact .inl he
  · exact .inr (.inl he)
  · have left : ∀ {v}, v ∈ keptMembers ts → unionOf ts = v ∨ ∃ ms, unionOf ts = union ms ∧ v ∈ ms := by
      intro v hv
      rcases hk with ⟨hk, -⟩ | ⟨t, hk, he⟩ | he
      · rw [hk] at hv
        cases hv
      · rw [hk] at hv
        exact .inl (List.mem_singleton.1 hv ▸ he)
      · exact .inr ⟨_, he, mem_sortByText.2 hv⟩
    have covered : ∀ {v}, v ∈ unionMembersAll ts → isRedundantIn (unionMembersAll ts) v = false →
        ∃ w ∈ unionMembersAll ts, (unionOf ts = w ∨ ∃ ms, unionOf ts = union ms ∧ w ∈ ms) ∧ w.identical v = true := by
      intro v hv hr
      obtain ⟨w, hw, hi⟩ := identical_mem_keptMembers hv hr
      exact ⟨w, mem_of_keptMembers hw, left hw, hi⟩
    refine .inr (.inr ?_)
    cases hr : isRedundantIn (unionMembersAll ts) u with
    | false =>
      obtain ⟨w, hw, hl, hi⟩ := covered hu hr
      exact .inr ⟨w, hw, hl, .inl hi⟩
    | true =>
      cases u with
      | never => exact .inl rfl
      | literal base text =>
        obtain ⟨v, hv, he⟩ := List.any_eq_true.1 (show holdsPrim (unionMembersAll ts) base = true from hr)
        cases v with
        | prim q =>
          cases beq_iff_eq.1 he
          obtain ⟨w, hw, hl, hi⟩ := covered hv rfl
          have same : w = prim base := by
            have := (identical_iff _ _).1 hi
            cases w <;> first | exact this | cases this
          exact .inr ⟨w, hw, hl, .inr ⟨base, text, rfl, same⟩⟩
        | _ => cases he
      | _ => cases hr

theorem unionOf_ne_absent (ts : List Ty) : unionOf ts ≠ absent := by
  rcases unionOf_cases ts with ⟨-, he⟩ | ⟨-, he⟩ | ⟨-, -, ⟨-, he⟩ | ⟨t, hk, he⟩ | he⟩
  · rw [he]
    nofun
  · rw [he]
    nofun
  · rw [he]
    nofun
  · rw [he]
    rintro rfl
    have kept : absent ∈ keptMembers ts := by rw [hk]; exact List.mem_cons_self
    obtain ⟨u, -, hu⟩ := mem_unionMembersAll (mem_of_keptMembers kept)
    exact absent_not_mem_unionMembers u hu
  · rw [he]
    nofun

/-! ### Properties of unions -/

/-- A property that goes from unions to their members and back goes to the union of types. -/
theorem unionOf_forall {P : Ty → Prop} (hnever : P never)
    (hmember : ∀ {ms : List Ty}, P (union ms) → ∀ m ∈ ms, P m) (hunion : ∀ {ms : List Ty}, (∀ m ∈ ms, P m) → P (union ms))
    {ts : List Ty} (h : ∀ t ∈ ts, P t) : P (unionOf ts) := by
  have flat : ∀ u ∈ unionMembersAll ts, P u := by
    intro u hu
    obtain ⟨t, ht, hu⟩ := mem_unionMembersAll hu
    exact unionMembers_forall hmember t (h t ht) u hu
  rcases unionOf_cases ts with ⟨hm, he⟩ | ⟨hm, he⟩ | ⟨-, -, ⟨-, he⟩ | ⟨t, ht, he⟩ | he⟩ <;> rw [he]
  · exact flat _ hm
  · exact flat _ hm
  · exact hnever
  · exact flat t (mem_of_keptMembers (ht ▸ List.mem_singleton_self t))
  · exact hunion fun u hu => flat u (mem_of_keptMembers (mem_sortByText.1 hu))

/-- A property that a union has exactly if its members have it, among the types that satisfy `Q`. -/
structure Distributes (Q P : Ty → Prop) : Prop where
  present : ∀ {t}, Q t → t ≠ absent
  member : ∀ {ms}, Q (union ms) → ∀ m ∈ ms, Q m
  never : P never
  top : ∀ {t u}, t = any ∨ t = unknown → P t → Q u → P u
  literal : ∀ {base text}, Q (literal base text) → P (prim base) → P (literal base text)
  identical : ∀ {t u}, Q t → Q u → t.identical u = true → P t → P u
  union : ∀ {ms}, Q (union ms) → (P (union ms) ↔ ∀ m ∈ ms, P m)

namespace Distributes
variable {Q P : Ty → Prop} (D : Distributes Q P)
include D

theorem members : (t : Ty) → Q t → (P t ↔ ∀ u ∈ t.unionMembers, P u)
  | .union ms, h => by
    rw [D.union h, unionMembers]
    constructor
    · intro hms u hu
      obtain ⟨m, hm, hu⟩ := mem_unionMembersAll hu
      have := List.sizeOf_lt_of_mem hm
      exact (members m (D.member h m hm)).1 (hms m hm) u hu
    · intro hus m hm
      have := List.sizeOf_lt_of_mem hm
      exact (members m (D.member h m hm)).2 fun u hu => hus u (unionMembers_subset hm hu)
  | .absent, h => absurd rfl (D.present h)
  | .any, _ | .unknown, _ | .void, _ | .never, _ | .prim _, _ | .literal .., _ | .template _, _ | .object .., _
  | .array .., _ | .tuple _, _ | .intersection _, _ | .param .., _ | .infer .., _ | .conditional .., _
  | .reference .., _ | .function .., _ | .keyOf _, _ | .access .., _ | .mapping .., _ => by
    rw [unionMembers]
    · exact (List.forall_mem_singleton (p := P)).symm
    all_goals simp

/-- The union of types has the property exactly if all the types have it. -/
theorem unionOf {ts : List Ty} (h : ∀ t ∈ ts, Q t) (hq : Q (unionOf ts)) : P (unionOf ts) ↔ ∀ t ∈ ts, P t := by
  have flat : ∀ u ∈ unionMembersAll ts, Q u := by
    intro u hu
    obtain ⟨t, ht, hu⟩ := mem_unionMembersAll hu
    exact unionMembers_forall D.member t (h t ht) u hu
  have spread : (∀ t ∈ ts, P t) ↔ ∀ u ∈ unionMembersAll ts, P u := by
    constructor
    · intro h' u hu
      obtain ⟨t, ht, hu⟩ := mem_unionMembersAll hu
      exact (D.members t (h t ht)).1 (h' t ht) u hu
    · intro h' t ht
      exact (D.members t (h t ht)).2 fun u hu => h' u (unionMembers_subset ht hu)
  rw [spread]
  constructor
  · intro hp u hu
    rcases unionOf_covers hu with he | he | rfl | ⟨v, hv, hl, hvu⟩
    · exact D.top (.inl he) hp (flat u hu)
    · exact D.top (.inr he) hp (flat u hu)
    · exact D.never
    · have hpv : P v := by
        rcases hl with he | ⟨ms, he, hm⟩
        · exact he ▸ hp
        · rw [he] at hp hq
          exact (D.union hq).1 hp v hm
      rcases hvu with hi | ⟨base, text, rfl, rfl⟩
      · exact D.identical (flat v hv) (flat u hu) hi hpv
      · exact D.literal (flat _ hu) hpv
  · intro hp
    rcases unionOf_cases ts with ⟨hm, he⟩ | ⟨hm, he⟩ | ⟨-, -, ⟨-, he⟩ | ⟨t, hk, he⟩ | he⟩
    · exact he ▸ hp _ hm
    · exact he ▸ hp _ hm
    · exact he ▸ D.never
    · exact he ▸ hp t (mem_of_keptMembers (hk ▸ List.mem_singleton_self t))
    · rw [he] at hq ⊢
      exact (D.union hq).2 fun m hm => hp m (mem_of_keptMembers (mem_sortByText.1 hm))

end Distributes

end TypeCalculus.Ty

import Mathlib.Data.List.Induction
import TypeCalculus.Proofs.Ty.Rebuilt
import TypeCalculus.Proofs.Ty.Walk
import TypeCalculus.Proofs.Assignable.Derived

/-! What a placeholder without a constraint takes of the type that it is compared with. A union is taken apart before
    the placeholder is reached and an intersection shows it only its first member, so what is captured is put together
    from these (`Ty.taken`); it is the type itself unless one of its members is an intersection. -/

namespace TypeCalculus

namespace Ty

/-- What a comparison shows to a bare placeholder first: of an intersection its first member. -/
def lead : Ty → Ty
  | intersection (m :: _) => m
  | t => t

/-- Types united one after the other. -/
def joined : List Ty → Ty
  | [] => never
  | t :: ts => ts.foldl (fun u t => unionOf [u, t]) t

/-- What a bare placeholder captures of a type. -/
def taken (t : Ty) : Ty := joined (t.unionMembers.map lead)

theorem lead_self {t : Ty} (h : ∀ ms, t ≠ intersection ms) : t.lead = t := by
  cases t with
  | intersection ms => exact absurd rfl (h ms)
  | _ => rfl

/-! ### The size of unions -/

theorem sizeOfAll_sublist {xs ys : List Ty} (h : xs.Sublist ys) : sizeOfAll xs ≤ sizeOfAll ys := by
  induction h with
  | slnil => exact Nat.le_refl _
  | cons y _ ih => simp only [sizeOfAll]; omega
  | cons_cons y _ ih => simp only [sizeOfAll]; omega

theorem sizeOfAll_perm {xs ys : List Ty} (h : xs.Perm ys) : sizeOfAll xs = sizeOfAll ys := by
  induction h with
  | nil => rfl
  | cons x _ ih => simp only [sizeOfAll, ih]
  | swap x y _ => simp only [sizeOfAll]; omega
  | trans _ _ ih ih' => exact ih.trans ih'

/-- A member of a union is no union itself. -/
theorem unionMembers_member {t u : Ty} (h : u ∈ t.unionMembers) : u.unionMembers = [u] :=
  unionMembers_self (fun _ hu => union_not_mem_unionMembers t (hu ▸ h)) fun hu => absent_not_mem_unionMembers t (hu ▸ h)

theorem unionMembersAll_flat {ts : List Ty} (h : ∀ t ∈ ts, t.unionMembers = [t]) : unionMembersAll ts = ts := by
  induction ts with
  | nil => rfl
  | cons t ts ih =>
    rw [unionMembersAll, h t List.mem_cons_self, ih fun u hu => h u (List.mem_cons_of_mem _ hu)]
    rfl

/-- The members of a union are no larger together than what is united, if there is anything. -/
theorem sizeOfAll_unionOf {ts : List Ty} (hs : unionMembersAll ts ≠ []) :
    sizeOfAll (unionOf ts).unionMembers ≤ sizeOfAll (unionMembersAll ts) := by
  have flat : ∀ u ∈ unionMembersAll ts, u.unionMembers = [u] := fun u hu => by
    obtain ⟨t, -, ht⟩ := mem_unionMembersAll hu
    exact unionMembers_member ht
  have some : 1 ≤ sizeOfAll (unionMembersAll ts) := by
    obtain ⟨u, us, h⟩ := List.exists_cons_of_ne_nil hs
    rw [h, sizeOfAll]
    exact Nat.le_trans (size_pos u) (Nat.le_add_right _ _)
  have kept : (keptMembers ts).Sublist (unionMembersAll ts) := (distinct_sublist _ _).trans List.filter_sublist
  rcases unionOf_cases ts with ⟨-, h⟩ | ⟨-, h⟩ | ⟨-, -, ⟨-, h⟩ | ⟨t, hk, h⟩ | h⟩
  · rw [h]
    exact some
  · rw [h]
    exact some
  · rw [h]
    exact some
  · have ht : t ∈ unionMembersAll ts := kept.subset (hk ▸ List.mem_cons_self)
    rw [h, flat t ht]
    exact size_le_of_mem ht
  · have sorted : ∀ u ∈ sortByText (keptMembers ts), u.unionMembers = [u] := fun u hu =>
      flat u (kept.subset (mem_sortByText.1 hu))
    rw [h, unionMembers, unionMembersAll_flat sorted, sizeOfAll_perm (sortByText_perm _)]
    exact sizeOfAll_sublist kept

/-! ### Uniting members again -/

theorem unionMembersAll_append (xs ys : List Ty) :
    unionMembersAll (xs ++ ys) = unionMembersAll xs ++ unionMembersAll ys := by
  induction xs with
  | nil => rfl
  | cons x xs ih => rw [List.cons_append, unionMembersAll, unionMembersAll, ih, List.append_assoc]

/-- A union counts only for its members. -/
theorem unionOf_union (ms : List Ty) (t : Ty) : unionOf [union ms, t] = unionOf (ms ++ [t]) := by
  have same : unionMembersAll [union ms, t] = unionMembersAll (ms ++ [t]) := by
    rw [unionMembersAll_append, unionMembersAll, unionMembers]
  unfold unionOf
  rw [same]

theorem UnionForm.init {ms : List Ty} {m : Ty} (h : UnionForm (ms ++ [m])) (two : 2 ≤ ms.length) : UnionForm ms where
  two := two
  single u hu := h.single u (List.mem_append_left _ hu)
  uncovered base text hl hp := h.uncovered base text (List.mem_append_left _ hl) (List.mem_append_left _ hp)
  apart := h.apart.sublist (List.sublist_append_left _ _)
  sorted := h.sorted.sublist (List.sublist_append_left _ _)

/-- Uniting the members of a union one after the other gives the union back. -/
theorem joined_members {ms : List Ty} (h : UnionForm ms) (ha : absent ∉ ms) : joined ms = union ms := by
  induction ms using List.reverseRecOn with
  | nil => exact absurd h.two (by decide)
  | append_singleton ms m ih =>
    have last : joined (ms ++ [m]) = unionOf (ms ++ [m]) := by
      match ms, h, ih with
      | [], h, _ => exact absurd h.two (by simp)
      | [a], _, _ => rfl
      | a :: b :: ms, h, ih =>
        have before : joined (a :: b :: ms) = union (a :: b :: ms) :=
          ih (h.init (by simp)) fun hm => ha (List.mem_append_left _ hm)
        rw [← unionOf_union, ← before]
        exact List.foldl_concat ..
    rw [last, unionOf_members h ha]

/-- What a bare placeholder captures of a type without intersections among its members is the type. -/
theorem taken_self {a : Ty} (ha : Built a) (hp : a ≠ absent) (h : ∀ ms, intersection ms ∉ a.unionMembers) : a.taken = a := by
  have same : a.unionMembers.map lead = a.unionMembers :=
    (List.map_congr_left fun m hm => lead_self fun ms hms => h ms (hms ▸ hm)).trans (List.map_id _)
  rw [taken, same]
  by_cases hu : ∃ ms, a = union ms
  · obtain ⟨ms, rfl⟩ := hu
    have present : absent ∉ ms := ha.tidy.node.union ms rfl
    have form : UnionForm ms := ha.normal.form
    rw [unionMembers, unionMembersAll_self form.single present, joined_members form present]
  · rw [unionMembers_self (fun ms hms => hu ⟨ms, hms⟩) hp]
    rfl

theorem unionMembers_ne_nil {a : Ty} (ha : Built a) (hp : a ≠ absent) : a.unionMembers ≠ [] := by
  by_cases hu : ∃ ms, a = union ms
  · obtain ⟨ms, rfl⟩ := hu
    have form : UnionForm ms := ha.normal.form
    rw [unionMembers, unionMembersAll_self form.single (ha.tidy.node.union ms rfl)]
    exact List.ne_nil_of_length_pos (Nat.lt_of_lt_of_le Nat.zero_lt_two form.two)
  · rw [unionMembers_self (fun ms hms => hu ⟨ms, hms⟩) hp]
    exact List.cons_ne_nil _ _

/-- What unions have if the united types have it goes to types united one after the other. -/
theorem joined_forall {P : Ty → Prop} (union : ∀ {ts : List Ty}, (∀ t ∈ ts, P t) → P (unionOf ts)) {ts : List Ty}
    (h : ∀ t ∈ ts, P t) : P (joined ts) := by
  induction ts using List.reverseRecOn with
  | nil => exact show P (unionOf []) from union nofun
  | append_singleton ts t ih =>
    have last : P t := h t (List.mem_append_right _ List.mem_cons_self)
    cases ts with
    | nil => exact last
    | cons u us =>
      have step : joined (u :: us ++ [t]) = unionOf [joined (u :: us), t] := List.foldl_concat ..
      rw [step]
      refine union (List.forall_mem_cons.2 ⟨ih fun v hv => h v (List.mem_append_left _ hv), ?_⟩)
      exact List.forall_mem_singleton.2 last

/-- A property that goes from types to their members and to unions goes to what a bare placeholder captures. -/
theorem taken_forall {P : Ty → Prop} (union : ∀ {ts : List Ty}, (∀ t ∈ ts, P t) → P (unionOf ts))
    (unionMember : ∀ {ms : List Ty}, P (Ty.union ms) → ∀ m ∈ ms, P m)
    (meetMember : ∀ {ms : List Ty}, P (intersection ms) → ∀ m ∈ ms, P m) {a : Ty} (ha : P a) : P a.taken := by
  refine joined_forall union fun t ht => ?_
  obtain ⟨m, hm, rfl⟩ := List.mem_map.1 ht
  have member : P m := unionMembers_forall unionMember a ha m hm
  unfold lead
  split
  · exact meetMember member _ List.mem_cons_self
  · exact member

theorem inherited_taken {P : Ty → Prop} (h : Inherited P) {a : Ty} (ha : P a) : P a.taken :=
  taken_forall h.unionOf (fun hu _ => h.unionMember hu) (fun hu _ => h.meetMember hu) ha

theorem built_taken {a : Ty} (ha : Built a) : Built a.taken :=
  taken_forall built_unionOf (fun hu _ => hu.part rfl) (fun hu _ => hu.part rfl) ha

theorem size_le_members {t : Ty} (h : Built t) : t.size ≤ 1 + sizeOfAll t.unionMembers := by
  by_cases hu : ∃ ms, t = union ms
  · obtain ⟨ms, rfl⟩ := hu
    have form : UnionForm ms := h.normal.form
    refine Nat.le_of_eq ?_
    rw [unionMembers, unionMembersAll_self form.single (h.tidy.node.union ms rfl), size]
  · by_cases hp : t = absent
    · subst hp
      exact Nat.le_refl _
    · rw [unionMembers_self (fun ms hms => hu ⟨ms, hms⟩) hp, sizeOfAll]
      omega

theorem size_lead (t : Ty) : t.lead.size ≤ t.size := by
  unfold lead
  split
  · simp only [size, sizeOfAll]
    omega
  · exact Nat.le_refl _

/-- Uniting one after the other makes no more than there is. -/
theorem sizeOfAll_joined {ts : List Ty} (h : ∀ t ∈ ts, t.unionMembers = [t]) (hs : ts ≠ []) :
    sizeOfAll (joined ts).unionMembers ≤ sizeOfAll ts := by
  induction ts using List.reverseRecOn with
  | nil => exact absurd rfl hs
  | append_singleton ts t ih =>
    have last : t.unionMembers = [t] := h t (List.mem_append_right _ List.mem_cons_self)
    cases ts with
    | nil =>
      refine Nat.le_of_eq ?_
      rw [List.nil_append, joined, List.foldl_nil, last]
    | cons u us =>
      have before := ih (fun v hv => h v (List.mem_append_left _ hv)) (List.cons_ne_nil _ _)
      have step : joined (u :: us ++ [t]) = unionOf [joined (u :: us), t] := List.foldl_concat ..
      have flat : unionMembersAll [joined (u :: us), t] = (joined (u :: us)).unionMembers ++ [t] := by
        rw [unionMembersAll, unionMembersAll, unionMembersAll, last, List.append_nil]
      have united : sizeOfAll (unionOf [joined (u :: us), t]).unionMembers ≤ _ := sizeOfAll_unionOf (by rw [flat]; simp)
      rw [flat, sizeOfAll_append] at united
      rw [step, sizeOfAll_append]
      omega

/-! ### The members shown -/

/-- The type may be shown to a placeholder: it is not answered for before and not taken apart. -/
structure Shown (t : Ty) : Prop where
  present : t.isAbsent = false
  inhabited : t.isNever = false
  notUnion : ∀ ms, t ≠ union ms
  notMeet : ∀ ms, t ≠ intersection ms
  closed : t.containsInfer = false

theorem shown_of_meetMember {m : Ty} (h : m.isMeetMember = true) (hp : m ≠ absent) (hi : m.containsInfer = false) :
    m.Shown := by
  cases m with
  | absent => exact absurd rfl hp
  | union | intersection | any | unknown | never => cases h
  | _ => exact ⟨rfl, rfl, nofun, nofun, hi⟩

end Ty

namespace Assignable
open Ty (Normal Built Shown)

theorem containsInfer_part {t u : Ty} (h : t.containsInfer = false) (hu : u ∈ t.parts) : u.containsInfer = false := by
  rw [Bool.eq_false_iff] at h ⊢
  exact fun hi => h (Ty.occurs_of_part rfl hu hi)

theorem each_map {α : Type} {E : α → List Capture → Prop} {f : α → Capture} {xs : List α} (h : ∀ x ∈ xs, E x [f x]) :
    Each E xs (xs.map f) := by
  induction xs with
  | nil => exact .nil
  | cons x xs ih => exact .cons (h x List.mem_cons_self) (ih fun y hy => h y (List.mem_cons_of_mem _ hy))

variable {o : Options} (ho : o.anyFits = false)
include ho

theorem not_evident {t : Ty} (name : String) (hn : t.isNever = false) (hi : t.containsInfer = false) :
    evident o t (.infer name .absent) = false := by
  have differ : t.identical (.infer name .absent) = false := by
    cases t with
    | infer => cases hi
    | _ => rfl
  rw [evident, hn, differ, ho, Bool.and_false]
  rfl

/-- A type that is not taken apart is captured. -/
theorem derives_shown {t : Ty} (h : t.Shown) (name : String) (n : Nat) :
    Derives o (n + 1) t (.infer name .absent) [⟨name, .absent, t⟩] :=
  ⟨h.present, rfl, .rule (not_evident ho name h.inhabited h.closed)
    (.single h.notUnion nofun h.notMeet nofun (.targetInfer .unconstrained))⟩

/-- Of an intersection the first member is captured. -/
theorem derives_lead {t : Ty} (hi : t.containsInfer = false) (hs : t.lead.Shown) (name : String) (n : Nat) :
    Derives o (n + 2) t (.infer name .absent) [⟨name, .absent, t.lead⟩] := by
  by_cases hm : ∃ m ms, t = .intersection (m :: ms)
  · obtain ⟨m, ms, rfl⟩ := hm
    exact ⟨rfl, rfl, .rule (not_evident ho name rfl hi) (.sourcePart nofun (.here (derives_shown ho hs name n)))⟩
  · have same : t.lead = t := by
      cases t with
      | intersection ms =>
        cases ms with
        | nil => rfl
        | cons m ms => exact absurd ⟨m, ms, rfl⟩ hm
      | _ => rfl
    rw [same] at hs ⊢
    exact derives_shown ho hs name (n + 1)

omit ho in
/-- The first member of a type that is no union may be shown. -/
theorem shown_lead {t : Ty} (h : Built t) (hp : t ≠ .absent) (hn : t ≠ .never) (hi : t.containsInfer = false)
    (hu : ∀ ms, t ≠ .union ms) : t.lead.Shown := by
  cases t with
  | absent => exact absurd rfl hp
  | never => exact absurd rfl hn
  | union ms => exact absurd rfl (hu ms)
  | intersection ms =>
    have form : Ty.MeetForm ms := h.normal.form
    have met : Ty.Met ms := h.tidy.node.meet ms rfl
    cases ms with
    | nil => exact absurd form.two (by decide)
    | cons m ms =>
      refine Ty.shown_of_meetMember (form.single m List.mem_cons_self) (fun hm => ?_)
        (containsInfer_part hi (t := .intersection (m :: ms)) List.mem_cons_self)
      exact met.present (hm ▸ List.mem_cons_self)
  | _ => exact ⟨rfl, rfl, nofun, nofun, hi⟩

omit ho in
/-- A member of a union is present, and neither `never` nor a union. -/
theorem member_spec {ms : List Ty} (form : Ty.UnionForm ms) (present : .absent ∉ ms) {m : Ty} (hm : m ∈ ms) :
    m ≠ .absent ∧ m ≠ .never ∧ ∀ ns, m ≠ .union ns := by
  have single := form.single m hm
  refine ⟨fun h => present (h ▸ hm), fun h => ?_, fun ns h => ?_⟩
  · rw [h] at single
    cases single
  · rw [h] at single
    cases single

omit ho in
/-- What is captured is no larger than the type. -/
theorem size_taken {a : Ty} (ha : Built a) (hp : a ≠ .absent) (hn : a ≠ .never) (hi : a.containsInfer = false) :
    a.taken.size ≤ a.size := by
  by_cases hu : ∃ ms, a = .union ms
  · obtain ⟨ms, rfl⟩ := hu
    have present : .absent ∉ ms := ha.tidy.node.union ms rfl
    have form : Ty.UnionForm ms := ha.normal.form
    have flat : ∀ t ∈ ms.map Ty.lead, t.unionMembers = [t] := by
      intro t ht
      obtain ⟨m, hm, rfl⟩ := List.mem_map.1 ht
      obtain ⟨hpm, hnm, hum⟩ := member_spec form present hm
      have shown := shown_lead (ha.part rfl hm) hpm hnm (containsInfer_part hi hm) hum
      exact Ty.unionMembers_self shown.notUnion fun h => by
        have := shown.present
        rw [h] at this
        cases this
    have leads : Ty.sizeOfAll (ms.map Ty.lead) ≤ Ty.sizeOfAll ms := by
      clear present form flat hi hp hn ha
      induction ms with
      | nil => exact Nat.le_refl _
      | cons m ms ih =>
        have := Ty.size_lead m
        simp only [List.map_cons, Ty.sizeOfAll]
        omega
    have some : ms.map Ty.lead ≠ [] :=
      List.ne_nil_of_length_pos (by rw [List.length_map]; exact Nat.lt_of_lt_of_le Nat.zero_lt_two form.two)
    have joined := Ty.sizeOfAll_joined flat some
    have whole := Ty.size_le_members (Ty.built_taken ha)
    rw [Ty.taken, Ty.unionMembers, Ty.unionMembersAll_self form.single present] at whole ⊢
    rw [Ty.size]
    omega
  · rw [Ty.taken, Ty.unionMembers_self (fun ms h => hu ⟨ms, h⟩) hp]
    exact Ty.size_lead a

/-- What a type without placeholders is compared with an unconstrained one captures: for each member of the type what
    is shown of it. -/
theorem derives_taken {a : Ty} (ha : Built a) (hp : a ≠ .absent) (hn : a ≠ .never) (hi : a.containsInfer = false)
    (name : String) (n : Nat) :
    Derives o (n + 3) a (.infer name .absent) (a.unionMembers.map fun m => ⟨name, .absent, m.lead⟩) := by
  by_cases hu : ∃ ms, a = .union ms
  · obtain ⟨ms, rfl⟩ := hu
    have present : .absent ∉ ms := ha.tidy.node.union ms rfl
    have form : Ty.UnionForm ms := ha.normal.form
    have member : ∀ m ∈ ms, Derives o (n + 2) m (.infer name .absent) [⟨name, .absent, m.lead⟩] := by
      intro m hm
      obtain ⟨hpm, hnm, hum⟩ := member_spec form present hm
      have him : m.containsInfer = false := containsInfer_part hi hm
      exact derives_lead ho him (shown_lead (ha.part rfl hm) hpm hnm him hum) name n
    rw [Ty.unionMembers, Ty.unionMembersAll_self form.single present]
    exact ⟨rfl, rfl, .rule (not_evident ho name rfl hi) (.sourceMembers (each_map member))⟩
  · have hum : ∀ ms, a ≠ .union ms := fun ms h => hu ⟨ms, h⟩
    rw [Ty.unionMembers_self hum hp]
    exact derives_lead ho hi (shown_lead ha hp hn hi hum) name (n + 1)

omit ho in
/-- Captures of one name are united one after the other. -/
theorem replay_named (name : String) (t : Ty) (ts : List Ty) :
    replay ((t :: ts).map fun u => ⟨name, .absent, u⟩) {} = ⟨[(name, Ty.joined (t :: ts))]⟩ := by
  have rest : ∀ u : Ty, replay (ts.map fun v => ⟨name, .absent, v⟩) ⟨[(name, u)]⟩ =
      ⟨[(name, ts.foldl (fun u v => Ty.unionOf [u, v]) u)]⟩ := by
    induction ts with
    | nil => exact fun _ => rfl
    | cons v vs ih =>
      intro u
      have again : Capture.record ⟨[(name, u)]⟩ ⟨name, .absent, v⟩ = ⟨[(name, Ty.unionOf [u, v])]⟩ := by
        simp [Capture.record, Subst.insert, Subst.insertEntry, Subst.find?]
      rw [List.map_cons, replay, List.foldl_cons, again]
      exact ih _
  exact rest t

/-- A comparison with an unconstrained placeholder succeeds and captures what is taken of the type, if it is not cut off;
    three levels are always enough. -/
theorem run_taken {a : Ty} (ha : Built a) (hp : a ≠ .absent) (hn : a ≠ .never) (hi : a.containsInfer = false)
    (name : String) (hcut : 3 ≤ o.limit ∨ (run o a (.infer name .absent)).2.clipped = false) :
    (run o a (.infer name .absent)).1 = true ∧ (run o a (.infer name .absent)).2.captures = ⟨[(name, a.taken)]⟩ := by
  have deep : ∃ n, relate o (n + 3) a (.infer name .absent) {} = run o a (.infer name .absent) := by
    rcases hcut with h | h
    · exact ⟨o.limit - 3, by rw [Nat.sub_add_cancel h]; rfl⟩
    · exact ⟨o.limit, (relate_refines rfl (Nat.le_add_right _ _) a _).same {} h⟩
  obtain ⟨n, deep⟩ := deep
  obtain ⟨ok, taken⟩ := (relate_derived o (n + 3) a _).sound _ (derives_taken ho ha hp hn hi name n) {}
  rw [deep] at ok taken
  obtain ⟨m, ms, hm⟩ := List.exists_cons_of_ne_nil (Ty.unionMembers_ne_nil ha hp)
  have named := replay_named name m.lead (ms.map Ty.lead)
  rw [← List.map_cons, List.map_map, ← hm] at named
  rw [Ty.taken, taken, hm]
  exact ⟨ok, hm ▸ named⟩

end Assignable
end TypeCalculus

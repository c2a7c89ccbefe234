import TypeCalculus.Proofs.Ty.Renamed.Basic

/-! The constructors take renamed types to renamed types: what they keep, drop and split does not depend on names
    (`renamed_unionOf`, `renamed_templateOf`, `renamed_ofProps`). -/

namespace TypeCalculus.Ty

section Leaves
variable {S T : Ty → Prop} {N : Ty → Ty → Prop}

/-- The relation relates types without parts to themselves only. -/
structure Atomic (N : Ty → Ty → Prop) : Prop where
  self : ∀ {t}, t.isAtom = true → N t t
  left : ∀ {t u}, N t u → t.isAtom = true → t = u
  right : ∀ {t u}, N t u → u.isAtom = true → t = u

theorem Atomic.flip (A : Atomic N) : Atomic fun t u => N u t := ⟨A.self, fun h ha => (A.right h ha).symm, fun h ha => (A.left h ha).symm⟩

/-- What is left of members each of which has a partner has a partner among what is left. -/
theorem leaves_partner (A : Atomic N) (left : ∀ a, S a → ∃ b, T b ∧ N a b) (right : ∀ b, T b → ∃ a, S a ∧ N a b) {a : Ty}
    (ha : Leaves S a) : ∃ b, Leaves T b ∧ N a b := by
  have atom : ∀ {t : Ty}, t.isAtom = true → (S t ↔ T t) := by
    intro t ht
    constructor
    · intro hs
      obtain ⟨b, hb, hn⟩ := left t hs
      exact A.left hn ht ▸ hb
    · intro hs
      obtain ⟨a, ha, hn⟩ := right t hs
      exact A.right hn ht ▸ ha
  cases ha with
  | any hs => exact ⟨any, .any ((atom rfl).1 hs), A.self rfl⟩
  | unknown ha hs => exact ⟨unknown, .unknown (mt (atom rfl).2 ha) ((atom rfl).1 hs), A.self rfl⟩
  | member ha hk hs hn hb =>
    obtain ⟨b, ht, hab⟩ := left a hs
    refine ⟨b, .member (mt (atom rfl).2 ha) (mt (atom rfl).2 hk) ht ?_ ?_, hab⟩
    · rintro rfl
      exact hn (A.right hab rfl)
    · rintro base text rfl hp
      exact hb base text (A.right hab rfl) ((atom rfl).2 hp)
  | never hs =>
    refine ⟨never, .never fun v hv => ?_, A.self rfl⟩
    obtain ⟨a, ha, hn⟩ := right v hv
    rw [hs a ha] at hn
    exact (A.left hn rfl).symm

end Leaves

section Renamed
variable {φ : String → String} {t u : Ty}

/-! ### Unions -/

theorem atomic_matches : Atomic (Matches φ) := by
  have same : ∀ {t u : Ty}, RenamedNode φ (Renamed φ) t u → t.isAtom = true ∨ u.isAtom = true → t = u := by
    intro t u h ha
    cases h with
    | frame hf hs => exact eq_of_shell_atom hs ha
    | intersection => rcases ha with ha | ha <;> cases ha
  refine ⟨fun {t} ha => ?_, fun {t u} h ha => ?_, fun {t u} h ha => ?_⟩
  · have leaf : t.isFrame = true ∧ t.parts = [] := by cases t <;> first | exact ⟨rfl, rfl⟩ | cases ha
    refine matches_frame leaf.1 (by cases t <;> first | rfl | cases ha) ?_
    rw [leaf.2]
    exact .nil
  · have := same h (.inl (by rwa [erased_atom ha]))
    rw [erased_atom ha] at this
    exact (eq_of_erased_atom this.symm ha).symm
  · have := same h (.inr (by rwa [erased_atom ha]))
    rw [erased_atom ha] at this
    exact eq_of_erased_atom this ha

theorem renamed_atom (φ : String → String) {t : Ty} (ht : t.isAtom = true) : Renamed φ t t := (atomic_matches.self ht).renamed

/-- One type is renamed as another if every member of either has a partner among the members of the other. -/
theorem renamed_iff_members : Renamed φ t u ↔
    (∀ a, t.Has a → ∃ b, u.Has b ∧ Matches φ a b) ∧ ∀ b, u.Has b → ∃ a, t.Has a ∧ Matches φ a b := by
  rw [renamed_iff]
  have has : ∀ {t v : Ty}, t.Has v ↔ v.erased ∈ t.erased.unionMembers := fun {t v} => has_iff t v
  have listed : ∀ {t v : Ty}, v ∈ t.erased.unionMembers → t.Has v ∧ v.erased = v := by
    intro t v hv
    have bare : v.erased = v := by
      rw [erased, unionMembers_annotated, annotatedAll_eq] at hv
      obtain ⟨w, -, rfl⟩ := List.mem_map.1 hv
      exact erased_erased w
    exact ⟨has.2 (by rwa [bare]), bare⟩
  constructor
  · rintro ⟨hl, hr⟩
    refine ⟨fun a ha => ?_, fun b hb => ?_⟩
    · obtain ⟨b, hb, hn⟩ := hl _ (has.1 ha)
      exact ⟨b, (listed hb).1, by rwa [Matches, (listed hb).2]⟩
    · obtain ⟨a, ha, hn⟩ := hr _ (has.1 hb)
      exact ⟨a, (listed ha).1, by rwa [Matches, (listed ha).2]⟩
  · rintro ⟨hl, hr⟩
    refine ⟨fun a ha => ?_, fun b hb => ?_⟩
    · obtain ⟨b, hb, hn⟩ := hl a (listed ha).1
      exact ⟨b.erased, has.1 hb, by rwa [Matches, (listed ha).2] at hn⟩
    · obtain ⟨a, ha, hn⟩ := hr b (listed hb).1
      exact ⟨a.erased, has.1 ha, by rwa [Matches, (listed hb).2] at hn⟩

/-- The members of types that are renamed as one another have partners. -/
theorem Renamed.members (h : Renamed φ t u) :
    (∀ a ∈ t.unionMembers, ∃ b ∈ u.unionMembers, Matches φ a b) ∧ ∀ b ∈ u.unionMembers, ∃ a ∈ t.unionMembers, Matches φ a b := by
  obtain ⟨hl, hr⟩ := renamed_iff_members.1 h
  constructor
  · intro a ha
    obtain ⟨b, ⟨b', hb, hi⟩, hn⟩ := hl a ⟨a, ha, identical_refl a⟩
    exact ⟨b', hb, hn.congr (identical_refl a) (identical_symm hi)⟩
  · intro b hb
    obtain ⟨a, ⟨a', ha, hi⟩, hn⟩ := hr b ⟨b, hb, identical_refl b⟩
    exact ⟨a', ha, hn.congr (identical_symm hi) (identical_refl b)⟩

/-- Unions of types that are renamed as one another, in whatever order and number, are renamed as one another. -/
theorem renamed_unionOf {ts us : List Ty} (left : ∀ t ∈ ts, ∃ u ∈ us, Renamed φ t u)
    (right : ∀ u ∈ us, ∃ t ∈ ts, Renamed φ t u) : Renamed φ (unionOf ts) (unionOf us) := by
  have forth : ∀ a, SomeHas ts a → ∃ b, SomeHas us b ∧ Matches φ a b := by
    rintro a ⟨t, ht, ha⟩
    obtain ⟨u, hu, h⟩ := left t ht
    obtain ⟨b, hb, hn⟩ := (renamed_iff_members.1 h).1 a ha
    exact ⟨b, ⟨u, hu, hb⟩, hn⟩
  have back : ∀ b, SomeHas us b → ∃ a, SomeHas ts a ∧ Matches φ a b := by
    rintro b ⟨u, hu, hb⟩
    obtain ⟨t, ht, h⟩ := right u hu
    obtain ⟨a, ha, hn⟩ := (renamed_iff_members.1 h).2 b hb
    exact ⟨a, ⟨t, ht, ha⟩, hn⟩
  rw [renamed_iff_members]
  simp only [has_unionOf]
  exact ⟨fun a => leaves_partner atomic_matches forth back, fun b => leaves_partner atomic_matches.flip back forth⟩

theorem renamed_unionOf_forall₂ {ts us : List Ty} (h : List.Forall₂ (Renamed φ) ts us) : Renamed φ (unionOf ts) (unionOf us) :=
  renamed_unionOf (fun _ ht => partner h ht) fun _ hu => partner h.flip hu

/-! ### Templates -/

/-- Segments with the same text, or with holes that are related. -/
inductive RelatedSegments (R : Ty → Ty → Prop) : Segment Ty → Segment Ty → Prop
  | text (s : String) : RelatedSegments R (.text s) (.text s)
  | hole {t u : Ty} : R t u → RelatedSegments R (.hole t) (.hole u)

section Segments
variable {R S : Ty → Ty → Prop} {xs ys done done' : List (Segment Ty)}

theorem related_of_blanked (h : xs.map blankHole = ys.map blankHole) (hp : List.Forall₂ R (holes xs) (holes ys)) :
    List.Forall₂ (RelatedSegments R) xs ys := by
  induction xs generalizing ys with
  | nil =>
    cases ys with
    | nil => exact .nil
    | cons => cases h
  | cons x xs ih =>
    cases ys with
    | nil => cases h
    | cons y ys =>
      rw [List.map_cons, List.map_cons, List.cons.injEq] at h
      obtain ⟨hx, hrest⟩ := h
      cases x with
      | text s =>
        cases y with
        | text t =>
          cases hx
          exact .cons (.text s) (ih hrest hp)
        | hole => cases hx
      | hole t =>
        cases y with
        | text => cases hx
        | hole u =>
          rw [holes_hole, holes_hole, List.forall₂_cons] at hp
          exact .cons (.hole hp.1) (ih hrest hp.2)

theorem blanked_of_related (h : List.Forall₂ (RelatedSegments R) xs ys) :
    xs.map blankHole = ys.map blankHole ∧ List.Forall₂ R (holes xs) (holes ys) := by
  induction h with
  | nil => exact ⟨rfl, .nil⟩
  | cons h _ ih =>
    obtain ⟨he, hp⟩ := ih
    cases h with
    | text s => exact ⟨congrArg (_ :: ·) he, hp⟩
    | hole h => exact ⟨congrArg (_ :: ·) he, .cons h hp⟩

theorem related_flip (h : List.Forall₂ (RelatedSegments R) xs ys) : List.Forall₂ (RelatedSegments fun t u => R u t) ys xs :=
  h.flip.imp fun _ _ h => by
    cases h with
    | text s => exact .text s
    | hole h => exact .hole h

theorem related_pushText (h : List.Forall₂ (RelatedSegments R) done done') (s : String) :
    List.Forall₂ (RelatedSegments R) (pushText done s) (pushText done' s) := by
  unfold pushText
  split
  · exact h
  · cases h with
    | nil => exact .cons (.text s) .nil
    | cons h hs =>
      cases h with
      | text t => exact .cons (.text _) hs
      | hole h => exact .cons (.text s) (.cons (.hole h) hs)

theorem related_pushSegments (h : List.Forall₂ (RelatedSegments R) done done') (hi : List.Forall₂ (RelatedSegments R) xs ys) :
    List.Forall₂ (RelatedSegments R) (pushSegments done xs) (pushSegments done' ys) := by
  induction hi generalizing done done' with
  | nil => exact h
  | cons hx _ ih =>
    cases hx with
    | text s => exact ih (related_pushText h s)
    | hole hx => exact ih (.cons (.hole hx) h)

end Segments

theorem Matches.template {xs : List (Segment Ty)} (h : Matches φ (template xs) u) :
    ∃ ys, u = Ty.template ys ∧ List.Forall₂ (RelatedSegments (Renamed φ)) xs ys := by
  obtain ⟨hs, hp⟩ := h.frame rfl
  cases u with
  | template ys => exact ⟨ys, rfl, related_of_blanked (template.inj hs) hp⟩
  | _ => cases hs

theorem renamed_closeTemplate {xs ys : List (Segment Ty)} (h : List.Forall₂ (RelatedSegments (Matches φ)) xs ys) :
    Renamed φ (closeTemplate xs) (closeTemplate ys) := by
  have whole : Renamed φ (Ty.template xs) (Ty.template ys) := by
    obtain ⟨hs, hp⟩ := blanked_of_related h
    exact (matches_frame (t := Ty.template xs) (u := Ty.template ys) rfl (congrArg Ty.template hs)
      (hp.imp fun _ _ => Matches.renamed)).renamed
  unfold closeTemplate
  split
  · cases h
    exact renamed_atom φ rfl
  · cases h with
    | cons h hs =>
      cases hs
      cases h
      exact renamed_atom φ rfl
  · cases h with
    | cons h hs =>
      cases hs
      cases h with
      | hole h =>
        rw [← atomic_matches.left h rfl]
        exact renamed_atom φ rfl
  · rename_i h₀ h₁ h₂
    split
    · cases h
      exact absurd rfl h₀
    · cases h with
      | cons h hs =>
        cases hs
        cases h
        exact absurd rfl (h₁ _)
    · cases h with
      | cons h hs =>
        cases hs
        cases h with
        | hole h =>
          rw [atomic_matches.right h rfl] at h₂
          exact absurd rfl h₂
    · exact whole

mutual

theorem isStringLike_rename (φ : String → String) : (t : Ty) → (t.rename φ).isStringLike = t.isStringLike
  | union ms => allStringLike_rename φ ms
  | intersection ms => someStringLike_rename φ ms
  | absent | any | unknown | void | never | prim _ | literal .. | template _ | object .. | array .. | tuple _
  | param .. | infer .. | conditional .. | reference .. | function .. | keyOf _ | access .. | mapping .. => rfl

theorem allStringLike_rename (φ : String → String) : (ts : List Ty) → allStringLike (renameAll φ ts) = allStringLike ts
  | [] => rfl
  | t :: ts => congrArg₂ (· && ·) (isStringLike_rename φ t) (allStringLike_rename φ ts)

theorem someStringLike_rename (φ : String → String) : (ts : List Ty) → someStringLike (renameAll φ ts) = someStringLike ts
  | [] => rfl
  | t :: ts => congrArg₂ (· || ·) (isStringLike_rename φ t) (someStringLike_rename φ ts)

end

theorem someStringLike_perm {ts us : List Ty} (h : ts.Perm us) : someStringLike ts = someStringLike us := by
  have listed : ∀ ts, someStringLike ts = ts.any isStringLike := fun ts => by
    induction ts with
    | nil => rfl
    | cons t ts ih => rw [someStringLike, ih, List.any_cons]
  rw [listed, listed]
  exact h.any_eq

/-- Whether a hole is kept, and whether it may be printed, is not changed by renaming. -/
theorem Matches.hole (h : Matches φ t u) :
    t.keepsHole = u.keepsHole ∧ t.isStringLike = u.isStringLike ∧ t.isNever = u.isNever := by
  have bare : ∀ {a b : Ty}, RenamedNode φ (Renamed φ) a b →
      a.keepsHole = b.keepsHole ∧ a.isStringLike = b.isStringLike ∧ a.isNever = b.isNever := by
    intro a b h
    cases h with
    | @frame a b hf hs =>
      have hf' := isFrame_of_shell hs hf
      refine ⟨shell_congr (fun φ t => by cases t <;> rfl) hs, ?_, shell_congr (fun φ t => by cases t <;> rfl) hs⟩
      have kind : a.isStringLike = (a.isFrame && a.isStringLike) := by rw [hf, Bool.true_and]
      have kind' : b.isStringLike = (b.isFrame && b.isStringLike) := by rw [hf', Bool.true_and]
      rw [kind, kind']
      exact shell_congr (p := fun t => t.isFrame && t.isStringLike) (fun φ t => by cases t <;> rfl) hs
    | @intersection ms ns hp =>
      refine ⟨rfl, ?_, rfl⟩
      change someStringLike ms = someStringLike ns
      rw [someStringLike_perm hp, ← renameAll_eq, someStringLike_rename]
  have erased := bare h
  simp only [Ty.erased, keepsHole_annotated, isStringLike_annotated, isNever_annotated] at erased
  exact erased

theorem single_of_openHole (h : t.isOpenHole = true) : t.erased.unionMembers = [t.erased] := by
  cases t with
  | union | absent => cases h
  | _ => rfl

/-- The holes of a template in normal form are single types, so they are renamed by their nodes. -/
theorem related_nodes {xs ys : List (Segment Ty)} (h : List.Forall₂ (RelatedSegments (Renamed φ)) xs ys)
    (hx : ∀ t ∈ holes xs, t.isOpenHole = true) (hy : ∀ t ∈ holes ys, t.isOpenHole = true) :
    List.Forall₂ (RelatedSegments (Matches φ)) xs ys := by
  induction h with
  | nil => exact .nil
  | cons h _ ih =>
    cases h with
    | text s => exact .cons (.text s) (ih hx hy)
    | hole h =>
      rw [holes_hole, List.forall_mem_cons] at hx hy
      exact .cons (.hole ((matches_iff (single_of_openHole hx.1) (single_of_openHole hy.1)).2 h)) (ih hx.2 hy.2)

/-- Segments none of whose holes is split make types that are renamed as one another. -/
theorem renamed_templateAfter {done done' xs ys : List (Segment Ty)} (hd : List.Forall₂ (RelatedSegments (Matches φ)) done done')
    (h : List.Forall₂ (RelatedSegments (Matches φ)) xs ys) (hs : ∀ t ∈ holes xs, t.isSplit = false)
    (hx : ∀ t ∈ holes xs, Built t) (hy : ∀ t ∈ holes ys, Built t) : Renamed φ (templateAfter done xs) (templateAfter done' ys) := by
  induction h generalizing done done' with
  | nil =>
    rw [templateAfter, templateAfter]
    exact renamed_closeTemplate (List.rel_reverse hd)
  | @cons x y xs ys h _ ih =>
    cases h with
    | text s =>
      rw [templateAfter, templateAfter]
      exact ih (related_pushText hd s) hs hx hy
    | @hole t u h =>
      rw [holes_hole, List.forall_mem_cons] at hs hx hy
      have rest : ∀ {done done'}, List.Forall₂ (RelatedSegments (Matches φ)) done done' →
          Renamed φ (templateAfter done xs) (templateAfter done' ys) := fun hd => ih hd hs.2 hx.2 hy.2
      by_cases hk : t.keepsHole = true
      · rw [templateAfter_kept _ _ hk, templateAfter_kept _ _ (h.hole.1 ▸ hk), h.hole.2.1, h.hole.2.2]
        split
        · exact renamed_atom φ rfl
        · exact rest (.cons (.hole h) hd)
      · cases t with
        | literal base s =>
          obtain rfl := atomic_matches.left h rfl
          rw [templateAfter, templateAfter]
          split
          · exact renamed_atom φ rfl
          · exact rest (related_pushText hd s)
        | prim p =>
          obtain rfl := atomic_matches.left h rfl
          cases p with
          | null | undefined =>
            rw [templateAfter, templateAfter]
            exact rest (related_pushText hd _)
          | symbol =>
            rw [templateAfter, templateAfter]
            exact renamed_atom φ rfl
          | boolean => cases hs.1
          | _ => exact absurd rfl hk
        | template zs =>
          obtain ⟨ws, rfl, hw⟩ := h.template
          rw [templateAfter, templateAfter]
          have form : TemplateForm zs := hx.1.normal.form
          have form' : TemplateForm ws := hy.1.normal.form
          exact rest (related_pushSegments hd (related_nodes hw form.holes form'.holes))
        | union => cases hs.1
        | _ => exact absurd rfl hk

theorem picks_members {t : Ty} (ht : Built t) (present : t ≠ absent) {a : Ty} :
    a ∈ t.picks ↔ ∃ m ∈ t.unionMembers, a ∈ m.picks := by
  cases t with
  | union ms =>
    have form : UnionForm ms := ht.normal.form
    rw [unionMembers, unionMembersAll_self form.single (ht.tidy.node.union ms rfl), picks, mem_picksAll]
  | absent => exact absurd rfl present
  | _ => simp [unionMembers]

/-- Every alternative of a hole has a partner among the alternatives of a hole whose members are partners. -/
theorem picks_partner {N : Ty → Ty → Prop} (A : Atomic N) {t u : Ty} (ht : Built t) (hu : Built u) (pt : t ≠ absent)
    (pu : u ≠ absent) (h : ∀ a ∈ t.unionMembers, ∃ b ∈ u.unionMembers, N a b) {a : Ty} (ha : a ∈ t.picks) :
    ∃ b ∈ u.picks, N a b := by
  obtain ⟨m, hm, ha⟩ := (picks_members ht pt).1 ha
  obtain ⟨m', hm', hn⟩ := h m hm
  by_cases hb : m = prim .boolean
  · subst hb
    obtain rfl := A.left hn rfl
    have atom : a.isAtom = true := by
      rcases List.mem_cons.1 ha with rfl | ha
      · rfl
      · cases List.mem_singleton.1 ha
        rfl
    exact ⟨a, (picks_members hu pu).2 ⟨_, hm', ha⟩, A.self atom⟩
  · have hb' : m' ≠ prim .boolean := by
      rintro rfl
      exact hb (A.right hn rfl)
    rw [picks_self (fun ms he => union_not_mem_unionMembers t (he ▸ hm)) hb, List.mem_singleton] at ha
    refine ⟨m', (picks_members hu pu).2 ⟨m', hm', ?_⟩, ha ▸ hn⟩
    rw [picks_self (fun ms he => union_not_mem_unionMembers u (he ▸ hm')) hb']
    exact List.mem_singleton_self _

/-- A choice of alternatives in some segments has a partner among the choices in the related segments. -/
theorem combinations_partner {N R : Ty → Ty → Prop} {xs ys : List (Segment Ty)} (h : List.Forall₂ (RelatedSegments R) xs ys)
    (hp : ∀ t ∈ holes xs, ∀ u ∈ holes ys, R t u → ∀ a ∈ t.picks, ∃ b ∈ u.picks, N a b) {chosen : List (Segment Ty)}
    (hc : chosen ∈ combinations xs) : ∃ chosen' ∈ combinations ys, List.Forall₂ (RelatedSegments N) chosen chosen' := by
  induction h generalizing chosen with
  | nil =>
    cases List.mem_singleton.1 hc
    exact ⟨[], List.mem_singleton_self _, .nil⟩
  | @cons x y xs ys h _ ih =>
    obtain ⟨a, ha, c, hrest, rfl⟩ := mem_combinations_cons.1 hc
    cases h with
    | text s =>
      cases List.mem_singleton.1 ha
      obtain ⟨c', hc', hcc⟩ := ih hp hrest
      exact ⟨.text s :: c', mem_combinations_cons.2 ⟨_, List.mem_singleton_self _, c', hc', rfl⟩, .cons (.text s) hcc⟩
    | @hole t u h =>
      obtain ⟨v, hv, rfl⟩ := List.mem_map.1 ha
      obtain ⟨c', hc', hcc⟩ := ih (fun t ht u hu => hp t (List.mem_cons_of_mem _ ht) u (List.mem_cons_of_mem _ hu)) hrest
      obtain ⟨w, hw, hn⟩ := hp t List.mem_cons_self u List.mem_cons_self h v hv
      exact ⟨.hole w :: c', mem_combinations_cons.2 ⟨_, List.mem_map_of_mem hw, c', hc', rfl⟩, .cons (.hole hn) hcc⟩

theorem built_pick {t a : Ty} (ht : Built t) (present : t ≠ absent) (ha : a ∈ t.picks) : Built a := by
  obtain ⟨m, hm, ha⟩ := (picks_members ht present).1 ha
  have built : Built m :=
    ⟨unionMembers_forall (P := Normal) (fun h _ => normal_union_member h _) t ht.normal m hm, inherited_tidy.unionMembers ht.tidy m hm⟩
  by_cases hb : m = prim .boolean
  · subst hb
    rcases List.mem_cons.1 ha with rfl | ha
    · exact built_atom rfl
    · cases List.mem_singleton.1 ha
      exact built_atom rfl
  · rw [picks_self (fun ms he => union_not_mem_unionMembers t (he ▸ hm)) hb, List.mem_singleton] at ha
    exact ha ▸ built

/-- Templates of holes that are renamed as one another are renamed as one another. -/
theorem renamed_templateOf {xs ys : List (Segment Ty)} (h : List.Forall₂ (RelatedSegments (Renamed φ)) xs ys)
    (hx : ∀ t ∈ holes xs, Built t ∧ t ≠ absent) (hy : ∀ t ∈ holes ys, Built t ∧ t ≠ absent) :
    Renamed φ (templateOf xs) (templateOf ys) := by
  have chosenBuilt : ∀ {xs chosen : List (Segment Ty)}, (∀ t ∈ holes xs, Built t ∧ t ≠ absent) → chosen ∈ combinations xs →
      ∀ t ∈ holes chosen, Built t := by
    intro xs chosen hx hc t ht
    obtain ⟨u, hu, htu⟩ := partner (holes_of_combination hc) ht
    exact built_pick (hx u hu).1 (hx u hu).2 htu
  have made : ∀ {chosen chosen' : List (Segment Ty)}, chosen ∈ combinations xs → chosen' ∈ combinations ys →
      List.Forall₂ (RelatedSegments (Matches φ)) chosen chosen' → Renamed φ (templateAfter [] chosen) (templateAfter [] chosen') :=
    fun hc hc' hcc => renamed_templateAfter .nil hcc (isSplit_of_combination hc) (chosenBuilt hx hc) (chosenBuilt hy hc')
  have forth : ∀ a, Spread [] xs a → ∃ b, Spread [] ys b ∧ Matches φ a b := by
    rintro a ⟨chosen, hc, ha⟩
    obtain ⟨chosen', hc', hcc⟩ := combinations_partner h (fun t ht u hu htu a ha =>
      picks_partner atomic_matches (hx t ht).1 (hy u hu).1 (hx t ht).2 (hy u hu).2 htu.members.1 ha) hc
    obtain ⟨b, hb, hn⟩ := (renamed_iff_members.1 (made hc hc' hcc)).1 a ha
    exact ⟨b, ⟨chosen', hc', hb⟩, hn⟩
  have back : ∀ b, Spread [] ys b → ∃ a, Spread [] xs a ∧ Matches φ a b := by
    rintro b ⟨chosen', hc', hb⟩
    obtain ⟨chosen, hc, hcc⟩ := combinations_partner (related_flip h) (fun u hu t ht htu a ha =>
      picks_partner atomic_matches.flip (hy u hu).1 (hx t ht).1 (hy u hu).2 (hx t ht).2 htu.members.2 ha) hc'
    obtain ⟨a, ha, hn⟩ := (renamed_iff_members.1 (made hc hc' (related_flip hcc))).2 b hb
    exact ⟨a, ⟨chosen, hc, ha⟩, hn⟩
  rw [renamed_iff_members]
  simp only [templateOf, has_templateAfter fun t ht => (hx t ht).1, has_templateAfter fun t ht => (hy t ht).1]
  exact ⟨fun a => leaves_partner atomic_matches forth back, fun b => leaves_partner atomic_matches.flip back forth⟩

/-! ### Shapes -/

/-- Properties that differ in their types only, and types that are related. -/
structure RelatedProps (R : Ty → Ty → Prop) (p q : Property Ty) : Prop where
  blank : ({ p with type := never } : Property Ty) = { q with type := never }
  type : R p.type q.type

theorem RelatedProps.key {R : Ty → Ty → Prop} {p q : Property Ty} (h : RelatedProps R p q) : p.key = q.key :=
  (Property.mk.inj h.blank).1

/-- Index signatures for the same keys with values that are related, or none. -/
inductive RelatedIndex (R : Ty → Ty → Prop) : Option (IndexSignature Ty) → Option (IndexSignature Ty) → Prop
  | none : RelatedIndex R none none
  | some {key : Prim} {t u : Ty} : R t u → RelatedIndex R (some ⟨key, t⟩) (some ⟨key, u⟩)

theorem renamed_ofProps {ps qs : List (Property Ty)} {i j : Option (IndexSignature Ty)}
    (hp : List.Forall₂ (RelatedProps (Renamed φ)) ps qs) (hi : RelatedIndex (Renamed φ) i j) :
    Renamed φ (Shape.ofProps ps i).toTy (Shape.ofProps qs j).toTy := by
  have props := Shape.forall₂_ofProps RelatedProps.key hp (i := i) (j := j)
  have blanked : (Shape.ofProps ps i).props.map (fun p => { p with type := never }) =
      (Shape.ofProps qs j).props.map fun p => { p with type := never } := by
    rw [← List.forall₂_eq_eq_eq, List.forall₂_map_left_iff, List.forall₂_map_right_iff]
    exact props.imp fun _ _ h => h.blank
  have types : List.Forall₂ (Renamed φ) ((Shape.ofProps ps i).props.map (·.type)) ((Shape.ofProps qs j).props.map (·.type)) := by
    rw [List.forall₂_map_left_iff, List.forall₂_map_right_iff]
    exact props.imp fun _ _ h => h.type
  refine (matches_frame (t := (Shape.ofProps ps i).toTy) (u := (Shape.ofProps qs j).toTy) rfl ?_ (List.rel_append types ?_)).renamed
  · refine congrArg₂ object blanked ?_
    cases hi <;> rfl
  · cases hi with
    | none => exact .nil
    | some h => exact .cons h .nil

/-! ### Rebuilding -/

/-- Results of a list one by one, where every result has a partner. -/
theorem mapM_partner {α β γ δ : Type} {R : δ → γ → Prop} {f : α → Option γ} {g : β → Option δ} {ψ : α → β} {xs : List α}
    {ys : List γ} (h : ∀ x ∈ xs, ∀ y, f x = some y → ∃ z, g (ψ x) = some z ∧ R z y) (hys : xs.mapM f = some ys) :
    ∃ zs, (xs.map ψ).mapM g = some zs ∧ List.Forall₂ R zs ys := by
  induction xs generalizing ys with
  | nil =>
    cases hys
    exact ⟨[], rfl, .nil⟩
  | cons x xs ih =>
    rw [List.mapM_cons] at hys
    obtain ⟨y, hy, hrest⟩ := Option.bind_eq_some_iff.1 hys
    obtain ⟨rest, hr, he⟩ := Option.bind_eq_some_iff.1 hrest
    cases he
    obtain ⟨z, hz, related⟩ := h x List.mem_cons_self y hy
    obtain ⟨zs, hzs, partners⟩ := ih (fun x hx => h x (List.mem_cons_of_mem _ hx)) hr
    refine ⟨z :: zs, ?_, .cons related partners⟩
    rw [List.map_cons, List.mapM_cons]
    exact Option.bind_eq_some_iff.2 ⟨z, hz, Option.bind_eq_some_iff.2 ⟨zs, hzs, rfl⟩⟩

/-- A part has become the one type, and the part renamed the other. -/
structure Remade (φ : String → String) (v w w' : Ty) : Prop where
  renamed : Renamed φ w' w
  built : Built w ∧ Built w'
  present : v ≠ absent → w ≠ absent ∧ w' ≠ absent

section Remade
variable {f g : Ty → Option Ty}

theorem shell_refill {us : List Ty} (ht : t.isRow = true) (hs : t.isShape = false) (h : us.length = t.parts.length) :
    (t.refill us).shell φ = t.shell φ := by
  cases t with
  | object => cases hs
  | function ps r =>
    obtain rfl | ⟨init, last, rfl⟩ := us.eq_nil_or_concat
    · simp [parts] at h
    · have length : init.length = ps.length := by simpa [parts] using h
      simp [refill, shell, List.map_const', length]
  | tuple | reference =>
    rw [refill, shell, shell, List.map_const', List.map_const', h]
    rfl
  | array | keyOf | access | mapping => rfl
  | _ => cases ht

theorem isRow_rename (φ : String → String) (t : Ty) : (t.rename φ).isRow = t.isRow := by
  cases t <;> rfl

theorem refill_rename (ht : t.isRow = true) (hs : t.isShape = false) (us : List Ty) :
    (t.rename φ).refill (us.map (rename φ)) = (t.refill us).rename φ := by
  refine refill_map (F := rename φ) rfl (fun t ht hs => ?_) ht hs us
  cases t with
  | object => cases hs
  | tuple | reference => simp only [rename, refill, parts, renameAll_eq]
  | function => simp [rename, refill, parts, renameAll_eq]
  | array | keyOf | access | mapping => rfl
  | _ => cases ht

/-- A row put together of renamed parts is the renamed row put together of the parts. -/
theorem renamed_refill {us us' : List Ty} (ht : t.isRow = true) (hs : t.isShape = false) (h : us.length = t.parts.length)
    (hu : List.Forall₂ (Renamed φ) us' us) : Renamed φ ((t.rename φ).refill us') (t.refill us) := by
  have row : (t.rename φ).isRow = true := (isRow_rename φ t).trans ht
  have shape : (t.rename φ).isShape = false := by cases t <;> first | rfl | cases hs
  have length : us'.length = (t.rename φ).parts.length := by rw [hu.length_eq, h, parts_rename, List.length_map]
  have frame : ((t.rename φ).refill us').isFrame = true := by cases t <;> first | rfl | cases ht
  refine (matches_frame frame ?_ ?_).renamed
  · rw [shell_refill row shape length, shell_refill ht hs h, shell_rename]
  · rwa [parts_refill row length, parts_refill ht h]

/-- A placeholder keeps the constraint that its constraint has become. -/
theorem renamed_infer {name : String} {c : Ty} (hf : ∀ v ∈ (infer name c).parts, ∀ w, f v = some w →
    ∃ w', g (v.rename φ) = some w' ∧ Remade φ v w w') (h : (infer name c).rebuild f = some u) :
    ∃ u', ((infer name c).rename φ).rebuild g = some u' ∧ Renamed φ u' u := by
  rw [rebuild] at h
  rw [rename, rebuild]
  cases hcon : c.isAbsent with
  | true =>
    rw [hcon, if_pos rfl] at h
    cases h
    have none : c = absent := by cases c <;> first | rfl | cases hcon
    subst none
    exact ⟨infer (φ name) absent, rfl, renamed_rename φ (infer name absent)⟩
  | false =>
    have some : c ≠ absent := by rintro rfl; cases hcon
    have kept : (c.rename φ).isAbsent = false := by cases c <;> first | rfl | cases hcon
    rw [hcon, if_neg (by simp)] at h
    rw [kept, if_neg (by simp)]
    obtain ⟨w, hw, he⟩ := Option.bind_eq_some_iff.1 h
    cases he
    obtain ⟨w', hw', made⟩ := hf c (by cases c <;> first | exact List.mem_cons_self | cases hcon) w hw
    obtain ⟨pw, pw'⟩ := made.present some
    have present : ∀ {v : Ty}, v ≠ absent → v.isAbsent = false := fun {v} hv => by cases v <;> first | rfl | exact absurd rfl hv
    have listed : ∀ {n : String} {v : Ty}, v ≠ absent → (infer n v).parts = [v] := fun {n v} hv => by
      cases v <;> first | rfl | exact absurd rfl hv
    refine ⟨infer (φ name) w', Option.bind_eq_some_iff.2 ⟨w', hw', rfl⟩, (matches_frame rfl ?_ ?_).renamed⟩
    · simp only [shell, present pw, present pw', id]
    · rw [listed pw, listed pw']
      exact .cons made.renamed .nil

theorem renamed_segment {s s' : Segment Ty} (hs : ∀ v, s = .hole v → v ≠ absent)
    (hf : ∀ v, s = .hole v → ∀ w, f v = some w → ∃ w', g (v.rename φ) = some w' ∧ Remade φ v w w')
    (h : mapHole f s = some s') : ∃ z, mapHole g (renameSegment φ s) = some z ∧
      RelatedSegments (fun w' w => Renamed φ w' w ∧ (Built w ∧ w ≠ absent) ∧ Built w' ∧ w' ≠ absent) z s' := by
  cases s with
  | text s =>
    cases h
    exact ⟨.text s, rfl, .text s⟩
  | hole v =>
    obtain ⟨w, hw, he⟩ := Option.bind_eq_some_iff.1 h
    cases he
    obtain ⟨w', hw', made⟩ := hf v rfl w hw
    obtain ⟨pw, pw'⟩ := made.present (hs v rfl)
    have kept : ∀ {v : Ty}, v ≠ absent → Segment.ofHole v = .hole v := fun {v} hv => by
      cases v <;> first | rfl | exact absurd rfl hv
    refine ⟨.hole w', Option.bind_eq_some_iff.2 ⟨w', hw', congrArg some (kept pw')⟩, ?_⟩
    rw [kept pw]
    exact .hole ⟨made.renamed, ⟨made.built.1, pw⟩, made.built.2, pw'⟩

theorem renamed_template {xs : List (Segment Ty)} (hh : absent ∉ holes xs)
    (hf : ∀ v ∈ holes xs, ∀ w, f v = some w → ∃ w', g (v.rename φ) = some w' ∧ Remade φ v w w')
    (h : (template xs).rebuild f = some u) : ∃ u', ((template xs).rename φ).rebuild g = some u' ∧ Renamed φ u' u := by
  obtain ⟨ys, hys, he⟩ := Option.bind_eq_some_iff.1 h
  cases he
  have segment : ∀ x ∈ xs, ∀ y, mapHole f x = some y → ∃ z, mapHole g (renameSegment φ x) = some z ∧
      RelatedSegments (fun w' w => Renamed φ w' w ∧ (Built w ∧ w ≠ absent) ∧ Built w' ∧ w' ≠ absent) z y := by
    refine fun x hx y => renamed_segment ?_ ?_
    · rintro v rfl rfl
      exact hh (mem_holes hx)
    · rintro v rfl
      exact hf v (mem_holes hx)
  obtain ⟨zs, hzs, related⟩ := mapM_partner segment hys
  rw [rename, renameSegments_eq]
  refine ⟨templateOf zs, Option.bind_eq_some_iff.2 ⟨zs, hzs, rfl⟩, ?_⟩
  obtain ⟨blanked, ht⟩ := blanked_of_related related
  refine renamed_templateOf (related_of_blanked blanked (ht.imp fun _ _ h => h.1)) (fun w' hw' => ?_) fun w hw => ?_
  · obtain ⟨_, -, -, -, h⟩ := partner ht hw'
    exact h
  · obtain ⟨_, -, -, h, -⟩ := partner ht.flip hw
    exact h

theorem renamed_object {ps : List (Property Ty)} {i : Option (IndexSignature Ty)}
    (hf : ∀ v ∈ (object ps i).parts, ∀ w, f v = some w → ∃ w', g (v.rename φ) = some w' ∧ Remade φ v w w')
    (h : (object ps i).rebuild f = some u) : ∃ u', ((object ps i).rename φ).rebuild g = some u' ∧ Renamed φ u' u := by
  obtain ⟨qs, hqs, h⟩ := Option.bind_eq_some_iff.1 h
  obtain ⟨j, hj, he⟩ := Option.bind_eq_some_iff.1 h
  cases he
  have prop : ∀ p ∈ ps, ∀ q, mapProp f p = some q → ∃ r, mapProp g (renameProp φ p) = some r ∧ RelatedProps (Renamed φ) r q := by
    intro p hp q hq
    obtain ⟨w, hw, he⟩ := Option.bind_eq_some_iff.1 hq
    cases he
    obtain ⟨w', hw', made⟩ := hf p.type (List.mem_append_left _ (List.mem_map_of_mem hp)) w hw
    exact ⟨_, Option.bind_eq_some_iff.2 ⟨w', hw', rfl⟩, rfl, made.renamed⟩
  obtain ⟨rs, hrs, related⟩ := mapM_partner prop hqs
  have value : ∃ k, mapIndex g (renameIndex φ i) = some k ∧ RelatedIndex (Renamed φ) k j := by
    cases i with
    | none =>
      cases hj
      exact ⟨none, rfl, .none⟩
    | some i =>
      obtain ⟨w, hw, he⟩ := Option.bind_eq_some_iff.1 hj
      cases he
      obtain ⟨w', hw', made⟩ := hf i.value (List.mem_append_right _ List.mem_cons_self) w hw
      exact ⟨_, Option.bind_eq_some_iff.2 ⟨w', hw', rfl⟩, .some made.renamed⟩
  obtain ⟨k, hk, relatedIndex⟩ := value
  rw [rename, renameProps_eq]
  exact ⟨_, Option.bind_eq_some_iff.2 ⟨rs, hrs, Option.bind_eq_some_iff.2 ⟨k, hk, rfl⟩⟩, renamed_ofProps related relatedIndex⟩

/-- A tree that is no parameter, conditional or intersection is rebuilt as the renamed tree is. -/
theorem renamed_rebuild (hp : t.isParam = false) (hc : t.isConditional = false)
    (hm : ∀ ms, t ≠ intersection ms) (hh : ∀ xs, t = template xs → absent ∉ holes xs)
    (hf : ∀ v ∈ t.parts, ∀ w, f v = some w → ∃ w', g (v.rename φ) = some w' ∧ Remade φ v w w') (h : t.rebuild f = some u) :
    ∃ u', (t.rename φ).rebuild g = some u' ∧ Renamed φ u' u := by
  have all : ∀ us, t.parts.mapM f = some us → ∃ us', (t.rename φ).parts.mapM g = some us' ∧ List.Forall₂ (Renamed φ) us' us := by
    intro us hus
    rw [parts_rename]
    refine mapM_partner (fun v hv w hw => ?_) hus
    obtain ⟨w', hw', made⟩ := hf v hv w hw
    exact ⟨w', hw', made.renamed⟩
  have row : NodeForm t → NodeForm (t.rename φ) → t.isRow = true → t.isShape = false →
      ∃ u', (t.rename φ).rebuild g = some u' ∧ Renamed φ u' u := by
    intro hn hn' hr hs
    obtain ⟨us, hus, hl, rfl⟩ := rebuild_row_eq_some hn hr h
    obtain ⟨us', hus', related⟩ := all us hus
    refine ⟨_, ?_, renamed_refill hr hs hl related⟩
    rw [rebuild_row hn' ((isRow_rename φ t).trans hr), hus']
    rfl
  cases t with
  | param => cases hp
  | conditional => cases hc
  | intersection ms => exact absurd rfl (hm ms)
  | absent | any | unknown | void | never | prim | literal =>
    cases h
    exact ⟨_, rfl, renamed_rename φ _⟩
  | array | tuple | reference | function | keyOf | access | mapping => exact row trivial trivial rfl rfl
  | union ts =>
    obtain ⟨us, hus, he⟩ := Option.bind_eq_some_iff.1 h
    cases he
    obtain ⟨us', hus', related⟩ := all us hus
    exact ⟨_, Option.bind_eq_some_iff.2 ⟨us', hus', rfl⟩, renamed_unionOf_forall₂ related⟩
  | infer => exact renamed_infer hf h
  | template xs => exact renamed_template (hh xs rfl) hf h
  | object => exact renamed_object hf h

end Remade
end Renamed
end TypeCalculus.Ty

import TypeCalculus.Proofs.Ty.Annotated
import TypeCalculus.Proofs.Ty.Free
import TypeCalculus.Proofs.Ty.Rebuilt

/-! Leaves that no rebuilding drops. Normalising constructors absorb, merge and drop members: a union in which `any`
    turns up is `any`, whatever else stood in it. A leaf lasts if all nodes above it are firm, that is if rebuilding
    gives a node of the same variant with all its parts, whatever the parts become (`Lasts`, `survives_rebuild`). -/

namespace TypeCalculus.Ty

/-! ### Firm nodes -/

/-- The hole of a template that stays as it is. -/
def isFirmHole : Ty → Bool
  | infer _ absent | prim _ => true
  | _ => false

/-- A member of a union that does not become `any`, `unknown`, `never` or a union. References to names that
    are `still` stay references; if `none` is, operators and conditionals that do not distribute stay too. -/
def isFirmMember (still : Option String → Bool) : Ty → Bool
  | void | prim _ | literal .. | infer .. | array .. | tuple _ | function .. | object .. => true
  | reference name _ => still (some name)
  | keyOf _ | access .. | mapping .. | conditional _ _ _ _ false => still none
  | template segments => (holes segments).all isFirmHole
  | _ => false

/-- Rebuilding the node keeps all its parts. -/
def isFirm (still : Option String → Bool) : Ty → Bool
  | infer .. | array .. | tuple _ | function .. | object .. => true
  | reference name _ => still (some name)
  | keyOf _ | access .. | mapping .. | conditional _ _ _ _ false => still none
  | template segments => (holes segments).all isFirmHole
  | union members => members.all (isFirmMember still)
  | _ => false

/-- A leaf that passes the test stands in the tree with only firm nodes above it. -/
inductive Lasts (still : Option String → Bool) (leaf : Ty → Bool) : Ty → Prop
  | here {t : Ty} : leaf t = true → Lasts still leaf t
  | within {t u : Ty} : t.isFirm still = true → u ∈ t.parts → Lasts still leaf u → Lasts still leaf t

/-- What is asked of a test for leaves: it finds parameters or placeholders, by their names. -/
structure Names (leaf : Ty → Bool) : Prop where
  kind : ∀ {t}, leaf t = true → t.isParam = true ∨ t.isInfer = true
  constraint : ∀ {name c c'}, leaf (infer name c) = true → leaf (infer name c') = true
  annotated : ∀ (α : Annotation) t, leaf (t.annotated α) = leaf t

theorem names_isInferOf (name : String) : Names (isInferOf name) where
  kind {t} h := by
    cases t with
    | infer => exact Or.inr rfl
    | _ => cases h
  constraint h := h
  annotated α t := by cases t <;> rfl

section Lasts
variable {still : Option String → Bool} {leaf : Ty → Bool} (L : Names leaf)

theorem isFirmHole_annotated (α : Annotation) (t : Ty) : (t.annotated α).isFirmHole = t.isFirmHole := by
  cases t with
  | infer name c => cases c <;> rfl
  | _ => rfl

theorem isFirmMember_annotated (α : Annotation) (t : Ty) : (t.annotated α).isFirmMember still = t.isFirmMember still := by
  cases t with
  | template segments =>
    simp only [annotated, isFirmMember, holes_annotated, List.all_map, Function.comp_def, isFirmHole_annotated]
  | conditional _ _ _ _ distribute => cases distribute <;> rfl
  | _ => rfl

theorem isFirm_annotated (α : Annotation) (t : Ty) : (t.annotated α).isFirm still = t.isFirm still := by
  cases t with
  | template segments =>
    simp only [annotated, isFirm, holes_annotated, List.all_map, Function.comp_def, isFirmHole_annotated]
  | union members =>
    simp only [annotated, isFirm, annotatedAll_eq, List.all_map, Function.comp_def, isFirmMember_annotated]
  | conditional _ _ _ _ distribute => cases distribute <;> rfl
  | _ => rfl

/-- A placeholder that lasts is declared. -/
theorem Lasts.mem_inferNames {x : String} {t : Ty} (h : Lasts still (isInferOf x) t) :
    x ∈ t.inferNames := by
  refine Ty.mem_inferNames.2 ?_
  induction h with
  | here h => exact occurs_self rfl h
  | within _ hu _ ih => exact occurs_of_part rfl hu ih

include L

theorem Lasts.annotated (α : Annotation) {t : Ty} (h : Lasts still leaf t) : Lasts still leaf (t.annotated α) := by
  induction h with
  | here h => exact .here ((L.annotated α _).trans h)
  | @within t u hf hu _ ih =>
    refine .within ((isFirm_annotated α t).trans hf) ?_ ih
    rw [parts_annotated]
    exact List.mem_map_of_mem hu

theorem Lasts.of_annotated (α : Annotation) {t : Ty} (h : Lasts still leaf (t.annotated α)) : Lasts still leaf t := by
  generalize he : t.annotated α = t' at h
  induction h generalizing t with
  | here h => exact .here (by rw [← L.annotated α t, he]; exact h)
  | within hf hu _ ih =>
    subst he
    rw [parts_annotated] at hu
    obtain ⟨v, hv, rfl⟩ := List.mem_map.1 hu
    exact .within ((isFirm_annotated α t).symm.trans hf) hv (ih rfl)

theorem Lasts.of_identical {t u : Ty} (h : Lasts still leaf t) (hi : t.identical u = true) : Lasts still leaf u := by
  refine Lasts.of_annotated L bare ?_
  have := h.annotated L bare
  rwa [show t.annotated bare = u.annotated bare from (identical_iff t u).1 hi] at this

/-! ### Unions of firm members -/

omit L in
theorem isUnionMember_of_firm {t : Ty} (h : t.isFirmMember still = true) : t.isUnionMember = true ∧ t ≠ absent := by
  constructor
  · cases t <;> first | rfl | cases h
  · rintro rfl
    cases h

theorem lasts_unionOf {us : List Ty} {u : Ty} (hus : ∀ v ∈ us, v.isFirmMember still = true) (hu : u ∈ us)
    (h : Lasts still leaf u) : Lasts still leaf (unionOf us) := by
  have flat : unionMembersAll us = us :=
    unionMembersAll_self (fun v hv => (isUnionMember_of_firm (hus v hv)).1) fun ha => (isUnionMember_of_firm (hus _ ha)).2 rfl
  have needed : isRedundantIn us u = false := by
    cases h with
    | here h =>
      rcases L.kind h with hk | hk
      · cases u <;> first | rfl | cases hk
      · cases u <;> first | rfl | cases hk
    | within hf => cases u <;> first | rfl | cases hf
  obtain ⟨v, hv, hi⟩ := identical_mem_keptMembers (flat.symm ▸ hu) (flat.symm ▸ needed)
  have hlast : Lasts still leaf v := h.of_identical L (identical_symm hi)
  have kept : ∀ w ∈ keptMembers us, w.isFirmMember still = true := fun w hw => hus w (flat ▸ mem_of_keptMembers hw)
  rcases unionOf_cases us with ⟨hm, -⟩ | ⟨hm, -⟩ | ⟨-, -, ⟨hk, -⟩ | ⟨t, hk, he⟩ | he⟩
  · cases hus any (flat ▸ hm)
  · cases hus unknown (flat ▸ hm)
  · rw [hk] at hv
    cases hv
  · rw [hk, List.mem_singleton] at hv
    rwa [he, ← hv]
  · rw [he]
    exact .within (List.all_eq_true.2 fun w hw => kept w (mem_sortByText.1 hw)) (mem_sortByText.2 hv) hlast

end Lasts

/-! ### Rebuilding -/

/-- What the second type keeps of the first: leaves that last, and its standing in a union and in a hole. -/
structure Survives (still : Option String → Bool) (leaf : Ty → Bool) (t u : Ty) : Prop where
  lasts : Lasts still leaf t → Lasts still leaf u
  member : t.isFirmMember still = true → u.isFirmMember still = true
  hole : t.isFirmHole = true → u = t

theorem survives_refl (still : Option String → Bool) (leaf : Ty → Bool) (t : Ty) : Survives still leaf t t := ⟨id, id, fun _ => rfl⟩

/-- Nothing is asked of what takes the place of a node that is not firm. -/
theorem survives_of_loose {still : Option String → Bool} {leaf : Ty → Bool} {t : Ty} (hl : leaf t = false)
    (hf : t.isFirm still = false) (hm : t.isFirmMember still = false) (hh : t.isFirmHole = false) (u : Ty) :
    Survives still leaf t u := by
  refine ⟨fun h => ?_, fun h => absurd h (by simp [hm]), fun h => absurd h (by simp [hh])⟩
  cases h with
  | here h => exact absurd h (by simp [hl])
  | within h => exact absurd h (by simp [hf])

section Rebuild
variable {still : Option String → Bool} {leaf : Ty → Bool} (N : Names leaf) {m : Type → Type} [Monad m] [LawfulMonad m]
  (R : Results m) {f : Ty → m Ty}

/-- A firm node whose parts survive in the parts of another survives in it. -/
theorem survives_of_parts {t u : Ty} (hn : leaf t = true → leaf u = true) (hf : u.isFirm still = true)
    (hm : u.isFirmMember still = true) (hh : t.isFirmHole = true → u = t)
    (parts : ∀ v ∈ t.parts, Lasts still leaf v → ∃ w ∈ u.parts, Lasts still leaf w) : Survives still leaf t u := by
  refine ⟨fun h => ?_, fun _ => hm, hh⟩
  cases h with
  | here h => exact .here (hn h)
  | within _ hv hlast =>
    obtain ⟨w, hw, hlast⟩ := parts _ hv hlast
    exact .within hf hw hlast

include N

theorem not_lasts_absent : ¬Lasts still leaf absent := by
  intro h
  cases h with
  | here h => rcases N.kind h with h | h <;> cases h
  | within h => cases h

omit N in
/-- A node that is not firm may become anything. -/
theorem survives_loose {t : Ty} (hp : t.isParam = false) (hc : t.isConditional = false) (hl : leaf t = false)
    (hfirm : t.isFirm still = false) (hm : t.isFirmMember still = false) (hh : t.isFirmHole = false)
    (hf : ∀ u ∈ t.parts, R.All (Survives still leaf u) (f u)) : R.All (Survives still leaf t) (t.rebuild f) := by
  have rebuilt : R.All (fun _ => True) (t.rebuild f) :=
    inherited_true.rebuild R hp hc (fun _ _ _ => trivial) fun u hu => R.imp (fun _ _ => trivial) (hf u hu)
  exact R.imp (fun u _ => survives_of_loose hl hfirm hm hh u) rebuilt

omit N in
/-- Leaves that last below a node last below the node of what survives. -/
theorem lasts_through {ts us : List Ty} (h : List.Forall₂ (Survives still leaf) ts us) {v : Ty} (hv : v ∈ ts)
    (hlast : Lasts still leaf v) : ∃ w ∈ us, Lasts still leaf w := by
  obtain ⟨w, hw, hs⟩ := partner h hv
  exact ⟨w, hw, hs.lasts hlast⟩

/-- A row has what becomes of its parts for parts, and is as firm as it was. -/
theorem survives_row {t : Ty} (hn : NodeForm t) (hr : t.isRow = true) (hm : t.isFirmMember still = t.isFirm still)
    (hf : ∀ u ∈ t.parts, R.All (Survives still leaf u) (f u)) : R.All (Survives still leaf t) (t.rebuild f) := by
  have unheld : t.isFirmHole = false := by cases t <;> first | rfl | cases hr
  have unnamed : leaf t = false := by
    rw [Bool.eq_false_iff]
    intro hl
    rcases N.kind hl with h | h <;> cases t <;> first | (cases hr; done) | cases h
  cases hfirm : t.isFirm still with
  | false =>
    exact survives_loose R (by cases t <;> first | rfl | cases hr) (by cases t <;> first | rfl | cases hr) unnamed hfirm
      (hm.trans hfirm) unheld hf
  | true =>
    refine R.imp ?_ (results_row R hn hr hf)
    rintro _ ⟨us, hus, rfl⟩
    have firm : (t.refill us).isFirm still = true := by cases t <;> exact hfirm
    have member : (t.refill us).isFirmMember still = true := by cases t <;> exact hm.trans hfirm
    refine survives_of_parts (fun h => absurd h (by simp [unnamed])) firm member (fun h => absurd h (by simp [unheld])) ?_
    rw [parts_refill hr hus.length_eq.symm]
    exact fun v hv => lasts_through hus hv

omit [LawfulMonad m] in
/-- A placeholder keeps what lasts of its constraint. -/
theorem survives_infer {name : String} {constraint : Ty}
    (hf : ∀ u ∈ (infer name constraint).parts, R.All (Survives still leaf u) (f u)) :
    R.All (Survives still leaf (infer name constraint)) ((infer name constraint).rebuild f) := by
  rw [rebuild]
  split
  · exact R.pure (survives_refl _ _ _)
  · rename_i hpresent
    have parts : (infer name constraint).parts = [constraint] := by
      cases constraint with
      | absent => exact absurd rfl hpresent
      | _ => rfl
    rw [parts] at hf
    refine R.bind (hf constraint List.mem_cons_self) fun u hu => R.pure ?_
    refine survives_of_parts N.constraint rfl rfl (fun hh => ?_) fun v hv hlast => ?_
    · cases constraint with
      | absent => exact absurd rfl hpresent
      | _ => cases hh
    · rw [parts, List.mem_singleton] at hv
      have hlast := hu.lasts (hv ▸ hlast)
      cases u with
      | absent => exact absurd hlast (not_lasts_absent N)
      | _ => exact ⟨_, List.mem_cons_self, hlast⟩

/-- Rebuilding keeps the leaves that last: firm nodes stay, and their parts survive. -/
theorem survives_rebuild {t : Ty} (hn : NodeForm t) (hp : t.isParam = false) (hc : t.isConditional = false)
    (hf : ∀ u ∈ t.parts, R.All (Survives still leaf u) (f u)) : R.All (Survives still leaf t) (t.rebuild f) := by
  have unnamed : t.isInfer = false → leaf t = false := by
    rw [Bool.eq_false_iff (b := leaf t)]
    intro hi hl
    rcases N.kind hl with h | h
    · exact absurd h (by simp [hp])
    · exact absurd h (by simp [hi])
  cases t with
  | absent | any | unknown | never | void | prim | literal => exact R.pure (survives_refl _ _ _)
  | intersection => exact survives_loose R rfl rfl (unnamed rfl) rfl rfl rfl hf
  | param => cases hp
  | conditional => cases hc
  | array | tuple | reference | keyOf | mapping | access | function | object => exact survives_row N R hn rfl rfl hf
  | infer => exact survives_infer N R hf
  | template segments =>
    cases hfirm : (holes segments).all isFirmHole with
    | false => exact survives_loose R rfl rfl (unnamed rfl) hfirm hfirm rfl hf
    | true =>
      have same : ∀ u ∈ holes segments, R.All (· = u) (f u) := fun u hu =>
        R.imp (fun v hv => hv.hole (List.all_eq_true.1 hfirm u hu)) (hf u hu)
      refine R.imp ?_ (rebuild_self R hn (fun _ h => by cases h) (fun _ h => by cases h) rfl same)
      rintro v rfl
      exact survives_refl _ _ _
  | union members =>
    cases hfirm : members.all (isFirmMember still) with
    | false => exact survives_loose R rfl rfl (unnamed rfl) hfirm rfl rfl hf
    | true =>
      refine R.bind (R.mapM_forall₂ hf) fun us hus => R.pure ⟨fun h => ?_, (fun h => by cases h), fun h => by cases h⟩
      have firm : ∀ v ∈ us, v.isFirmMember still = true := by
        intro v hv
        obtain ⟨w, hw, hs⟩ := partner hus.flip hv
        exact hs.member (List.all_eq_true.1 hfirm w hw)
      cases h with
      | here h => exact absurd h (by simp [unnamed rfl])
      | within _ hu hlast =>
        obtain ⟨v, hv, hlast⟩ := lasts_through hus hu hlast
        exact lasts_unionOf N firm hv hlast

end Rebuild
end TypeCalculus.Ty

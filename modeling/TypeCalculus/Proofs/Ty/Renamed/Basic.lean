import TypeCalculus.Proofs.Ty.CrossProduct
import TypeCalculus.Proofs.Ty.Mirrored
import TypeCalculus.Proofs.Ty.Rename

/-! Types that are renamed as one another up to the order of their members (`Renamed`). Normalising sorts members by their
    texts, and these depend on names; so it is the members that are followed, in whatever order and number they come. -/

namespace TypeCalculus.Ty

/-! ### Nodes without their parts -/

/-- The segment with its hole blanked. -/
def blankHole : Segment Ty → Segment Ty
  | .text s => .text s
  | .hole _ => .hole never

/-- The node with all its parts blanked and its name mapped. -/
def shell (φ : String → String) : Ty → Ty
  | template segments => template (segments.map blankHole)
  | object props index => object (props.map fun p => { p with type := never }) (index.map fun i => { i with value := never })
  | array _ readonly => array never readonly
  | tuple elems => tuple (elems.map fun _ => never)
  | union members => union (members.map fun _ => never)
  | intersection members => intersection (members.map fun _ => never)
  | param name _ _ => param (φ name) absent absent
  | infer name constraint => infer (φ name) (if constraint.isAbsent then absent else never)
  | conditional _ _ _ _ distribute => conditional never never never never distribute
  | reference name args => reference name (args.map fun _ => never)
  | function params _ => function (params.map fun _ => never) never
  | keyOf _ => keyOf never
  | access .. => access never never
  | mapping op _ => mapping op never
  | t => t

/-- The node is a type on its own, and no intersection. -/
def isFrame : Ty → Bool
  | absent | union _ | intersection _ => false
  | _ => true

section Shell
variable (φ : String → String)

theorem length_parts_shell (t : Ty) : (t.shell φ).parts.length = t.parts.length := by
  cases t with
  | template xs =>
    rw [shell, parts, parts]
    induction xs with
    | nil => rfl
    | cons x xs ih => cases x <;> first | exact ih | exact congrArg (· + 1) ih
  | object ps i => cases i <;> simp [shell, parts]
  | tuple | reference | function | union | intersection => simp [shell, parts]
  | infer name c => cases c <;> rfl
  | _ => rfl

theorem shell_annotated (α : Annotation) (t : Ty) : (t.annotated α).shell φ = t.shell φ := by
  cases t with
  | template xs =>
    rw [annotated, annotatedSegments_eq, shell, shell, List.map_map]
    refine congrArg template (List.map_congr_left fun s _ => ?_)
    cases s <;> rfl
  | object ps i =>
    rw [annotated, annotatedProps_eq, annotatedIndex_eq, shell, shell, List.map_map, Option.map_map]
    rfl
  | tuple xs | reference _ xs | union xs | intersection xs => rw [annotated, annotatedAll_eq, shell, shell, List.map_map]; rfl
  | function xs x => rw [annotated, annotatedAll_eq, shell, shell, List.map_map]; rfl
  | infer name c => cases c <;> rfl
  | _ => rfl

theorem shell_rename (t : Ty) : (t.rename φ).shell id = t.shell φ := by
  cases t with
  | template xs =>
    rw [rename, renameSegments_eq, shell, shell, List.map_map]
    refine congrArg template (List.map_congr_left fun s _ => ?_)
    cases s <;> rfl
  | object ps i =>
    rw [rename, renameProps_eq, shell, shell, List.map_map]
    cases i <;> rfl
  | tuple xs | reference _ xs | union xs | intersection xs => rw [rename, renameAll_eq, shell, shell, List.map_map]; rfl
  | function xs x => rw [rename, renameAll_eq, shell, shell, List.map_map]; rfl
  | infer name c => cases c <;> rfl
  | _ => rfl

theorem isFrame_annotated (α : Annotation) (t : Ty) : (t.annotated α).isFrame = t.isFrame := by
  cases t <;> rfl

variable {φ} {t u : Ty}

/-- Nodes with the same shell have as many parts. -/
theorem length_parts_of_shell (h : t.shell id = u.shell φ) : t.parts.length = u.parts.length := by
  rw [← length_parts_shell id, h, length_parts_shell]

/-- What a shell shows does not differ where shells are the same. -/
theorem shell_congr {p : Ty → Bool} (hp : ∀ φ t, p (t.shell φ) = p t) (h : t.shell id = u.shell φ) : p t = p u := by
  rw [← hp id t, h, hp]

theorem isFrame_of_shell (h : t.shell id = u.shell φ) (ht : t.isFrame = true) : u.isFrame = true := by
  rw [← shell_congr (p := isFrame) (fun φ t => by cases t <;> rfl) h, ht]

/-- The parts of nodes with the same shell are related one by one. -/
theorem forall₂_parts {R : Ty → Ty → Prop} (hs : t.shell id = u.shell φ) (h : ∀ p ∈ t.parts.zip u.parts, R p.1 p.2) :
    List.Forall₂ R t.parts u.parts :=
  List.forall₂_iff_zip.2 ⟨length_parts_of_shell hs, fun hm => h _ hm⟩

/-- Only a name is mapped in a shell. -/
theorem shell_unnamed (hp : t.isParam = false) (hi : t.isInfer = false) : t.shell φ = t.shell id := by
  cases t <;> first | rfl | (cases hp; done) | cases hi

theorem segments_eq_of_blank {xs ys : List (Segment Ty)} (hs : xs.map blankHole = ys.map blankHole) (hp : holes xs = holes ys) :
    xs = ys := by
  induction xs generalizing ys with
  | nil =>
    cases ys with
    | nil => rfl
    | cons => cases hs
  | cons x xs ih =>
    cases ys with
    | nil => cases hs
    | cons y ys =>
      obtain ⟨hx, blank⟩ := List.cons.inj hs
      cases x with
      | text s =>
        cases y with
        | text => exact congrArg₂ _ hx (ih blank hp)
        | hole => cases hx
      | hole u =>
        cases y with
        | text => cases hx
        | hole v =>
          obtain ⟨hu, rest⟩ := List.cons.inj hp
          exact congrArg₂ _ (congrArg Segment.hole hu) (ih blank rest)

theorem props_eq_of_blank {ps qs : List (Property Ty)}
    (hs : ps.map (fun p => { p with type := never }) = qs.map fun q => { q with type := never })
    (hp : ps.map (·.type) = qs.map (·.type)) : ps = qs := by
  induction ps generalizing qs with
  | nil =>
    cases qs with
    | nil => rfl
    | cons => cases hs
  | cons p ps ih =>
    cases qs with
    | nil => cases hs
    | cons q qs =>
      obtain ⟨blank, blanks⟩ := List.cons.inj hs
      obtain ⟨type, types⟩ := List.cons.inj hp
      have same : p = q := by
        cases p
        cases q
        cases type
        cases blank
        rfl
      rw [same, ih blanks types]

/-- A node is its shell and its parts, but for what is written beside a parameter. -/
theorem eq_of_shell (ht : t.isParam = false) (hs : t.shell id = u.shell id) (hp : t.parts = u.parts) : t = u := by
  cases t with
  | param => cases ht
  | template xs =>
    cases u with
    | template ys => exact congrArg template (segments_eq_of_blank (template.inj hs) hp)
    | _ => cases hs
  | object ps i =>
    cases u with
    | object qs j =>
      obtain ⟨props, index⟩ := object.inj hs
      have length : (ps.map (·.type)).length = (qs.map (·.type)).length := by
        simpa using congrArg List.length props
      obtain ⟨types, values⟩ := List.append_inj hp length
      have props := props_eq_of_blank props types
      have index : i = j := by
        cases i with
        | none =>
          cases j with
          | none => rfl
          | some => cases index
        | some i =>
          cases j with
          | none => cases index
          | some j =>
            cases i
            cases j
            cases values
            cases index
            rfl
      rw [props, index]
    | _ => cases hs
  | infer n c =>
    cases u with
    | infer m d =>
      obtain ⟨name, -⟩ := infer.inj hs
      have only : ∀ v : Ty, v.present?.toList.headD absent = v := fun v => by cases v <;> rfl
      have constraint : c = d := (only c).symm.trans ((congrArg (List.headD · absent) hp).trans (only d))
      rw [id.eq_def n, id.eq_def m] at name
      rw [name, constraint]
    | _ => cases hs
  | function us r =>
    cases u with
    | function vs r' =>
      obtain ⟨params, result⟩ := List.append_inj' hp rfl
      rw [params, (List.cons.inj result).1]
    | _ => cases hs
  | reference name us =>
    cases u with
    | reference => exact congrArg₂ reference (reference.inj hs).1 hp
    | _ => cases hs
  | array | mapping | keyOf | access | conditional =>
    cases u <;> first | (cases hs; cases hp; rfl) | cases hs
  | tuple us | union us | intersection us => cases u <;> first | exact congrArg _ hp | cases hs
  | absent | any | unknown | void | never | prim | literal => cases u <;> first | exact hs | cases hs

theorem eq_of_shell_atom (h : t.shell id = u.shell φ) (ha : t.isAtom = true ∨ u.isAtom = true) : t = u := by
  have plain : ∀ {φ} {t : Ty}, t.isAtom = true → t.shell φ = t := fun {_ t} ht => by cases t <;> first | rfl | cases ht
  have same : t.isAtom = u.isAtom := shell_congr (p := isAtom) (fun φ t => by cases t <;> rfl) h
  have ht : t.isAtom = true := ha.elim id fun hu => same.trans hu
  rwa [plain ht, plain (same ▸ ht)] at h

theorem erased_atom (ht : t.isAtom = true) : t.erased = t := by
  cases t <;> first | rfl | cases ht

theorem eq_of_erased_atom (h : t.erased = u) (hu : u.isAtom = true) : t = u := by
  have atom : t.isAtom = true := by
    subst h
    cases t <;> first | rfl | cases hu
  rw [← h, erased_atom atom]

theorem parts_erased (t : Ty) : t.erased.parts = t.parts.map erased := parts_annotated bare t

theorem erased_erased (t : Ty) : t.erased.erased = t.erased := annotated_annotated bare bare t

end Shell

/-! ### Members -/

/-- What holds of a union exactly if it holds of one of its members holds of a type exactly if it holds of one of the
    members of the type. -/
theorem exists_unionMember {P : Ty → Prop} (ha : ¬P absent) (hu : ∀ ms, P (union ms) ↔ ∃ m ∈ ms, P m) (t : Ty) :
    P t ↔ ∃ v ∈ t.unionMembers, P v := by
  induction t using children_induction with
  | step t ih =>
    cases t with
    | union ms =>
      rw [hu, unionMembers]
      constructor
      · rintro ⟨m, hm, hp⟩
        obtain ⟨v, hv, hp⟩ := (ih m hm).1 hp
        exact ⟨v, unionMembers_subset hm hv, hp⟩
      · rintro ⟨v, hv, hp⟩
        obtain ⟨m, hm, hv⟩ := mem_unionMembersAll hv
        exact ⟨m, hm, (ih m hm).2 ⟨v, hv, hp⟩⟩
    | absent => simp [unionMembers, ha]
    | _ => simp [unionMembers]

theorem inferNames_member {x : String} {t : Ty} : x ∈ t.inferNames ↔ ∃ v ∈ t.erased.unionMembers, x ∈ v.inferNames := by
  rw [← inferNames_annotated bare t]
  refine exists_unionMember (P := fun t => x ∈ t.inferNames) (by cases ·) (fun ms => ?_) t.erased
  rw [mem_inferNames_iff]
  exact ⟨fun h => h.resolve_left nofun, .inr⟩

theorem size_unionMember {t v : Ty} (h : v ∈ t.unionMembers) : v.size ≤ t.size := by
  refine unionMembers_forall (P := fun v => v.size ≤ t.size) (fun {ms} h m hm => ?_) t (Nat.le_refl _) v h
  exact Nat.le_of_lt (Nat.lt_of_lt_of_le (size_lt_of_part (t := union ms) hm) h)

mutual

theorem unionMembers_rename (φ : String → String) : (t : Ty) → (t.rename φ).unionMembers = renameAll φ t.unionMembers
  | union ms => unionMembersAll_rename φ ms
  | absent | any | unknown | void | never | prim _ | literal .. | template _ | object .. | array .. | tuple _
  | intersection _ | param .. | infer .. | conditional .. | reference .. | function .. | keyOf _ | access ..
  | mapping .. => rfl

theorem unionMembersAll_rename (φ : String → String) : (ts : List Ty) →
    unionMembersAll (renameAll φ ts) = renameAll φ (unionMembersAll ts)
  | [] => rfl
  | t :: ts => by
    rw [renameAll, unionMembersAll, unionMembersAll, unionMembers_rename φ t, unionMembersAll_rename φ ts, renameAll_eq,
      renameAll_eq, renameAll_eq, List.map_append]

end

/-! ### Renaming up to the order of members -/

/-- A node that is no union is another renamed: an intersection in whatever order of its members, any other node with parts
    that are renamed one by one. -/
inductive RenamedNode (φ : String → String) (R : Ty → Ty → Prop) : Ty → Ty → Prop
  | intersection {ms ns : List Ty} : ms.Perm (ns.map (rename φ)) → RenamedNode φ R (intersection ms) (intersection ns)
  | frame {t u : Ty} : t.isFrame = true → t.shell id = u.shell φ → (∀ p ∈ t.parts.zip u.parts, R p.1 p.2) →
      RenamedNode φ R t u

/-- The first type is the second with its names mapped, up to the order of members, and of unions also up to their number.
    What is written beside parameters does not count. -/
inductive Renamed (φ : String → String) : Ty → Ty → Prop
  | mk {t u : Ty} (Pair : Ty → Ty → Prop) :
    (∀ a b, Pair a b → RenamedNode φ (Renamed φ) a b) →
      (∀ a ∈ t.erased.unionMembers, ∃ b ∈ u.erased.unionMembers, Pair a b) →
      (∀ b ∈ u.erased.unionMembers, ∃ a ∈ t.erased.unionMembers, Pair a b) → Renamed φ t u

/-- The members of either type are all paired with members of the other. -/
structure Paired (R : Ty → Ty → Prop) (t u : Ty) : Prop where
  left : ∀ a ∈ t.erased.unionMembers, ∃ b ∈ u.erased.unionMembers, R a b
  right : ∀ b ∈ u.erased.unionMembers, ∃ a ∈ t.erased.unionMembers, R a b

theorem Paired.imp {R S : Ty → Ty → Prop} {t u : Ty} (h : Paired R t u) (hi : ∀ a b, R a b → S a b) : Paired S t u :=
  ⟨fun a ha => (h.left a ha).imp fun b hb => hb.imp_right (hi a b), fun b hb => (h.right b hb).imp fun a ha => ha.imp_right (hi a b)⟩

section Renamed
variable {φ : String → String} {t u : Ty}

theorem renamed_iff : Renamed φ t u ↔ Paired (RenamedNode φ (Renamed φ)) t u := by
  constructor
  · rintro ⟨_, h, hl, hr⟩
    exact Paired.imp ⟨hl, hr⟩ h
  · exact fun h => ⟨_, fun _ _ h => h, h.left, h.right⟩

/-- Induction on how one type is renamed as another. -/
theorem Renamed.induction {motive : Ty → Ty → Prop}
    (h : ∀ t u, Paired (RenamedNode φ fun t u => Renamed φ t u ∧ motive t u) t u → motive t u) (hr : Renamed φ t u) : motive t u := by
  refine @Renamed.rec φ (fun t u _ => motive t u)
    (fun a b _ => RenamedNode φ (fun t u => Renamed φ t u ∧ motive t u) a b) ?_ ?_ ?_ t u hr
  · intro t u Pair _ hl hr ih
    exact h t u (Paired.imp ⟨hl, hr⟩ ih)
  · intro _ _ hp
    exact .intersection hp
  · intro _ _ hf hs hp ih
    exact .frame hf hs fun p hm => ⟨hp p hm, ih p hm⟩

theorem renamed_erased : Renamed φ t.erased u.erased ↔ Renamed φ t u := by
  rw [renamed_iff, renamed_iff]
  constructor
  · rintro ⟨hl, hr⟩
    rw [erased_erased, erased_erased] at hl hr
    exact ⟨hl, hr⟩
  · rintro ⟨hl, hr⟩
    constructor
    · rwa [erased_erased, erased_erased]
    · rwa [erased_erased, erased_erased]

/-- The placeholders of a type are renamed with it. -/
theorem mem_inferNames_renamed {x : String} (h : Renamed φ t u) : x ∈ t.inferNames ↔ ∃ z ∈ u.inferNames, φ z = x := by
  refine Renamed.induction (motive := fun t u => x ∈ t.inferNames ↔ ∃ z ∈ u.inferNames, φ z = x) (fun t u hp => ?_) h
  have node : ∀ a b, RenamedNode φ (fun t u => Renamed φ t u ∧ (x ∈ t.inferNames ↔ ∃ z ∈ u.inferNames, φ z = x)) a b →
      (x ∈ a.inferNames ↔ ∃ z ∈ b.inferNames, φ z = x) := by
    intro a b hab
    cases hab with
    | @intersection ms ns hp =>
      have listed : x ∈ (intersection ms).inferNames ↔ x ∈ ((intersection ns).rename φ).inferNames := by
        rw [mem_inferNames_iff, mem_inferNames_iff, parts_rename]
        exact or_congr Iff.rfl (exists_congr fun v => and_congr_left fun _ => hp.mem_iff)
      rw [listed, mem_inferNames_rename]
    | frame hf hs hp =>
      have parts := forall₂_parts (R := fun t u => x ∈ t.inferNames ↔ ∃ z ∈ u.inferNames, φ z = x) hs fun p hm => (hp p hm).2
      have own : a.isInferOf x = true ↔ ∃ z, b.isInferOf z = true ∧ φ z = x := by
        cases a with
        | infer n c =>
          cases b with
          | infer m c' =>
            have same : n = φ m := (infer.inj hs).1
            simp [isInferOf, same]
          | _ => cases hs
        | _ =>
          cases b with
          | infer => cases hs
          | _ => simp [isInferOf]
      rw [mem_inferNames_iff, own]
      constructor
      · rintro (⟨z, hz, he⟩ | ⟨v, hv, hx⟩)
        · exact ⟨z, mem_inferNames_iff.2 (.inl hz), he⟩
        · obtain ⟨w, hw, hi⟩ := partner parts hv
          obtain ⟨z, hz, he⟩ := hi.1 hx
          exact ⟨z, mem_inferNames_iff.2 (.inr ⟨w, hw, hz⟩), he⟩
      · rintro ⟨z, hz, he⟩
        rcases mem_inferNames_iff.1 hz with hz | ⟨w, hw, hz⟩
        · exact .inl ⟨z, hz, he⟩
        · obtain ⟨v, hv, hi⟩ := partner parts.flip hw
          exact .inr ⟨v, hv, hi.2 ⟨z, hz, he⟩⟩
  rw [inferNames_member]
  constructor
  · rintro ⟨a, ha, hx⟩
    obtain ⟨b, hb, hab⟩ := hp.left a ha
    obtain ⟨z, hz, he⟩ := (node a b hab).1 hx
    exact ⟨z, inferNames_member.2 ⟨b, hb, hz⟩, he⟩
  · rintro ⟨z, hz, he⟩
    obtain ⟨b, hb, hz⟩ := inferNames_member.1 hz
    obtain ⟨a, ha, hab⟩ := hp.right b hb
    exact ⟨a, ha, (node a b hab).2 ⟨z, hz, he⟩⟩

/-- A node stands for itself. -/
theorem single_of_node {R : Ty → Ty → Prop} (h : RenamedNode φ R t u) : t.unionMembers = [t] ∧ u.unionMembers = [u] := by
  have frame : ∀ {t : Ty}, t.isFrame = true → t.unionMembers = [t] := fun {t} ht => by
    cases t <;> first | rfl | cases ht
  cases h with
  | frame hf hs => exact ⟨frame hf, frame (isFrame_of_shell hs hf)⟩
  | intersection => exact ⟨rfl, rfl⟩

/-- The types are single and renamed as one another, apart from annotations. -/
def Matches (φ : String → String) (a b : Ty) : Prop := RenamedNode φ (Renamed φ) a.erased b.erased

theorem Matches.renamed (h : Matches φ t u) : Renamed φ t u := by
  obtain ⟨ht, hu⟩ := single_of_node h
  rw [renamed_iff]
  refine ⟨fun a ha => ⟨u.erased, ?_, ?_⟩, fun b hb => ⟨t.erased, ?_, ?_⟩⟩
  · rw [hu]
    exact List.mem_singleton_self _
  · rw [ht] at ha
    rwa [List.mem_singleton.1 ha]
  · rw [ht]
    exact List.mem_singleton_self _
  · rw [hu] at hb
    rwa [List.mem_singleton.1 hb]

theorem matches_iff (ht : t.erased.unionMembers = [t.erased]) (hu : u.erased.unionMembers = [u.erased]) :
    Matches φ t u ↔ Renamed φ t u := by
  refine ⟨Matches.renamed, fun h => ?_⟩
  obtain ⟨c, hc, hn⟩ := (renamed_iff.1 h).left t.erased (by rw [ht]; exact List.mem_singleton_self _)
  rw [hu, List.mem_singleton] at hc
  rwa [hc] at hn

/-- Frames are renamed as one another if they have the same shell and their parts are renamed one by one. -/
theorem matches_frame (ht : t.isFrame = true) (hs : t.shell id = u.shell φ) (hp : List.Forall₂ (Renamed φ) t.parts u.parts) :
    Matches φ t u := by
  refine .frame ((isFrame_annotated bare t).trans ht) ?_ fun p hm => ?_
  · rw [erased, erased, shell_annotated, shell_annotated, hs]
  · have erasedParts : List.Forall₂ (Renamed φ) t.erased.parts u.erased.parts := by
      rw [parts_erased, parts_erased, List.forall₂_map_left_iff, List.forall₂_map_right_iff]
      exact hp.imp fun _ _ => renamed_erased.2
    exact (List.forall₂_iff_zip.1 erasedParts).2 hm

theorem Matches.frame (h : Matches φ t u) (ht : t.isFrame = true) :
    t.shell id = u.shell φ ∧ List.Forall₂ (Renamed φ) t.parts u.parts := by
  have framed : t.erased.isFrame = true := (isFrame_annotated bare t).trans ht
  unfold Matches at h
  generalize he : t.erased = a, hb : u.erased = b at h framed
  cases h with
  | frame hf hs hp =>
    subst he hb
    have parts := forall₂_parts (R := Renamed φ) hs hp
    rw [parts_erased, parts_erased, List.forall₂_map_left_iff, List.forall₂_map_right_iff] at parts
    refine ⟨?_, parts.imp fun _ _ => renamed_erased.1⟩
    rwa [erased, erased, shell_annotated, shell_annotated] at hs
  | intersection => cases framed

theorem Matches.congr {a b a' b' : Ty} (h : Matches φ a b) (ha : a.identical a' = true) (hb : b.identical b' = true) :
    Matches φ a' b' := by
  unfold Matches at h ⊢
  rwa [← (identical_iff a a').1 ha, ← (identical_iff b b').1 hb]

/-- A renamed tree is renamed as the tree. -/
theorem renamed_rename (φ : String → String) (t : Ty) : Renamed φ (t.rename φ) t := by
  induction hk : t.size using Nat.strongRecOn generalizing t with
  | ind k ih =>
    have node : ∀ v ∈ t.erased.unionMembers, RenamedNode φ (Renamed φ) (v.rename φ) v := by
      intro v hv
      have within : v.size ≤ k := hk ▸ (size_annotated bare t ▸ size_unionMember hv)
      have framed : v.isFrame = true → RenamedNode φ (Renamed φ) (v.rename φ) v := by
        intro hf
        have parts : List.Forall₂ (Renamed φ) (v.rename φ).parts v.parts := by
          rw [parts_rename, List.forall₂_map_left_iff]
          exact List.forall₂_same.2 fun u hu => ih _ (Nat.lt_of_lt_of_le (size_lt_of_part hu) within) u rfl
        refine .frame ?_ (shell_rename φ v) fun p hp => (List.forall₂_iff_zip.1 parts).2 hp
        cases v <;> first | rfl | cases hf
      cases v with
      | union => exact absurd hv (union_not_mem_unionMembers _)
      | absent => exact absurd hv (absent_not_mem_unionMembers _)
      | intersection ms => exact .intersection (by rw [renameAll_eq])
      | _ => exact framed rfl
    have members : (t.rename φ).erased.unionMembers = t.erased.unionMembers.map (rename φ) := by
      rw [erased, annotated_rename, unionMembers_rename, renameAll_eq]
      rfl
    rw [renamed_iff]
    constructor
    · rw [members]
      intro a ha
      obtain ⟨v, hv, rfl⟩ := List.mem_map.1 ha
      exact ⟨v, hv, node v hv⟩
    · intro v hv
      exact ⟨_, members ▸ List.mem_map_of_mem hv, node v hv⟩

end Renamed
end TypeCalculus.Ty

import TypeCalculus.Proofs.Substitute.Compose
import TypeCalculus.Proofs.Substitute.Signatures
import TypeCalculus.Proofs.Ty.Renamed.Intersection

/-! A simultaneous substitution in a type and in the type renamed, side by side (`aligned_run`). The names that are bound in
    the type are mapped to those in whose place they are. Where no conditional captures what comes into it (`Uncaptured`),
    the mapping that keeps the bound names of the type apart keeps those of the result apart, and the results are renamed as
    one another. -/

namespace TypeCalculus.Substitute
open Ty

/-! ### What results are made of -/

/-- What is written beside parameters has the normal form. -/
abbrev NormalParams : Ty → Prop := Throughout parts fun t => t.isParam = true → Normal t

theorem params_of_built {t : Ty} (h : Built t) : NormalParams t := by
  induction t using parts_induction with
  | step t ih =>
    refine ⟨fun _ => h.normal, fun u hu => ih u hu (h.part ?_ hu)⟩
    cases t with
    | param => cases hu
    | _ => rfl

theorem params_of_rename {φ : String → String} {t : Ty} (h : NormalParams (t.rename φ)) : NormalParams t := by
  induction t using parts_induction with
  | step t ih =>
    refine ⟨fun hp => ?_, fun u hu => ih u hu (h.under (parts_rename φ t ▸ List.mem_map_of_mem hu))⟩
    cases t with
    | param => exact ⟨trivial, fun u hu => (h.node rfl).child hu⟩
    | _ => cases hp

/-- A result is made by the constructors if the replacements are, whatever it is made from. -/
theorem built_once {s : Subst} {opened : List String} {t u : Ty} (h : run false s opened t = some u) (hs : s.Forall Built)
    (ht : NormalParams t) : Built u := by
  refine run_induction (motive := fun s _ t u => s.Forall Built → NormalParams t → Built u) (fun self hself s opened t u hstep hs ht => ?_) h hs ht
  have part : ∀ {s v w}, s.Forall Built → v ∈ t.parts → self s opened v = some w → Built w := fun hs hv hw =>
    (hself _ _ _ _ hw).2 hs (ht.under hv)
  cases hstep with
  | kept => exact ⟨ht.node rfl, tidyNode_of_pending (.inl rfl), nofun⟩
  | taken _ hf => exact hs.find? hf
  | split hsplit hus =>
    obtain ⟨-, c, d, r, rfl, -, hr, ha⟩ := splits?_eq_some hsplit
    have built : Built r := part hs List.mem_cons_self hr
    refine built_unionOf (Results.option.mapM (fun m hm v hv => (hself _ _ _ _ hv).2 (hs.insert _ ?_) ht) _ hus)
    exact ⟨carried_normal.alternatives built.normal ha m hm, Inherited.alternatives inherited_tidy built.tidy ha m hm⟩
  | whole _ hc hb hy hn =>
    exact built_conditional (fun hd => (Bool.and_eq_true_iff.1 hd).1) (part hs (by simp [parts]) hc)
      (part hs (by simp [parts]) hb) (part (hs.without _) (by simp [parts]) hy) (part hs (by simp [parts]) hn)
  | rebuilt hp hc hu =>
    have rebuilds : Rebuilds Built Built t := by
      refine ⟨fun h => ?_, fun hu _ => built_plain hu, fun _ => built_unionOf, fun _ => built_meetOf,
        fun _ => built_templateOf, fun _ hps hi => ?_⟩
      · rcases h with h | rfl
        · exact built_atom h
        · exact ⟨normal_absent, inherited_tidy.leaf rfl rfl⟩
      · exact ⟨normal_ofProps (fun p hp => (hps p hp).normal) fun i he => (hi i he).1.normal,
          inherited_tidy.ofProps (fun p hp => (hps p hp).tidy) fun i he => (hi i he).1.tidy⟩
    exact rebuilds.results Results.option hp hc (fun v hv w hw => part hs hv hw) u hu

/-- What is asked of the nodes of a tree for their names only. -/
structure Marks (q : Ty → Prop) : Prop where
  unnamed : ∀ {t : Ty}, t.name? = none → q t
  infer : ∀ {name : String} {c c' : Ty}, q (infer name c) → q (infer name c')

section Marks
variable {q : Ty → Prop} (M : Marks q)
include M

theorem Marks.inherited : Inherited (Throughout parts q) :=
  inherited_throughout (fun _ => rfl) (fun _ => rfl) (fun _ => rfl) (fun ht => M.unnamed (name?_structural ht))
    (fun _ => M.unnamed rfl) fun _ => M.unnamed rfl

/-- What holds of the names of a type and of its parts rebuilt holds of those of the type rebuilt. -/
theorem Marks.rebuild {t u : Ty} {f : Ty → Option Ty} (hp : t.isParam = false) (hc : t.isConditional = false)
    (ht : Throughout parts q t) (hu : t.rebuild f = some u)
    (results : ∀ v ∈ t.parts, Results.option.All (Throughout parts q) (f v)) : Throughout parts q u := by
  cases hi : t.isInfer with
  | false =>
    refine M.inherited.rebuild Results.option hp hc (fun {v} hk hv _ => ⟨M.unnamed ?_, hv⟩) results u hu
    cases v with
    | param => exact absurd (isParam_of_kind hk) (by rw [hp]; exact Bool.false_ne_true.symm)
    | infer => cases t <;> first | (cases hk; done) | cases hi
    | _ => rfl
  | true =>
    cases t with
    | infer name c =>
      rw [Ty.rebuild] at hu
      split at hu
      · cases hu
        exact ht
      · rename_i present
        obtain ⟨w, hw, he⟩ := Option.bind_eq_some_iff.1 hu
        cases he
        refine ⟨M.infer ht.node, fun v hv => ?_⟩
        have given := results c (by cases c <;> first | exact List.mem_cons_self | exact absurd rfl present) w hw
        cases w with
        | absent => cases hv
        | _ => exact List.mem_singleton.1 hv ▸ given
    | _ => cases hi

/-- What holds of the names of a type and of the replacements that come into it holds of those of the result. -/
theorem Marks.once {s : Subst} {opened : List String} {t u : Ty} (h : run false s opened t = some u)
    (hs : ∀ n r, Free n t → s.find? n = some r → Throughout parts q r) (ht : Throughout parts q t) : Throughout parts q u := by
  refine run_induction (motive := fun s _ t u => (∀ n r, Free n t → s.find? n = some r → Throughout parts q r) →
    Throughout parts q t → Throughout parts q u) (fun self hself s opened t u hstep hs ht => ?_) h hs ht
  have part : ∀ {v w}, v ∈ openParts t → self s opened v = some w → Throughout parts q w := fun hv hw =>
    (hself _ _ _ _ hw).2 (fun n r hn => hs n r (.part hv hn)) (ht.under (mem_parts_of_open hv))
  cases hstep with
  | kept => exact ht
  | taken _ hf => exact hs _ _ .here hf
  | split hsplit hus =>
    obtain ⟨-, c, d, r, rfl, -, hr, ha⟩ := splits?_eq_some hsplit
    refine M.inherited.unionOf (Results.option.mapM (fun m hm v hv => (hself _ _ _ _ hv).2 (fun n r' hn hf => ?_) ht) _ hus)
    rw [Subst.find?_insert] at hf
    split at hf
    · cases hf
      exact Inherited.alternatives M.inherited (part List.mem_cons_self hr) ha m hm
    · exact hs n r' hn hf
  | @whole _ _ _ bound yes no _ _ _ _ _ hc hb hy hn =>
    refine ⟨M.unnamed rfl, ?_⟩
    simp only [parts, List.forall_mem_cons]
    refine ⟨part (by simp [openParts]) hc, part (by simp [openParts]) hb, ?_, part (by simp [openParts]) hn, nofun⟩
    refine (hself _ _ _ _ hy).2 (fun n r hn hf => ?_) (ht.under (by simp [parts]))
    rw [Subst.find?_without] at hf
    split at hf
    · cases hf
    · rename_i hx
      exact hs n r (.yes hx hn) hf
  | rebuilt hp hc hu =>
    exact M.rebuild hp hc ht hu fun v hv w hw => part (openParts_eq hc ▸ hv) hw

end Marks

theorem marks_fixes (φ : String → String) : Marks fun u => ∀ n, u.name? = some n → φ n = n where
  unnamed h n hn := by
    rw [h] at hn
    cases hn
  infer h n hn := h n hn

theorem marks_undeclared (x : String) : Marks fun u => u.isInferOf x = false where
  unnamed {t} h := by
    cases t with
    | infer => cases h
    | _ => rfl
  infer h := h

theorem not_mem_inferNames {x : String} {t : Ty} :
    x ∉ t.inferNames ↔ Throughout parts (fun u => u.isInferOf x = false) t := by
  constructor
  · intro h
    refine (throughout_of_occurs (ι := Unit) (p := fun _ => isInferOf x) (q := fun _ => False) (fun _ => rfl) fun _ ho =>
      h (mem_inferNames.2 ho)).imp fun u hu => Bool.eq_false_iff.2 (hu ())
  · intro h
    induction h with
    | mk hn _ ih =>
      rw [mem_inferNames_iff]
      rintro (hx | ⟨u, hu, hx⟩)
      · rw [hn] at hx
        cases hx
      · exact ih u hu hx

/-- A result declares what the type declares and what the replacements that come into it declare. -/
theorem declared_once {s : Subst} {opened : List String} {t u : Ty} {x : String} (h : run false s opened t = some u)
    (hx : x ∈ u.inferNames) : x ∈ t.inferNames ∨ ∃ n r, Free n t ∧ s.find? n = some r ∧ x ∈ r.inferNames := by
  by_contra hnot
  rw [not_or] at hnot
  refine not_mem_inferNames.2 ((marks_undeclared x).once h (fun n r hn hf => ?_) (not_mem_inferNames.1 hnot.1)) hx
  exact not_mem_inferNames.1 fun hr => hnot.2 ⟨n, r, hn, hf, hr⟩

/-! ### Types without capture -/

/-- Whatever a substitution puts into the bound and into the true branch of a conditional, the same names are bound. -/
structure Clear (s : Subst) (bound yes : Ty) : Prop where
  /-- What comes into the true branch does not refer to what the bound declares. -/
  inBranch : ∀ n r, Free n yes → n ∉ bound.inferNames → s.find? n = some r → ∀ x ∈ bound.inferNames, ¬Free x r
  /-- What comes into the bound declares neither what the bound declares nor what the true branch refers to. -/
  inBound : ∀ n r, Free n bound → s.find? n = some r → ∀ x ∈ r.inferNames, x ∉ bound.inferNames ∧ ¬Free x yes
  /-- What the true branch refers to goes on being declared. -/
  lasting : ∀ x ∈ bound.inferNames, Free x yes → x ∈ (bound.substituteOnce s).inferNames

/-- No conditional that a substitution comes to captures anything or loses what it declares. -/
inductive Uncaptured : Subst → Ty → Prop
  | node {s : Subst} {t : Ty} : t.isConditional = false → (∀ u ∈ t.parts, Uncaptured s u) → Uncaptured s t
  | split {s : Subst} {check bound yes no : Ty} {distribute : Bool} {name : String} {members : List Ty} :
    splits? (run false) s [] check distribute = some (some (name, members)) →
      (∀ m ∈ members, Uncaptured (s.insert name m) (conditional check bound yes no distribute)) →
      Uncaptured s (conditional check bound yes no distribute)
  | whole {s : Subst} {check bound yes no : Ty} {distribute : Bool} :
    splits? (run false) s [] check distribute = some none → Clear s bound yes → (∀ u ∈ [check, bound, no], Uncaptured s u) →
      Uncaptured (s.without bound.inferNames) yes → Uncaptured s (conditional check bound yes no distribute)

theorem replaced_of_find? {s s' : Subst} {m n : String} (h : s.find? m = s'.find? n) :
    Replaced s [] m ↔ Replaced s' [] n := by
  simp only [Replaced, h, List.not_mem_nil, not_false_eq_true, true_and]

section Capture
variable {s : Subst} {t u bound yes : Ty} {n : String}

theorem Uncaptured.of_part (h : Uncaptured s t) (hc : t.isConditional = false) (hu : u ∈ t.parts) : Uncaptured s u := by
  cases h with
  | node _ hp => exact hp u hu
  | split | whole => cases hc

theorem Uncaptured.of_split {check no : Ty} {distribute : Bool} {members : List Ty}
    (h : Uncaptured s (conditional check bound yes no distribute))
    (hs : splits? (run false) s [] check distribute = some (some (n, members))) :
    ∀ m ∈ members, Uncaptured (s.insert n m) (conditional check bound yes no distribute) := by
  cases h with
  | node hc => cases hc
  | split hs' hm =>
    cases hs'.symm.trans hs
    exact hm
  | whole hs' => cases hs'.symm.trans hs

theorem Uncaptured.of_whole {check no : Ty} {distribute : Bool} (h : Uncaptured s (conditional check bound yes no distribute))
    (hs : splits? (run false) s [] check distribute = some none) :
    Clear s bound yes ∧ (∀ u ∈ [check, bound, no], Uncaptured s u) ∧ Uncaptured (s.without bound.inferNames) yes := by
  cases h with
  | node hc => cases hc
  | split hs' => cases hs'.symm.trans hs
  | whole _ hc hp hy => exact ⟨hc, hp, hy⟩

/-- The name is free in the type, or in what comes into the type. -/
def Within (s : Subst) (t : Ty) (n : String) : Prop := Free n t ∨ ∃ m r, Free m t ∧ s.find? m = some r ∧ Free n r

theorem Within.of_part (hu : u ∈ openParts t) (h : Within s u n) : Within s t n :=
  h.imp (.part hu) fun ⟨m, r, hm, hr⟩ => ⟨m, r, .part hu hm, hr⟩

/-- A split binds the checked parameter to an alternative of what it is bound to. -/
theorem Within.of_insert {name : String} {r m : Ty} {members : List Ty} (hf : s.find? name = some r)
    (ha : alternatives? r = some members) (hm : m ∈ members) (h : Within (s.insert name m) t n) : Within s t n := by
  refine h.imp_right fun ⟨k, r', hk, hf', hn⟩ => ?_
  rw [Subst.find?_insert] at hf'
  split at hf'
  · rename_i he
    cases hf'
    refine ⟨k, r, hk, he ▸ hf, by_contra fun hnot => ?_⟩
    exact Inherited.alternatives (inherited_notFree n) hnot ha m hm hn
  · exact ⟨k, r', hk, hf', hn⟩

/-- What comes into the true branch comes in place of a name that is not declared. -/
theorem Within.of_branch (h : Within (s.without bound.inferNames) yes n) :
    Free n yes ∨ ∃ m r, Free m yes ∧ m ∉ bound.inferNames ∧ s.find? m = some r ∧ Free n r := by
  refine h.imp_right fun ⟨m, r, hm, hf, hn⟩ => ?_
  rw [Subst.find?_without] at hf
  split at hf
  · cases hf
  · rename_i hx
    exact ⟨m, r, hm, hx, hf, hn⟩

end Capture

/-! ### Runs side by side -/

/-- The members of an intersection stay as they are, or nothing in them depends on what names are called. -/
def Steadfast (φ : String → String) : Ty → Prop :=
  Throughout parts fun u => ∀ ms, u = intersection ms → ∀ m ∈ ms, Straight φ m ∧ (Fixes φ m ∨ m.isRigid = true)

/-- The type and the bindings of one run are renamed as those of the other, in which names stay apart. -/
structure Alongside (φ : String → String) (s s' : Subst) (t : Ty) : Prop where
  agree : ∀ n, Free n t → s.find? (φ n) = s'.find? n
  apart : Set.InjOn φ {n | Within s' t n}
  faithful : Faithful φ t
  fixed : s'.Forall (Fixes φ)
  made : s.Forall Built ∧ s'.Forall Built
  built : Built (t.rename φ)
  steadfast : Steadfast φ t

/-- The results are renamed as one another, and the names that are free in the second come from where they may. -/
structure Aligned (φ : String → String) (s' : Subst) (t u u' : Ty) : Prop where
  renamed : Renamed φ u u'
  faithful : Faithful φ u'
  within : ∀ n, Free n u' → Within s' t n

/-- The name comes with a replacement, as that of a placeholder into the bound or as that of a parameter into the true
    branch. -/
def Enters (s : Subst) (bound yes : Ty) (x : String) : Prop :=
  (∃ m r, Free m bound ∧ s.find? m = some r ∧ x ∈ r.inferNames) ∨
    ∃ m r, Free m yes ∧ m ∉ bound.inferNames ∧ s.find? m = some r ∧ Free x r

section Alongside
variable {φ : String → String} {s s' : Subst} {t u : Ty}

theorem Alongside.under (h : Alongside φ s s' t) (hp : t.isParam = false) (hu : u ∈ openParts t) : Alongside φ s s' u where
  agree n hn := h.agree n (.part hu hn)
  apart := h.apart.mono fun _ hn => Within.of_part hu hn
  faithful := h.faithful.under (mem_parts_of_open hu)
  fixed := h.fixed
  made := h.made
  built := by
    refine h.built.part ?_ (parts_rename φ t ▸ List.mem_map_of_mem (mem_parts_of_open hu))
    cases t <;> first | rfl | cases hp
  steadfast := h.steadfast.under (mem_parts_of_open hu)

theorem Alongside.insert (h : Alongside φ s s' t) {name : String} {r m : Ty} {members : List Ty} (hn : Free name t)
    (hf : s'.find? name = some r) (ha : alternatives? r = some members) (hm : m ∈ members) :
    Alongside φ (s.insert (φ name) m) (s'.insert name m) t where
  agree n hfree := by
    rw [Subst.find?_insert, Subst.find?_insert]
    have same : φ n = φ name ↔ n = name := ⟨h.apart (.inl hfree) (.inl hn), congrArg φ⟩
    simp only [same, h.agree n hfree]
  apart := h.apart.mono fun _ hn => Within.of_insert hf ha hm hn
  faithful := h.faithful
  fixed := h.fixed.insert name (Inherited.alternatives (inherited_fixes φ) (h.fixed.find? hf) ha m hm)
  made := by
    have made := h.made.2.find? hf
    have built : Built m :=
      ⟨carried_normal.alternatives made.normal ha m hm, Inherited.alternatives inherited_tidy made.tidy ha m hm⟩
    exact ⟨h.made.1.insert _ built, h.made.2.insert _ built⟩
  built := h.built
  steadfast := h.steadfast

/-! ### Conditionals -/

variable {check bound yes no : Ty} {distribute : Bool} (h : Alongside φ s s' (conditional check bound yes no distribute))
include h

/-- A name that the bound does not declare is not declared by the renamed bound. -/
theorem Alongside.undeclared {n : String} (hn : Free n yes) (hd : n ∉ bound.inferNames) :
    φ n ∉ (bound.rename φ).inferNames := by
  intro hm
  obtain ⟨z, hz, he⟩ := mem_inferNames_rename.1 hm
  exact hd (h.faithful.node _ _ _ _ _ rfl (.inl hz) (.inr hn) he ▸ hz)

theorem Alongside.enters_fixed {x : String} (hx : Enters s' bound yes x) : φ x = x := by
  rcases hx with ⟨m, r, -, hr, hx⟩ | ⟨m, r, -, -, hr, hx⟩
  · exact (h.fixed.find? hr).declared hx
  · exact (h.fixed.find? hr).free hx

variable (clear : Clear s (bound.rename φ) (yes.rename φ))
include clear

/-- What comes with a replacement stays apart from what is declared and what is free in the true branch. -/
theorem Alongside.enters {a g : String} (ha : a ∈ bound.inferNames ∨ Free a yes) (hg : Enters s' bound yes g)
    (he : φ a = φ g) : a = g := by
  have faithful : Faithful φ yes := h.faithful.under (by simp [parts])
  rcases hg with ⟨m, r, hm, hr, hg⟩ | ⟨m, r, hm, hd, hr, hg⟩
  · rw [(h.fixed.find? hr).declared hg] at he
    have outside := clear.inBound (φ m) r (free_rename hm (h.faithful.under (by simp [parts])))
      ((h.agree m (.part (by simp [openParts]) hm)).trans hr) g hg
    rcases ha with ha | ha
    · exact absurd (mem_inferNames_rename.2 ⟨a, ha, he⟩) outside.1
    · exact absurd (he ▸ free_rename ha faithful) outside.2
  · by_cases declared : a ∈ bound.inferNames
    · -- The replacement would be captured.
      rw [(h.fixed.find? hr).free hg] at he
      have placed := (h.agree m (.yes hd hm)).trans hr
      exact absurd hg (clear.inBranch (φ m) r (free_rename hm faithful) (h.undeclared hm hd) placed g
        (mem_inferNames_rename.2 ⟨a, declared, he⟩))
    · exact h.apart (.inl (.yes declared (ha.resolve_left declared))) (.inr ⟨m, r, .yes hd hm, hr, hg⟩) he

/-- Names from two sources stay apart in the scope of the conditional. -/
theorem Alongside.injOn {N : Set String} (source : ∀ x ∈ N, (x ∈ bound.inferNames ∨ Free x yes) ∨ Enters s' bound yes x) :
    Set.InjOn φ N := by
  intro a ha g hg he
  rcases source a ha with ha | ha
  · rcases source g hg with hg | hg
    · exact h.faithful.node _ _ _ _ _ rfl ha hg he
    · exact h.enters clear ha hg he
  · rcases source g hg with hg | hg
    · exact (h.enters clear hg ha he.symm).symm
    · rwa [h.enters_fixed ha, h.enters_fixed hg] at he

theorem Alongside.branch : Alongside φ (s.without (bound.rename φ).inferNames) (s'.without bound.inferNames) yes where
  agree n hn := by
    rw [Subst.find?_without, Subst.find?_without]
    by_cases hd : n ∈ bound.inferNames
    · rw [if_pos hd, if_pos (mem_inferNames_rename.2 ⟨n, hd, rfl⟩)]
    · rw [if_neg hd, if_neg (h.undeclared hn hd), h.agree n (.yes hd hn)]
  apart := h.injOn clear fun _ hx => (Within.of_branch hx).imp .inr .inr
  faithful := h.faithful.under (by simp [parts])
  fixed := h.fixed.without _
  made := ⟨h.made.1.without _, h.made.2.without _⟩
  built := h.built.part rfl (by simp [parts, rename])
  steadfast := h.steadfast.under (by simp [parts])

/-- What the true branch refers to is still declared. -/
theorem Alongside.lasts {bound₁ bound₂ : Ty} (hb : Renamed φ bound₁ bound₂) (h₁ : run false s [] (bound.rename φ) = some bound₁)
    (h₂ : run false s' [] bound = some bound₂) {x : String} (hx : x ∈ bound.inferNames) (hy : Free x yes) :
    x ∈ bound₂.inferNames := by
  have built : Built (bound.rename φ) := h.built.part rfl (by simp [rename, parts])
  have stays : φ x ∈ bound₁.inferNames := by
    rw [← Option.some.inj ((run_once built s).symm.trans h₁)]
    exact clear.lasting (φ x) (mem_inferNames_rename.2 ⟨x, hx, rfl⟩) (free_rename hy (h.faithful.under (by simp [parts])))
  obtain ⟨z, hz, he⟩ := (mem_inferNames_renamed hb).1 stays
  suffices z = x from this ▸ hz
  rcases declared_once h₂ hz with hd | hr
  · exact h.faithful.node _ _ _ _ _ rfl (.inl hd) (.inl hx) he
  · exact (h.enters clear (.inl hx) (.inl hr) he.symm).symm

/-- A conditional whose parts are renamed is renamed. -/
theorem Alongside.whole {check₁ bound₁ yes₁ no₁ check₂ bound₂ yes₂ no₂ : Ty} (hc : Aligned φ s' check check₁ check₂)
    (hb : Aligned φ s' bound bound₁ bound₂) (hy : Aligned φ (s'.without bound.inferNames) yes yes₁ yes₂)
    (hn : Aligned φ s' no no₁ no₂) (h₁ : run false s [] (bound.rename φ) = some bound₁)
    (h₂ : run false s' [] bound = some bound₂) (flag : Bool) :
    Aligned φ s' (conditional check bound yes no distribute) (conditional check₁ bound₁ yes₁ no₁ flag)
      (conditional check₂ bound₂ yes₂ no₂ flag) where
  renamed := by
    have frame : List.Forall₂ (Renamed φ) [check₁, bound₁, yes₁, no₁] [check₂, bound₂, yes₂, no₂] :=
      .cons hc.renamed (.cons hb.renamed (.cons hy.renamed (.cons hn.renamed .nil)))
    exact (matches_frame (t := conditional check₁ bound₁ yes₁ no₁ flag) (u := conditional check₂ bound₂ yes₂ no₂ flag)
      rfl rfl frame).renamed
  faithful := by
    refine ⟨?_, ?_⟩
    · rintro _ _ _ _ _ ⟨⟩
      refine h.injOn clear fun x hx => ?_
      rcases hx with hx | hx
      · exact (declared_once h₂ hx).imp .inl .inl
      · exact (Within.of_branch (hy.within x hx)).imp .inr .inr
    · simp only [parts, List.forall_mem_cons]
      exact ⟨hc.faithful, hb.faithful, hy.faithful, hn.faithful, nofun⟩
  within n hfree := by
    rcases free_conditional.1 hfree with hf | hf | hf | ⟨hx, hf⟩
    · exact Within.of_part (by simp [openParts]) (hc.within n hf)
    · exact Within.of_part (by simp [openParts]) (hb.within n hf)
    · exact Within.of_part (by simp [openParts]) (hn.within n hf)
    · rcases Within.of_branch (hy.within n hf) with hy' | ⟨m, r, hm, hd, hr, hn'⟩
      · by_cases hd : n ∈ bound.inferNames
        · exact absurd (h.lasts clear hb.renamed h₁ h₂ hd hy') hx
        · exact .inl (.yes hd hy')
      · exact .inr ⟨m, r, .yes hd hm, hr, hn'⟩

end Alongside

/-! ### Members of intersections -/

/-- A straight type becomes the same whatever its names are called, but for these. -/
theorem straight_once {φ : String → String} {s s' : Subst} (hφ : s'.Forall (Fixes φ)) {t u : Ty} (ht : Straight φ t)
    (ha : ∀ n, Free n t → s.find? (φ n) = s'.find? n) (h : run false s' [] t = some u) :
    run false s [] (t.rename φ) = some (u.rename φ) ∧
      Throughout parts (fun v => v.isConditional = true ∨ v.isInfer = true → Fixes φ v) u ∧
      (Fixes φ t ∨ t.isRigid = true → Fixes φ u ∨ u.isRigid = true) := by
  have bound : ∀ {v}, Fixes φ v → Throughout parts (fun v => v.isConditional = true ∨ v.isInfer = true → Fixes φ v) v :=
    fun hv => (hv.loose fun _ hn => hn).bound
  induction ht generalizing u with
  | @fixed t fixed =>
    have stays : Fixes φ u := (marks_fixes φ).once h (fun _ _ _ hf => hφ.find? hf) fixed
    rw [fixed.rename_eq, stays.rename_eq]
    exact ⟨run_once_agrees h s fun n hn => by rw [← ha n hn, fixed.free hn], bound stays, fun _ => .inl stays⟩
  | @node t hr hparts ih =>
    have plain : t.isConditional = false ∧ t.isInfer = false := by
      rcases hr with hr | hr <;> cases t <;> first | exact ⟨rfl, rfl⟩ | cases hr
    cases hp : t.isParam with
    | true =>
      cases t with
      | param n c d =>
        have same := ha n .here
        cases run_iff.1 h with
        | kept hn =>
          refine ⟨run_iff.2 (.kept (mt (replaced_of_find? same).1 hn)), ⟨fun h => ?_, nofun⟩, fun _ => .inr rfl⟩
          rcases h with h | h <;> cases h
        | taken hn hf =>
          have fixed := hφ.find? hf
          rw [fixed.rename_eq]
          exact ⟨run_iff.2 (.taken ((replaced_of_find? same).2 hn) (same.trans hf)), bound fixed, fun _ => .inl fixed⟩
        | rebuilt h => cases h
      | _ => cases hp
    | false =>
      have part : ∀ v ∈ t.parts, ∀ w, run false s' [] v = some w → _ := fun v hv w hw =>
        ih v hv (fun n hn => ha n (.part (openParts_eq plain.1 ▸ hv) hn)) hw
      have rebuilt := (run_rebuilt hp plain.1).1 h
      obtain ⟨left, rigid⟩ := straight_rebuild hr hp (fun v hv w hw => (part v hv w hw).1) rebuilt
      refine ⟨(run_rebuilt ?_ ?_).2 left, ?_, fun ht => ?_⟩
      · cases t <;> first | rfl | cases hp
      · cases t <;> first | rfl | cases plain.1
      · refine (inherited_bound φ).rebuild Results.option hp plain.1 (fun {v} hkind hv _ => ⟨fun hn => ?_, hv⟩)
          (fun v hv w hw => (part v hv w hw).2.1) u rebuilt
        rcases hn with hn | hn
        · rw [isConditional_of_kind hkind, plain.1] at hn
          cases hn
        · cases v <;> first | (cases hn; done) | (cases t <;> first | (cases hkind; done) | cases plain.2)
      · rcases ht with fixed | hrigid
        · exact .inl ((marks_fixes φ).once h (fun _ _ _ hf => hφ.find? hf) fixed)
        · exact .inr (rigid hrigid)

/-- The intersection of straight types becomes the same, but for its names. -/
theorem Alongside.meet {φ : String → String} {s s' : Subst} {ms us : List Ty} (h : Alongside φ s s' (intersection ms))
    {f : Ty → Option Ty} (hf : ∀ v ∈ ms, ∀ w, f v = some w → run false s' [] v = some w ∧ ∀ n, Free n w → Within s' v n)
    (hus : ms.mapM f = some us) :
    ∃ zs, (ms.map (rename φ)).mapM (run false s []) = some zs ∧ Renamed φ (meetOf zs) (meetOf us) := by
  have member : ∀ v ∈ ms, ∀ w, f v = some w →
      ∃ z, run false s [] (v.rename φ) = some z ∧ z = w.rename φ ∧ Held φ {n | Within s' (intersection ms) n} w := by
    intro v hv w hw
    obtain ⟨hrun, free⟩ := hf v hv w hw
    obtain ⟨straight, stands⟩ := h.steadfast.node ms rfl v hv
    obtain ⟨left, bound, stands'⟩ := straight_once h.fixed straight (h.under rfl hv).agree hrun
    exact ⟨_, left, rfl, ⟨fun n hn => Within.of_part hv (free n hn), bound⟩, stands' stands⟩
  obtain ⟨zs, hzs, pairs⟩ := mapM_partner member hus
  have same : List.Forall₂ Eq zs (us.map (rename φ)) := List.forall₂_map_right_iff.2 (pairs.imp fun _ _ h => h.1)
  rw [List.forall₂_eq_eq_eq, ← renameAll_eq] at same
  subst same
  refine ⟨_, hzs, renamed_meetOf h.apart fun w hw => ?_⟩
  obtain ⟨_, -, -, held⟩ := partner pairs.flip hw
  exact held

/-! ### Substitution in a renamed type -/

section Splits
variable {s s' : Subst} {m n : String} (same : s.find? m = s'.find? n)
include same

/-- A parameter becomes what another one becomes that is bound to the same, if it is bound at all. -/
theorem run_once_param {c d u u' : Ty} (h : run false s [] (param m c d) = some u) (h' : run false s' [] (param n c d) = some u') :
    u.isParam = u'.isParam ∧ alternatives? u = alternatives? u' := by
  cases run_iff.1 h with
  | kept hn =>
    cases run_iff.1 h' with
    | kept => exact ⟨rfl, rfl⟩
    | taken hr => exact absurd ((replaced_of_find? same).2 hr) hn
    | rebuilt h => cases h
  | taken hr hf =>
    cases run_iff.1 h' with
    | kept hn => exact absurd ((replaced_of_find? same).1 hr) hn
    | taken _ hf' =>
      cases hf.symm.trans (same.trans hf')
      exact ⟨rfl, rfl⟩
    | rebuilt h => cases h
  | rebuilt h => cases h

theorem splits?_param {c d : Ty} {distribute : Bool} {split : Option (String × List Ty)}
    (h : splits? (run false) s' [] (param n c d) distribute = some split) :
    splits? (run false) s [] (param m c d) distribute = some (split.map fun e => (m, e.2)) := by
  have waits : (([] : List String).contains m || ((s.find? m).getD absent).isAbsent) =
      (([] : List String).contains n || ((s'.find? n).getD absent).isAbsent) := by
    rw [same]
    rfl
  rw [splits?] at h
  rw [splits?, waits]
  split at h
  · rename_i ready
    rw [if_pos ready]
    obtain ⟨r', hr', he⟩ := Option.bind_eq_some_iff.1 h
    cases he
    obtain ⟨r, hr⟩ := once_ends s [] (param m c d)
    refine Option.bind_eq_some_iff.2 ⟨r, hr, ?_⟩
    rw [(run_once_param same hr hr').2, Option.map_map]
    cases alternatives? r' <;> rfl
  · rename_i waiting
    rw [if_neg waiting]
    cases h
    rfl

end Splits

theorem inherited_faithful (φ : String → String) : Inherited (Faithful φ) :=
  inherited_throughout (fun _ => rfl) (fun _ => rfl) (fun _ => rfl)
    (fun ht => by rintro _ _ _ _ _ rfl; cases ht) (fun _ => nofun) fun _ => nofun

theorem present_holes {xs : List (Segment Ty)} (h : Normal (template xs)) : absent ∉ holes xs := by
  intro ha
  have form : TemplateForm xs := h.form
  cases form.holes absent ha

section Aligned
variable {φ : String → String} {s s' : Subst}

/-- A conditional splits as it does renamed. -/
theorem Alongside.splits {check bound yes no : Ty} {distribute : Bool}
    (h : Alongside φ s s' (conditional check bound yes no distribute)) {split : Option (String × List Ty)}
    (hs : splits? (run false) s' [] check distribute = some split) :
    splits? (run false) s [] (check.rename φ) distribute = some (split.map fun e => (φ e.1, e.2)) := by
  cases check with
  | param n c d =>
    rw [rename, splits?_param (h.agree n (.part List.mem_cons_self .here)) hs]
    cases split with
    | none => rfl
    | some e =>
      obtain ⟨-, _, _, _, he, -⟩ := splits?_eq_some hs
      cases he
      rfl
  | _ =>
    cases hs
    rfl

/-- A union of results that are renamed is renamed. -/
theorem Aligned.unionOf {zs us : List Ty} (h : List.Forall₂ (Aligned φ s' t) zs us) :
    Aligned φ s' t (Ty.unionOf zs) (Ty.unionOf us) where
  renamed := renamed_unionOf_forall₂ (h.imp fun _ _ h => h.renamed)
  faithful := by
    refine (inherited_faithful φ).unionOf fun v hv => ?_
    obtain ⟨_, -, h⟩ := partner h.flip hv
    exact h.faithful
  within := by
    refine (inherited_free {n | Within s' t n}).unionOf fun v hv => ?_
    obtain ⟨_, -, h⟩ := partner h.flip hv
    exact h.within

/-- A type rebuilt from results that are renamed is renamed. -/
theorem Alongside.rebuilt {t u' : Ty} (h : Alongside φ s s' t) {f : Ty → Option Ty} (hp : t.isParam = false)
    (hc : t.isConditional = false) (hu : t.rebuild f = some u')
    (hf : ∀ v ∈ t.parts, ∀ w, f v = some w → run false s' [] v = some w ∧
      ∃ w', run false s [] (v.rename φ) = some w' ∧ Aligned φ s' v w' w) :
    ∃ u, run false s [] (t.rename φ) = some u ∧ Aligned φ s' t u u' := by
  have faithful : Faithful φ u' := by
    refine (inherited_faithful φ).rebuild Results.option hp hc (fun {v} hk hv _ => ⟨?_, hv⟩) (fun v hv w hw => ?_) u' hu
    · rintro _ _ _ _ _ rfl
      cases (isConditional_of_kind hk).trans hc
    · obtain ⟨-, _, -, aligned⟩ := hf v hv w hw
      exact aligned.faithful
  have within : ∀ n, Free n u' → Within s' t n := by
    refine (inherited_free {n | Within s' t n}).rebuild Results.option hp hc (fun {v} hk hv _ n hn => ?_)
      (fun v hv w hw n hn => ?_) u' hu
    · obtain ⟨w, hw, hn⟩ := (free_iff ((isParam_of_kind hk).trans hp) ((isConditional_of_kind hk).trans hc)).1 hn
      exact hv w hw n hn
    · obtain ⟨-, _, -, aligned⟩ := hf v hv w hw
      exact Within.of_part (openParts_eq hc ▸ hv) (aligned.within n hn)
  have hp₁ : (t.rename φ).isParam = false := by cases t <;> first | rfl | cases hp
  have hc₁ : (t.rename φ).isConditional = false := by cases t <;> first | rfl | cases hc
  suffices ∃ u, (t.rename φ).rebuild (run false s []) = some u ∧ Renamed φ u u' by
    obtain ⟨u, hu, renamed⟩ := this
    exact ⟨u, (run_rebuilt hp₁ hc₁).2 hu, renamed, faithful, within⟩
  by_cases meet : ∃ ms, t = intersection ms
  · obtain ⟨ms, rfl⟩ := meet
    obtain ⟨us, hus, he⟩ := Option.bind_eq_some_iff.1 hu
    cases he
    obtain ⟨zs, hzs, renamed⟩ := h.meet (fun v hv w hw => by
      obtain ⟨hrun, _, -, aligned⟩ := hf v hv w hw
      exact ⟨hrun, aligned.within⟩) hus
    refine ⟨meetOf zs, ?_, renamed⟩
    rw [rename, renameAll_eq]
    exact Option.bind_eq_some_iff.2 ⟨zs, hzs, rfl⟩
  · refine renamed_rebuild hp hc (fun ms he => meet ⟨ms, he⟩) ?_ (fun v hv w hw => ?_) hu
    · rintro xs rfl ha
      refine present_holes h.built.normal ?_
      rw [holes_rename]
      exact List.mem_map_of_mem ha
    · obtain ⟨hrun, w', hw', aligned⟩ := hf v hv w hw
      have built := (h.under hp (openParts_eq hc ▸ hv)).built
      refine ⟨w', hw', aligned.renamed, ⟨built_once hrun h.made.2 (params_of_rename (params_of_built built)),
        built_once hw' h.made.1 (params_of_built built)⟩, fun present => ?_⟩
      refine ⟨present_run hrun present, present_run hw' fun he => present ?_⟩
      cases v <;> first | rfl | cases he

/-- Substitution in a type renamed gives its result renamed, and keeps apart what has been kept apart. -/
theorem aligned_run {t u' : Ty} (h : run false s' [] t = some u') : ∀ {s}, Alongside φ s s' t → Uncaptured s (t.rename φ) →
    ∃ u, run false s [] (t.rename φ) = some u ∧ Aligned φ s' t u u' := by
  refine run_induction (motive := fun s' opened t u' => opened = [] → ∀ {s}, Alongside φ s s' t → Uncaptured s (t.rename φ) →
    ∃ u, run false s [] (t.rename φ) = some u ∧ Aligned φ s' t u u') (fun self hself s' opened t u' hstep => ?_) h rfl
  rintro rfl s hs clear
  have whole : ∀ {check distribute split}, splits? self s' [] check distribute = some split →
      splits? (run false) s' [] check distribute = some split := fun h =>
    splits?_extend (fun u hu => (hself _ _ _ _ hu).1) _ _ h
  cases hstep with
  | @kept _ name c d hn =>
    refine ⟨_, run_iff.2 (.kept (mt (replaced_of_find? (hs.agree name .here)).1 hn)), ?_⟩
    exact ⟨renamed_rename φ (param name c d), hs.faithful, fun n => .inl⟩
  | @taken name c d _ hr hf =>
    have fixed := hs.fixed.find? hf
    have same := hs.agree name .here
    refine ⟨u', run_iff.2 (.taken ((replaced_of_find? same).2 hr) (same.trans hf)), ?_, fixed.faithful, fun n hn => ?_⟩
    · have renamed := renamed_rename φ u'
      rwa [fixed.rename_eq] at renamed
    · exact .inr ⟨name, u', .here, hf, hn⟩
  | @split _ distribute check bound yes no name members us hsplit hus =>
    have splits := hs.splits (whole hsplit)
    obtain ⟨rfl, c, d, r, rfl, hr, hrun, ha⟩ := splits?_eq_some hsplit
    have free : Free name (conditional (param name c d) bound yes no true) := .part List.mem_cons_self .here
    have hf : s'.find? name = some r := by
      obtain ⟨-, v, hv, hp⟩ := hr
      exact hv.trans ((run_once_taken hv hp).symm.trans (hself _ _ _ _ hrun).1)
    have member : ∀ m ∈ members, ∀ v, self (s'.insert name m) [] (conditional (param name c d) bound yes no true) = some v →
        ∃ z, run false (s.insert (φ name) (id m)) [] ((conditional (param name c d) bound yes no true).rename φ) = some z ∧
          Aligned φ s' (conditional (param name c d) bound yes no true) z v := by
      intro m hm v hv
      obtain ⟨z, hz, aligned⟩ := (hself _ _ _ _ hv).2 rfl (hs.insert free hf ha hm) (clear.of_split splits m hm)
      exact ⟨z, hz, { aligned with within := fun n hn => (aligned.within n hn).of_insert hf ha hm }⟩
    obtain ⟨zs, hzs, aligned⟩ := mapM_partner (g := fun m => run false (s.insert (φ name) m) [] _) member hus
    rw [List.map_id] at hzs
    exact ⟨unionOf zs, run_iff.2 (.split splits hzs), Aligned.unionOf aligned⟩
  | @whole _ distribute check bound yes no check₂ bound₂ yes₂ no₂ hsplit hc hb hy hn =>
    have splits := hs.splits (whole hsplit)
    obtain ⟨clear, clearParts, clearYes⟩ := clear.of_whole splits
    obtain ⟨check₁, hc₁, ac⟩ := (hself _ _ _ _ hc).2 rfl (hs.under rfl (by simp [openParts])) (clearParts _ (by simp))
    obtain ⟨bound₁, hb₁, ab⟩ := (hself _ _ _ _ hb).2 rfl (hs.under rfl (by simp [openParts])) (clearParts _ (by simp))
    obtain ⟨no₁, hn₁, an⟩ := (hself _ _ _ _ hn).2 rfl (hs.under rfl (by simp [openParts])) (clearParts _ (by simp))
    obtain ⟨yes₁, hy₁, ay⟩ := (hself _ _ _ _ hy).2 rfl (hs.branch clear) clearYes
    have flag : (check₁.isParam && distribute) = (check₂.isParam && distribute) := by
      cases distribute with
      | false => rw [Bool.and_false, Bool.and_false]
      | true =>
        have form : (check.rename φ).isParam = true := hs.built.normal.form rfl
        cases check with
        | param n c d => rw [(run_once_param (hs.agree n (.part List.mem_cons_self .here)) hc₁ (hself _ _ _ _ hc).1).1]
        | _ => cases form
    refine ⟨_, run_iff.2 (.whole splits hc₁ hb₁ hy₁ hn₁), ?_⟩
    rw [flag]
    exact hs.whole clear ac ab ay an hb₁ (hself _ _ _ _ hb).1 _
  | rebuilt hp hc hu =>
    have hc₁ : (t.rename φ).isConditional = false := by cases t <;> first | rfl | cases hc
    refine hs.rebuilt hp hc hu fun v hv w hw => ⟨(hself _ _ _ _ hw).1, ?_⟩
    exact (hself _ _ _ _ hw).2 rfl (hs.under hp (openParts_eq hc ▸ hv))
      (clear.of_part hc₁ (parts_rename φ t ▸ List.mem_map_of_mem hv))

end Aligned

end TypeCalculus.Substitute

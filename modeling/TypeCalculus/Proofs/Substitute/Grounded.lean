import Mathlib.Logic.Relation
import TypeCalculus.Proofs.Substitute.Steps
import TypeCalculus.Proofs.Ty.Choices

/-! What substitution leaves of types whose parameters do not lead into cyclic bindings. The bindings change on the
    way, as a conditional that splits rebinds the parameter it checks; they keep leading where the first ones lead
    (`Follows`). Of a result nothing is left to be replaced (`Fixed`), and replacing in what is fixed makes no choices
    (`choices_run`). -/

namespace TypeCalculus

namespace Ty

/-- The type is a parameter of the name. -/
def isParamOf (name : String) : Ty → Bool
  | param n _ _ => n == name
  | _ => false

/-- The type is a conditional that distributes over the parameter of the name. -/
def distributesOver (name : String) : Ty → Bool
  | conditional (param n _ _) _ _ _ true => n == name
  | _ => false

/-- A type mentions bound names. -/
theorem mentions_iff {t : Ty} {s : Subst} : t.mentions s = true ↔ ∃ n, t.occurs (isParamOf n) = true ∧ s.binds n = true := by
  constructor
  · intro h
    induction t using parts_induction with
    | step t ih =>
      rcases (occurs_iff rfl).1 h with hn | ⟨u, hu, ho⟩
      · cases t with
        | param n c d => exact ⟨n, occurs_self rfl (beq_self_eq_true n), hn⟩
        | _ => cases hn
      · obtain ⟨n, hn, hb⟩ := ih u hu ho
        exact ⟨n, occurs_of_part rfl hu hn, hb⟩
  · rintro ⟨n, hn, hb⟩
    refine occurs_imp rfl rfl (fun u hu => ?_) hn
    cases u with
    | param m c d => exact (beq_iff_eq.1 hu).symm ▸ hb
    | _ => cases hu

end Ty

namespace Subst

/-- The name is bound to a type in which the parameter of the other name occurs. -/
def Leads (s : Subst) (name other : String) : Prop :=
  ∃ t, s.find? name = some t ∧ t.occurs (Ty.isParamOf other) = true

/-- No cycle of bindings is reached from the name. -/
def Grounded (s : Subst) (name : String) : Prop :=
  ∀ other, Relation.ReflTransGen s.Leads name other → ¬Relation.TransGen s.Leads other other

theorem Grounded.of_leads {s : Subst} {name other : String} (h : s.Grounded name)
    (hl : Relation.TransGen s.Leads name other) : s.Grounded other :=
  fun n hn => h n (hl.to_reflTransGen.trans hn)

theorem Grounded.ne {s : Subst} {name other : String} (h : s.Grounded name)
    (hl : Relation.TransGen s.Leads name other) : other ≠ name := by
  rintro rfl
  exact h other .refl hl

end Subst

namespace Substitute
open Ty Relation

/-! ### Names of parameters -/

/-- All parameters of the tree have names with a property. -/
def Named (A : String → Prop) (t : Ty) : Prop := Throughout parts (fun u => ∀ n, u.isParamOf n = true → A n) t

/-- All parameters that the conditionals of the tree distribute over are grounded. -/
def Checks (s : Subst) (t : Ty) : Prop :=
  Throughout parts (fun u => ∀ n, u.distributesOver n = true → s.Grounded n) t

section Names
variable {A B : String → Prop} {s : Subst} {t u : Ty}

theorem named_param {name : String} {constraint default : Ty} : Named A (param name constraint default) ↔ A name := by
  constructor
  · exact fun h => h.node name (beq_self_eq_true name)
  · refine fun h => ⟨fun n hn => ?_, nofun⟩
    exact beq_iff_eq.1 hn ▸ h

theorem Named.imp (h : Named A t) (hAB : ∀ n, A n → B n) : Named B t :=
  Throughout.imp (fun _ hu n hn => hAB n (hu n hn)) h

theorem isParamOf_eq_false (h : t.isParam = false) (n : String) : t.isParamOf n = false := by
  cases t with
  | param => cases h
  | _ => rfl

theorem distributesOver_eq_false (h : t.isConditional = false) (n : String) : t.distributesOver n = false := by
  cases t with
  | conditional => cases h
  | _ => rfl

theorem eq_of_distributesOver {n : String} (h : t.distributesOver n = true) :
    ∃ constraint default bound yes no, t = conditional (param n constraint default) bound yes no true := by
  unfold distributesOver at h
  split at h
  · rw [beq_iff_eq.1 h]
    exact ⟨_, _, _, _, _, rfl⟩
  · cases h

theorem isParam_of_structural (h : t.isStructural = true) : t.isParam = false := by
  cases t with
  | param => cases h
  | _ => rfl

theorem isConditional_of_structural (h : t.isStructural = true) : t.isConditional = false := by
  cases t with
  | conditional => cases h
  | _ => rfl

theorem inherited_named (A : String → Prop) : Inherited (Named A) :=
  inherited_throughout (fun _ => rfl) (fun _ => rfl) (fun _ => rfl)
    (fun ht n hn => by
      rw [isParamOf_eq_false (isParam_of_structural ht)] at hn
      cases hn)
    (fun _ => nofun) fun _ => nofun

/-- Where all parameters are grounded, so are those that are distributed over. -/
theorem Named.checks (h : Named A t) (hA : ∀ n, A n → s.Grounded n) : Checks s t := by
  induction h with
  | mk _ hparts ih =>
    refine ⟨fun n hn => ?_, ih⟩
    obtain ⟨c, d, b, y, n', rfl⟩ := eq_of_distributesOver hn
    exact hA n (named_param.1 (hparts _ List.mem_cons_self))

end Names

/-! ### Bindings -/

/-- The bindings are of names that the first ones bind, and to types that these lead to, where that matters. -/
structure Follows (s₀ s : Subst) : Prop where
  bound : ∀ {n t}, s.find? n = some t → n ∈ s₀.names
  checks : ∀ {n t}, s.find? n = some t → Checks s₀ t
  named : ∀ {n t}, s.find? n = some t → s₀.Grounded n → Named (TransGen s₀.Leads n) t

theorem follows_self {s : Subst} (h : ∀ n t, s.find? n = some t → Checks s t) : Follows s s where
  bound := Subst.mem_names_of_find?
  checks hf := h _ _ hf
  named hf _ := throughout_of_occurs (fun _ => rfl) fun _ ho => .single ⟨_, hf, ho⟩

section Bindings
variable {s₀ s : Subst} (hs : Follows s₀ s)
include hs

theorem Follows.without (names : List String) : Follows s₀ (s.without names) where
  bound hf := hs.bound (Subst.find?_of_without hf)
  checks hf := hs.checks (Subst.find?_of_without hf)
  named hf := hs.named (Subst.find?_of_without hf)

theorem Follows.insert {name : String} {opened : List String} {t : Ty} (hr : Replaced s opened name)
    (hg : s₀.Grounded name) (ht : Named (TransGen s₀.Leads name) t) : Follows s₀ (s.insert name t) := by
  obtain ⟨-, r, hf, -⟩ := hr
  have either : ∀ {n u}, (s.insert name t).find? n = some u → n = name ∧ u = t ∨ s.find? n = some u := by
    intro n u hu
    rw [Subst.find?_insert] at hu
    split at hu
    · rename_i hn
      exact Or.inl ⟨hn, (Option.some.inj hu).symm⟩
    · exact Or.inr hu
  refine ⟨fun hu => ?_, fun hu => ?_, fun hu hgn => ?_⟩
  · rcases either hu with ⟨rfl, rfl⟩ | hu
    · exact hs.bound hf
    · exact hs.bound hu
  · rcases either hu with ⟨rfl, rfl⟩ | hu
    · exact ht.checks fun n hn => hg.of_leads hn
    · exact hs.checks hu
  · rcases either hu with ⟨rfl, rfl⟩ | hu
    · exact ht
    · exact hs.named hu hgn

end Bindings

/-! ### Parameters of results -/

theorem Inherited.alternatives {P : Ty → Prop} (h : Inherited P) {r : Ty} {members : List Ty} (hr : P r)
    (ha : alternatives? r = some members) : ∀ m ∈ members, P m :=
  alternatives_forall (P := P) (fun h' _ hm => h.unionMember h' hm) (fun _ => h.literal _ _) hr ha

/-- No alternative is missing, unless it is so in a union. -/
theorem alternatives_present {t : Ty} (h : ∀ ms, t = union ms → absent ∉ ms) {members : List Ty}
    (ha : alternatives? t = some members) : ∀ m ∈ members, m ≠ absent := by
  intro m hm
  unfold alternatives? at ha
  split at ha
  · cases ha
    rintro rfl
    exact h _ rfl hm
  · cases ha
    rcases List.mem_cons.1 hm with rfl | hm
    · nofun
    · rw [List.mem_singleton.1 hm]
      nofun
  · cases ha
    cases hm
  · cases ha

/-- The names are grounded, and the bindings lead from them to such names only. -/
def Closed (s₀ : Subst) (A : String → Prop) : Prop :=
  ∀ n, A n → s₀.Grounded n ∧ ∀ m, TransGen s₀.Leads n m → A m

theorem closed_leads {s₀ : Subst} {n : String} (h : s₀.Grounded n) : Closed s₀ (TransGen s₀.Leads n) :=
  fun _ hm => ⟨h.of_leads hm, fun _ hk => hm.trans hk⟩

theorem isParam_of_kind {t u : Ty} (h : u.kind? = t.kind?) : u.isParam = t.isParam := by
  have byKind : ∀ v : Ty, v.isParam = (v.kind? == some .param) := fun v => by cases v <;> rfl
  rw [byKind, h, ← byKind]

theorem isConditional_of_kind {t u : Ty} (h : u.kind? = t.kind?) : u.isConditional = t.isConditional := by
  have byKind : ∀ v : Ty, v.isConditional = (v.kind? == some .conditional) := fun v => by cases v <;> rfl
  rw [byKind, h, ← byKind]

section Names
variable {s₀ : Subst}

/-- Substitution stays within closed names, and a parameter gives a type within the names that it leads to. -/
theorem named_run_aux {s : Subst} {opened : List String} {t u : Ty} (h : run true s opened t = some u) :
    Follows s₀ s → (∀ A, Closed s₀ A → Named A t → Named A u) ∧
      ∀ n c d, t = param n c d → s₀.Grounded n → u = t ∨ Named (TransGen s₀.Leads n) u := by
  refine run_induction (motive := fun s _ t u => Follows s₀ s → (∀ A, Closed s₀ A → Named A t → Named A u) ∧
      ∀ n c d, t = param n c d → s₀.Grounded n → u = t ∨ Named (TransGen s₀.Leads n) u)
    (fun self hself s opened t u hstep hs => ?_) h
  have part : ∀ {A}, Closed s₀ A → ∀ {s opened t u}, Follows s₀ s → Named A t → self s opened t = some u → Named A u :=
    fun hA _ _ _ _ hs ht hu => ((hself _ _ _ _ hu).2 hs).1 _ hA ht
  cases hstep with
  | kept => exact ⟨fun _ _ ht => ht, fun _ _ _ _ _ => Or.inl rfl⟩
  | @replaced name constraint default t u hr hf hu =>
    have leads : s₀.Grounded name → Named (TransGen s₀.Leads name) u :=
      fun hg => part (closed_leads hg) hs (hs.named hf hg) hu
    refine ⟨fun A hA ht => ?_, ?_⟩
    · obtain ⟨hg, hleads⟩ := hA name (named_param.1 ht)
      exact (leads hg).imp hleads
    · rintro n c d ⟨⟩ hg
      exact Or.inr (leads hg)
  | @split _ distribute check bound yes no name members us hsplit hus =>
    obtain ⟨rfl, c, d, r, rfl, hr, hself', ha⟩ := splits?_eq_some hsplit
    refine ⟨fun A hA ht => (inherited_named A).unionOf ?_, nofun⟩
    obtain ⟨hg, -⟩ := hA name (named_param.1 (ht.under List.mem_cons_self))
    have alternatives : ∀ m ∈ members, Named (TransGen s₀.Leads name) m := by
      rcases ((hself _ _ _ _ hself').2 hs).2 name c d rfl hg with rfl | hn
      · cases ha
      · exact Inherited.alternatives (inherited_named _) hn ha
    exact Results.option.mapM (fun m hm u hu => part hA (hs.insert hr hg (alternatives m hm)) ht hu) us hus
  | @whole _ distribute check bound yes no check' bound' yes' no' _ hc hb hy hn =>
    refine ⟨fun A hA ht => ⟨nofun, fun v hv => ?_⟩, nofun⟩
    simp only [parts, List.mem_cons, List.not_mem_nil, or_false] at hv
    rcases hv with rfl | rfl | rfl | rfl
    · exact part hA hs (ht.under (by simp [parts])) hc
    · exact part hA hs (ht.under (by simp [parts])) hb
    · exact part hA (hs.without _) (ht.under (by simp [parts])) hy
    · exact part hA hs (ht.under (by simp [parts])) hn
  | rebuilt hp hc hu =>
    refine ⟨fun A hA ht => ?_, ?_⟩
    · refine (inherited_named A).rebuild Results.option hp hc (fun hk hv _ => ⟨fun n hn => ?_, hv⟩)
        (fun v hv w hw => part hA hs (ht.under hv) hw) u hu
      rw [isParamOf_eq_false ((isParam_of_kind hk).trans hp)] at hn
      cases hn
    · rintro n c d rfl
      cases hp

theorem named_run {A : String → Prop} (hA : Closed s₀ A) {s : Subst} (hs : Follows s₀ s) {opened : List String}
    {t u : Ty} (ht : Named A t) (h : run true s opened t = some u) : Named A u :=
  (named_run_aux h hs).1 A hA ht

/-- What a grounded parameter is replaced by leads further on. -/
theorem named_run_param {s : Subst} (hs : Follows s₀ s) {opened : List String} {name : String} {c d u : Ty}
    (hg : s₀.Grounded name) (h : run true s opened (param name c d) = some u) :
    u = param name c d ∨ Named (TransGen s₀.Leads name) u :=
  (named_run_aux h hs).2 name c d rfl hg

end Names

/-! ### Fixed types -/

/-- The parts of a type that substitution looks at for its alternatives. -/
def skeleton : Ty → List Ty
  | conditional .. => []
  | t => t.parts

/-- Nothing is replaced at the node, and no part of it is missing. -/
structure FixedNode (s : Subst) (opened : List String) (t : Ty) : Prop where
  param : ∀ n, t.isParamOf n = true → ¬Replaced s opened n
  check : ∀ n, t.distributesOver n = true → ¬Replaced s opened n
  present : ∀ ms, t = union ms → absent ∉ ms

/-- Nothing is replaced in the parts of the type that matter for its alternatives. -/
def Fixed (s : Subst) (opened : List String) (t : Ty) : Prop := Throughout skeleton (FixedNode s opened) t

theorem skeleton_eq {t : Ty} (h : t.isConditional = false) : skeleton t = t.parts := by
  cases t with
  | conditional => cases h
  | _ => rfl

theorem mem_parts_of_skeleton {t u : Ty} (h : u ∈ skeleton t) : u ∈ t.parts := by
  cases t with
  | conditional => cases h
  | _ => exact h

theorem inherited_fixed (s : Subst) (opened : List String) : Inherited (Fixed s opened) :=
  inherited_throughout (fun ht => skeleton_eq (isConditional_of_structural ht)) (fun _ => rfl) (fun _ => rfl)
    (fun {t} ht => by
      refine ⟨fun n hn => ?_, fun n hn => ?_, ?_⟩
      · rw [isParamOf_eq_false (isParam_of_structural ht)] at hn
        cases hn
      · rw [distributesOver_eq_false (isConditional_of_structural ht)] at hn
        cases hn
      · rintro ms rfl
        cases ht)
    (fun {ms} ha => ⟨nofun, nofun, by rintro _ ⟨⟩; exact ha⟩) fun _ => ⟨nofun, nofun, nofun⟩

section Fixed
variable {s s' : Subst} {opened opened' : List String} {t u : Ty}

theorem Fixed.imp (h : Fixed s opened t) (hr : ∀ n, Replaced s' opened' n → Replaced s opened n) : Fixed s' opened' t :=
  Throughout.imp (fun _ hu => ⟨fun n hn hr' => hu.param n hn (hr n hr'), fun n hn hr' => hu.check n hn (hr n hr'),
    hu.present⟩) h

/-- It is enough to look at the names that occur. -/
theorem Fixed.imp_named {A : String → Prop} (h : Fixed s opened t) (ht : Named A t)
    (hr : ∀ n, A n → Replaced s' opened' n → Replaced s opened n) : Fixed s' opened' t := by
  induction h with
  | mk hnode _ ih =>
    refine ⟨⟨fun n hn hr' => hnode.param n hn (hr n (ht.node n hn) hr'), fun n hn hr' => ?_, hnode.present⟩,
      fun u hu => ih u hu (ht.under (mem_parts_of_skeleton hu))⟩
    obtain ⟨c, d, b, y, n', rfl⟩ := eq_of_distributesOver hn
    exact hnode.check n hn (hr n (named_param.1 (ht.under List.mem_cons_self)) hr')

/-- Rebinding a name that is replaced anyway leaves a type fixed. -/
theorem Replaced.insert {name n : String} {r : Ty} (hname : Replaced s opened name) (hr : r ≠ absent) (h : Replaced s opened n) :
    Replaced (s.insert name r) opened n := by
  obtain ⟨ho, t, hf, ht⟩ := h
  by_cases hn : n = name
  · subst hn
    exact ⟨ho, r, Subst.find?_insert_self _ _ _, hr⟩
  · exact ⟨ho, t, by rw [Subst.find?_insert_ne _ _ hn, hf], ht⟩

theorem present_alternatives (h : Fixed s opened t) {members : List Ty} (ha : alternatives? t = some members) :
    ∀ m ∈ members, m ≠ absent := alternatives_present h.node.present ha

/-- Of a type whose parameters are grounded, substitution leaves nothing to be replaced. -/
theorem fixed_run {s₀ : Subst} (h : run true s opened t = some u) :
    Follows s₀ s → Named s₀.Grounded t → Fixed s opened u := by
  refine run_induction (motive := fun s opened t u => Follows s₀ s → Named s₀.Grounded t → Fixed s opened u)
    (fun self hself s opened t u hstep hs ht => ?_) h
  have part : ∀ {s opened t u}, Follows s₀ s → Named s₀.Grounded t → self s opened t = some u → Fixed s opened u :=
    fun hs ht hu => (hself _ _ _ _ hu).2 hs ht
  cases hstep with
  | @kept _ name _ _ hr =>
    refine ⟨⟨fun n hn => ?_, nofun, nofun⟩, nofun⟩
    exact beq_iff_eq.1 hn ▸ hr
  | @replaced name constraint default t u hr hf hu =>
    have hg := named_param.1 ht
    have named := hs.named hf hg
    have fixed := part hs (named.imp fun n hn => hg.of_leads hn) hu
    -- The name itself does not occur in what it is replaced by, or else it would lead to itself.
    refine fixed.imp_named (named_run (closed_leads hg) hs named (hself _ _ _ _ hu).1) ?_
    rintro n hn ⟨ho, hb⟩
    refine ⟨fun hmem => ?_, hb⟩
    rcases List.mem_cons.1 hmem with rfl | hmem
    · exact hg.ne hn rfl
    · exact ho hmem
  | @split _ distribute check bound yes no name members us hsplit hus =>
    obtain ⟨rfl, c, d, r, rfl, hr, hself', ha⟩ := splits?_eq_some hsplit
    have hcheck := ht.under List.mem_cons_self
    have hg := named_param.1 hcheck
    have rfixed := part hs hcheck hself'
    refine (inherited_fixed s opened).unionOf (Results.option.mapM (fun m hm v hv => ?_) us hus)
    have named : Named (TransGen s₀.Leads name) m := by
      rcases named_run_param hs hg (hself _ _ _ _ hself').1 with rfl | hn
      · cases ha
      · exact Inherited.alternatives (inherited_named _) hn ha m hm
    exact (part (hs.insert hr hg named) ht hv).imp fun n => hr.insert (present_alternatives rfixed ha m hm)
  | @whole _ distribute check bound yes no check' bound' yes' no' _ hc hb hy hn =>
    refine ⟨⟨nofun, fun n hn => ?_, nofun⟩, nofun⟩
    obtain ⟨c, d, b, y, n', he⟩ := eq_of_distributesOver hn
    cases he
    exact (part hs (ht.under List.mem_cons_self) hc).node.param n (beq_self_eq_true n)
  | rebuilt hp hc hu =>
    refine (inherited_fixed s opened).rebuild Results.option hp hc (fun {v} hk hv hpend => ⟨⟨fun n hn => ?_, fun n hn => ?_, ?_⟩,
      fun w hw => hv w (mem_parts_of_skeleton hw)⟩) (fun v hv w hw => part hs (ht.under hv) hw) u hu
    · rw [isParamOf_eq_false ((isParam_of_kind hk).trans hp)] at hn
      cases hn
    · rw [distributesOver_eq_false ((isConditional_of_kind hk).trans hc)] at hn
      cases hn
    · rintro ms rfl
      rcases hpend with hpend | hpend <;> cases hpend

/-- Substitution in a fixed type makes no choices. -/
theorem choices_run (h : run true s opened t = some u) : Fixed s opened t → u.choices ≤ t.choices := by
  refine run_induction (motive := fun s opened t u => Fixed s opened t → u.choices ≤ t.choices)
    (fun self hself s opened t u hstep ht => ?_) h
  cases hstep with
  | kept => exact Nat.le_refl _
  | @replaced name constraint default t u hr => exact absurd hr (ht.node.param name (beq_self_eq_true name))
  | @split _ distribute check bound yes no name members us hsplit =>
    obtain ⟨rfl, c, d, r, rfl, hr, -, -⟩ := splits?_eq_some hsplit
    exact absurd hr (ht.node.check name (beq_self_eq_true name))
  | whole => exact Nat.zero_le _
  | rebuilt hp hc hu =>
    refine choices_rebuild hu fun v hv w hw => (hself _ _ _ _ hw).2 (ht.under ?_)
    rwa [skeleton_eq hc]

end Fixed
end Substitute
end TypeCalculus

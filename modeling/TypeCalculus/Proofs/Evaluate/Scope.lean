import TypeCalculus.Proofs.Substitute.Idempotent
import TypeCalculus.Proofs.Evaluate.Settled

/-! Scopes that survive rewriting. A name of a placeholder is bound in the true branch of a conditional as long as the
    bound declares it, and the bound is rewritten before the branch is. A type is scoped if each of its parameters is
    `known`, or is bound in such a way that it is replaced before its placeholder can get lost (`Scoped`). Substitution
    keeps scopes (`scoped_run`). -/

namespace TypeCalculus.Evaluate
open Ty (Normal Tidy TidyNode Built Inherited Lasts Free Names isInferOf)
open Substitute (Replaced)

/-! ### Names that stay declared -/

/-- References to names that are not declared stay references. -/
def Env.still (env : Env) : Option String → Bool
  | none => false
  | some name => !env.decls.declares name

/-- Neither evaluation nor substitution changes the type. -/
structure Inert (env : Env) (t : Ty) : Prop where
  irreducible : isReducible env t = false
  unbound : t.occurs Ty.isParam = false

/-- The names that are sure to be bound where the bound of a conditional declares names: those whose placeholders
    last, and besides an inert bound all of its names and those bound outside. -/
def Held (env : Env) (bound : Ty) (later : String → Prop) (x : String) : Prop :=
  Lasts env.still (isInferOf x) bound ∨ Inert env bound ∧ (x ∈ bound.inferNames ∨ later x)

/-- Every parameter is known, is replaced `now`, by the substitution at hand, or is replaced `later`, when a conditional
    around the type is resolved. -/
inductive Scoped (env : Env) (known : String → Prop) : (now later : String → Prop) → Ty → Prop
  | param {now later : String → Prop} {name : String} {constraint default : Ty} :
    known name ∨ now name ∨ later name → Scoped env known now later (.param name constraint default)
  | conditional {now later : String → Prop} {check bound yes no : Ty} {distribute : Bool} :
    Scoped env known now later check → Scoped env known now later bound → Scoped env known now later no →
      Scoped env known (fun x => now x ∧ x ∉ bound.inferNames) (Held env bound later) yes →
      Scoped env known now later (.conditional check bound yes no distribute)
  | node {now later : String → Prop} {t : Ty} : t.isParam = false → t.isConditional = false → TidyNode t →
      (∀ u ∈ t.parts, Scoped env known now later u) → Scoped env known now later t

/-- Every parameter is known or bound to stay so. -/
abbrev Closed (env : Env) (known : String → Prop) : Ty → Prop := Scoped env known (fun _ => False) fun _ => False

section Scoped
variable {env : Env} {known known' now now' later later' : String → Prop} {t u : Ty}

theorem scoped_param {name : String} {constraint default : Ty} :
    Scoped env known now later (.param name constraint default) ↔ known name ∨ now name ∨ later name := by
  constructor
  · intro h
    cases h with
    | param h => exact h
    | node hp => cases hp
  · exact .param

theorem scoped_conditional {check bound yes no : Ty} {distribute : Bool} :
    Scoped env known now later (.conditional check bound yes no distribute) ↔
      Scoped env known now later check ∧ Scoped env known now later bound ∧ Scoped env known now later no ∧
        Scoped env known (fun x => now x ∧ x ∉ bound.inferNames) (Held env bound later) yes := by
  constructor
  · intro h
    cases h with
    | conditional hc hb hn hy => exact ⟨hc, hb, hn, hy⟩
    | node _ hc => cases hc
  · rintro ⟨hc, hb, hn, hy⟩
    exact .conditional hc hb hn hy

theorem Scoped.part (h : Scoped env known now later t) (hc : t.isConditional = false) (hu : u ∈ t.parts) :
    Scoped env known now later u := by
  cases h with
  | param => cases hu
  | conditional => cases hc
  | node _ _ _ hparts => exact hparts u hu

theorem Scoped.tidy (h : Scoped env known now later t) : Tidy t := by
  induction h with
  | param => exact ⟨Ty.tidyNode_of_pending (.inl rfl), nofun⟩
  | conditional _ _ _ _ hc hb hn hy =>
    refine ⟨Ty.tidyNode_of_pending (.inl rfl), ?_⟩
    simp only [Ty.parts, List.forall_mem_cons]
    exact ⟨hc, hb, hy, hn, nofun⟩
  | node _ _ ht _ ih => exact ⟨ht, ih⟩

/-- What is replaced later may be known, or replaced now. -/
theorem Scoped.imp (h : Scoped env known now later t) (hk : ∀ x, known x → known' x)
    (hn : ∀ x, now x → known' x ∨ now' x) (hl : ∀ x, later x → known' x ∨ now' x ∨ later' x) :
    Scoped env known' now' later' t := by
  induction h generalizing now' later' with
  | param h =>
    refine .param ?_
    rcases h with h | h | h
    · exact .inl (hk _ h)
    · exact (hn _ h).imp_right .inl
    · exact hl _ h
  | @conditional now later check bound yes no distribute _ _ _ _ ihc ihb ihn ihy =>
    refine .conditional (ihc hn hl) (ihb hn hl) (ihn hn hl) (ihy (fun x hx => ?_) fun x hx => ?_)
    · exact (hn x hx.1).imp_right fun h => ⟨h, hx.2⟩
    · rcases hx with hx | ⟨hi, hx | hx⟩
      · exact .inr (.inr (.inl hx))
      · exact .inr (.inr (.inr ⟨hi, .inl hx⟩))
      · by_cases declared : x ∈ bound.inferNames
        · exact .inr (.inr (.inr ⟨hi, .inl declared⟩))
        · exact (hl x hx).imp_right fun h => h.imp (⟨·, declared⟩) fun h => .inr ⟨hi, .inr h⟩
  | node hp hc ht _ ih => exact .node hp hc ht fun u hu => ih u hu hn hl

theorem inherited_scoped : Inherited (Scoped env known now later) := by
  have structural : ∀ {t : Ty}, t.isStructural = true → t.isParam = false ∧ t.isConditional = false :=
    fun ht => ⟨Substitute.isParam_of_structural ht, Substitute.isConditional_of_structural ht⟩
  refine ⟨fun ht h hu => h.part (structural ht).2 hu,
    fun ht h => .node (structural ht).1 (structural ht).2 (Ty.tidyNode_of_structural ht) h, fun h hm => h.part rfl hm,
    fun hm ha => .node rfl rfl ⟨?_, nofun⟩ hm, fun h hm => h.part rfl hm, fun hm hc => .node rfl rfl ⟨nofun, ?_⟩ hm⟩
  · rintro _ ⟨⟩
    exact ha
  · rintro _ ⟨⟩
    exact hc

theorem Held.mem_or {bound : Ty} {x : String} (h : Held env bound later x) : x ∈ bound.inferNames ∨ later x := by
  rcases h with h | ⟨-, h⟩
  · exact .inl h.mem_inferNames
  · exact h

/-- Only known names are free, and those to be replaced. -/
theorem Scoped.free (h : Scoped env known now later t) {x : String} (hf : Free x t) : known x ∨ now x ∨ later x := by
  induction h with
  | param h => exact Ty.free_param.1 hf ▸ h
  | conditional _ _ _ _ ihc ihb ihn ihy =>
    rcases Ty.free_conditional.1 hf with hf | hf | hf | ⟨hx, hf⟩
    · exact ihc hf
    · exact ihb hf
    · exact ihn hf
    · exact (ihy hf).imp_right fun h => h.imp And.left fun h => h.mem_or.resolve_left hx
  | node hp hc _ _ ih =>
    obtain ⟨u, hu, hf⟩ := (Ty.free_iff hp hc).1 hf
    exact ih u hu hf

/-- Names that do not occur need not be replaced. -/
theorem Scoped.unmentioned (h : Scoped env known now later t) (hn : ∀ x, now x → t.occurs (Ty.isParamOf x) = false) :
    Scoped env known (fun _ => False) later t := by
  have none : ∀ {t u : Ty} {x}, t.occurs (Ty.isParamOf x) = false → u ∈ t.parts → u.occurs (Ty.isParamOf x) = false := by
    intro t u x ht hu
    rw [Bool.eq_false_iff] at ht ⊢
    exact fun ho => ht (Ty.occurs_of_part rfl hu ho)
  induction h with
  | @param now later name c d h =>
    refine .param (h.imp_right fun h => h.elim (fun h => ?_) .inr)
    have := hn name h
    simp [Ty.occurs, Ty.isParamOf] at this
  | conditional _ _ _ _ ihc ihb ihn ihy =>
    refine .conditional (ihc fun x hx => none (hn x hx) (by simp [Ty.parts])) (ihb fun x hx => none (hn x hx) (by simp [Ty.parts]))
      (ihn fun x hx => none (hn x hx) (by simp [Ty.parts])) ?_
    exact (ihy fun x hx => none (hn x hx.1) (by simp [Ty.parts])).imp (fun _ h => h) (fun _ h => h.elim) fun _ h => .inr (.inr h)
  | node hp hc ht _ ih => exact .node hp hc ht fun u hu => ih u hu fun x hx => none (hn x hx) hu

/-- A type whose parameters are all known is scoped. -/
theorem scoped_of_named (h : Substitute.Named known t) (ht : Tidy t) : Scoped env known now later t := by
  induction ht generalizing now later with
  | @mk t hnode hparts ih =>
    have part : ∀ {now later}, ∀ u ∈ t.parts, Scoped env known now later u := fun u hu => ih u hu (h.under hu)
    cases t with
    | param name c d => exact .param (.inl (Substitute.named_param.1 h))
    | conditional check bound yes no distribute =>
      exact .conditional (part check (by simp [Ty.parts])) (part bound (by simp [Ty.parts])) (part no (by simp [Ty.parts]))
        (part yes (by simp [Ty.parts]))
    | _ => exact .node rfl rfl hnode part

/-- A type is scoped if its parameters are known or replaced now, and no placeholder is named like those. -/
theorem scoped_of_replaced (h : Substitute.Named (fun x => known x ∨ now x) t) (hi : ∀ x ∈ t.inferNames, ¬now x) (ht : Tidy t) :
    Scoped env known now later t := by
  induction ht generalizing now later with
  | @mk t hnode _ ih =>
    have declared : ∀ u ∈ t.parts, ∀ x ∈ u.inferNames, ¬now x := fun u hu x hx =>
      hi x (Ty.mem_inferNames.2 (Ty.occurs_of_part rfl hu (Ty.mem_inferNames.1 hx)))
    have part : ∀ {later}, ∀ u ∈ t.parts, Scoped env known now later u := fun u hu => ih u hu (h.under hu) (declared u hu)
    cases t with
    | param name c d => exact .param ((Substitute.named_param.1 h).imp_right .inl)
    | conditional check bound yes no distribute =>
      have hy : yes ∈ (Ty.conditional check bound yes no distribute).parts := by simp [Ty.parts]
      refine .conditional (part check (by simp [Ty.parts])) (part bound (by simp [Ty.parts])) (part no (by simp [Ty.parts])) ?_
      have shadowed : ∀ x, now x → x ∉ bound.inferNames := fun x hn hb => declared bound (by simp [Ty.parts]) x hb hn
      refine ih yes hy (Substitute.Named.imp (h.under hy) fun x hx => hx.imp_right fun hn => ⟨hn, shadowed x hn⟩) ?_
      exact fun x hx hn => declared yes hy x hx hn.1
    | _ => exact .node rfl rfl hnode part

/-! ### Annotations do not matter -/

theorem tidyNode_annotated (α : Ty.Annotation) {t : Ty} : TidyNode (t.annotated α) ↔ TidyNode t := by
  cases t with
  | union ms =>
    constructor
    · intro h
      refine ⟨?_, nofun⟩
      rintro _ ⟨⟩
      exact fun ha => h.union _ rfl ((Ty.absent_mem_annotatedAll α).2 ha)
    · intro h
      refine ⟨?_, nofun⟩
      rintro _ ⟨⟩
      exact fun ha => h.union _ rfl ((Ty.absent_mem_annotatedAll α).1 ha)
  | intersection ms =>
    constructor
    · intro h
      refine ⟨nofun, ?_⟩
      rintro _ ⟨⟩
      exact (Ty.met_annotated α).1 (h.meet _ rfl)
    · intro h
      refine ⟨nofun, ?_⟩
      rintro _ ⟨⟩
      exact (Ty.met_annotated α).2 (h.meet _ rfl)
  | _ => exact ⟨fun _ => ⟨nofun, nofun⟩, fun _ => ⟨nofun, nofun⟩⟩

theorem held_annotated (α : Ty.Annotation) {bound : Ty} : Held env (bound.annotated α) later = Held env bound later := by
  have inert : Inert env (bound.annotated α) ↔ Inert env bound := by
    have params := Ty.occurs_annotated α (p := Ty.isParam) rfl (fun u => by cases u <;> rfl) bound
    constructor
    · exact fun h => ⟨isReducible_annotated α bound ▸ h.irreducible, params ▸ h.unbound⟩
    · exact fun h => ⟨(isReducible_annotated α bound).trans h.irreducible, params.trans h.unbound⟩
  funext x
  unfold Held
  have lasts : Lasts env.still (isInferOf x) (bound.annotated α) ↔ Lasts env.still (isInferOf x) bound :=
    ⟨Lasts.of_annotated (Ty.names_isInferOf x) α, Lasts.annotated (Ty.names_isInferOf x) α⟩
  rw [lasts, inert, Ty.inferNames_annotated]

theorem scoped_annotated (α : Ty.Annotation) : Scoped env known now later (t.annotated α) ↔ Scoped env known now later t := by
  induction t using Ty.parts_induction generalizing now later with
  | step t part =>
    cases hp : t.isParam with
    | true =>
      cases t with
      | param name c d => exact scoped_param.trans scoped_param.symm
      | _ => cases hp
    | false =>
      cases hc : t.isConditional with
      | true =>
        cases t with
        | conditional check bound yes no distribute =>
          rw [Ty.annotated, scoped_conditional, scoped_conditional, held_annotated, Ty.inferNames_annotated,
            part check (by simp [Ty.parts]), part bound (by simp [Ty.parts]), part yes (by simp [Ty.parts]),
            part no (by simp [Ty.parts])]
        | _ => cases hc
      | false =>
        have hp' := (Substitute.isParam_of_kind (Ty.kind?_annotated α t)).trans hp
        have hc' := (Substitute.isConditional_of_kind (Ty.kind?_annotated α t)).trans hc
        constructor
        · intro h
          refine .node hp hc ((tidyNode_annotated α).1 h.tidy.node) fun u hu => (part u hu).1 (h.part hc' ?_)
          rw [Ty.parts_annotated]
          exact List.mem_map_of_mem hu
        · intro h
          refine .node hp' hc' ((tidyNode_annotated α).2 h.tidy.node) fun v hv => ?_
          rw [Ty.parts_annotated] at hv
          obtain ⟨u, hu, rfl⟩ := List.mem_map.1 hv
          exact (part u hu).2 (h.part hc hu)

theorem Scoped.of_identical (h : Scoped env known now later t) (hi : t.identical u = true) : Scoped env known now later u := by
  have erased := (scoped_annotated Ty.bare).2 h
  rw [show t.annotated Ty.bare = u.annotated Ty.bare from (Ty.identical_iff t u).1 hi] at erased
  exact (scoped_annotated Ty.bare).1 erased

end Scoped

/-! ### Substitution -/

section Substitution
variable {env : Env} {known now later : String → Prop}

theorem Inert.cleared {t : Ty} (h : Inert env t) (s : Subst) (opened : List String) : Substitute.Cleared s opened t := by
  intro n _ hf
  have := hf.occurs (p := Ty.isParam) rfl fun _ _ => rfl
  rw [h.unbound] at this
  cases this

/-- A bound goes on holding names if what lasts in it lasts, and if it stays as it is where it is inert. -/
theorem Held.imp {bound bound' : Ty} {x : String} (h : Held env bound later x)
    (lasts : Lasts env.still (isInferOf x) bound → Lasts env.still (isInferOf x) bound')
    (inert : Inert env bound → bound' = bound) : Held env bound' later x := by
  rcases h with h | ⟨hi, h⟩
  · exact .inl (lasts h)
  · cases inert hi
    exact .inr ⟨hi, h⟩

/-- Substitution of closed types keeps scopes. What is to be replaced now is replaced. -/
theorem scoped_run {chain : Bool} {s : Subst} {opened : List String} {t u : Ty}
    (h : Substitute.run chain s opened t = some u) :
    s.Forall Normal → Normal t → s.Forall (Closed env known) → ∀ now later, (∀ n, now n → Replaced s opened n) →
      Scoped env known now later t → Scoped env known (fun _ => False) later u := by
  refine Substitute.run_induction (motive := fun s opened t u => s.Forall Normal → Normal t → s.Forall (Closed env known) →
      ∀ now later, (∀ n, now n → Replaced s opened n) → Scoped env known now later t →
        Scoped env known (fun _ => False) later u)
    (fun self hself s opened t u hstep hs ht hcs now later hnow hsc => ?_) h
  have closed : ∀ {t : Ty} {later}, Closed env known t → Scoped env known (fun _ => False) later t :=
    fun h => h.imp (fun _ h => h) nofun nofun
  cases hstep with
  | @kept _ name c d hr =>
    rcases scoped_param.1 hsc with h | h | h
    · exact .param (.inl h)
    · exact absurd (hnow name h) hr
    · exact .param (.inr (.inr h))
  | @replaced name c d t u hr hf hu =>
    exact closed ((hself _ _ _ _ hu).2 hs (hs.find? hf) hcs (fun _ => False) (fun _ => False) nofun (hcs.find? hf))
  | taken hr hf => exact closed (hcs.find? hf)
  | @split _ distribute check bound yes no name members us hsplit hus =>
    obtain ⟨rfl, c, d, r, rfl, hr, hself', ha⟩ := Substitute.splits?_eq_some hsplit
    obtain ⟨hrun, ih⟩ := hself _ _ _ _ hself'
    obtain ⟨-, nc, -⟩ := Ty.normal_conditional.1 ht
    -- The checked parameter is replaced, whatever its name stands for here.
    have rclosed : Closed env known r := by
      refine ih hs nc hcs (· = name) (fun _ => False) ?_ (.param (.inr (.inl rfl)))
      rintro _ rfl
      exact hr
    have rnormal : Normal r := Ty.carried_normal.run hs nc hrun
    refine inherited_scoped.unionOf (Results.option.mapM (fun m hm v hv => ?_) us hus)
    have present : m ≠ .absent := Substitute.alternatives_present rclosed.tidy.node.union ha m hm
    refine (hself _ _ _ _ hv).2 (hs.insert name (Ty.carried_normal.alternatives rnormal ha m hm)) ht
      (hcs.insert name (Substitute.Inherited.alternatives inherited_scoped rclosed ha m hm)) now later (fun n hn => ?_) hsc
    exact hr.insert present (hnow n hn)
  | @whole _ distribute check bound yes no check' bound' yes' no' _ hc hb hy hn =>
    obtain ⟨-, nc, nb, ny, nn⟩ := Ty.normal_conditional.1 ht
    obtain ⟨sc, sb, sn, sy⟩ := scoped_conditional.1 hsc
    have hrun := (hself _ _ _ _ hb).1
    have branch := (hself _ _ _ _ hy).2 (hs.without _) ny (hcs.without _) _ _
      (fun n hn => Substitute.replaced_without.2 ⟨hn.2, hnow n hn.1⟩) sy
    refine .conditional ((hself _ _ _ _ hc).2 hs nc hcs now later hnow sc) ((hself _ _ _ _ hb).2 hs nb hcs now later hnow sb)
      ((hself _ _ _ _ hn).2 hs nn hcs now later hnow sn) (branch.imp (fun _ h => h) nofun fun x hx => .inr (.inr ?_))
    refine hx.imp (Substitute.survives_run hrun hs nb).lasts fun hi => ?_
    exact Option.some.inj (hrun.symm.trans (Substitute.run_cleared ⟨nb, sb.tidy⟩ (hi.cleared s opened)))
  | rebuilt hp hc hu =>
    refine inherited_scoped.rebuild Results.option hp hc (fun {v} hk hv hpend => ?_) (fun v hv w hw => ?_) u hu
    · exact .node ((Substitute.isParam_of_kind hk).trans hp) ((Substitute.isConditional_of_kind hk).trans hc)
        (Ty.tidyNode_of_pending hpend) hv
    · refine (hself _ _ _ _ hw).2 hs (ht.child ?_) hcs now later hnow (hsc.part hc hv)
      cases t with
      | param => cases hp
      | _ => exact hv

theorem closed_substitute {t : Ty} {s : Subst} (ht : Normal t) (hs : s.Forall Normal) (hcs : s.Forall (Closed env known))
    (hc : Closed env known t) : Closed env known (t.substitute s) := by
  unfold Ty.substitute
  split
  · cases h : Substitute.run true s [] t with
    | none => exact hc
    | some u => exact scoped_run h hs ht hcs _ _ nofun hc
  · exact hc

/-- Simultaneous substitution leaves nothing of the names that it replaces. -/
theorem closed_substituteOnce {t : Ty} {s : Subst} (ht : Normal t) (hs : s.Forall Normal) (hcs : s.Forall (Closed env known))
    (hnow : ∀ n, now n → Replaced s [] n) (hsc : Scoped env known now (fun _ => False) t) :
    Closed env known (t.substituteOnce s) := by
  unfold Ty.substituteOnce
  split
  · obtain ⟨u, hu⟩ := Substitute.once_ends s [] t
    rw [hu]
    exact scoped_run hu hs ht hcs _ _ hnow hsc
  · rename_i hm
    refine hsc.unmentioned fun x hx => Bool.eq_false_iff.2 fun ho => hm ?_
    obtain ⟨-, v, hv, -⟩ := hnow x hx
    refine Ty.occurs_imp rfl rfl (fun u hu => ?_) ho
    cases u with
    | param name c d =>
      cases beq_iff_eq.1 hu
      exact Option.isSome_iff_exists.2 ⟨v, hv⟩
    | _ => cases hu

end Substitution
end TypeCalculus.Evaluate

import TypeCalculus.Proofs.Evaluate.Scope

/-! Evaluation keeps scopes. Bounds go on declaring what lasts in them (`survives_reduce`), so the names that a true
    branch relies on are replaced when its conditional is resolved. What they are replaced by has no parameters at all:
    the operands of a comparison are evaluated and have no free ones, and such types hold no conditionals
    (`unbound_of_closed`). -/

namespace TypeCalculus.Evaluate
open Ty (Normal Tidy Inherited Carried Operated Free Survives isInferOf)
open Substitute (Replaced Named)

/-! ### Bounds -/

section Survives
variable {env : Env} {x : String}

theorem survives_expand {self : Ty → Evaluating Ty} {name : String} {args : List Ty}
    (hself : ∀ t ∈ args, Yields (Survives env.still (isInferOf x) t) (self t)) :
    Yields (Survives env.still (isInferOf x) (.reference name args)) (expand env self name args) := by
  unfold expand
  cases hd : env.decls.find? name with
  | some decl =>
    have declared : env.still (some name) = false := by simp [Env.still, Declarations.declares, hd]
    intro _ u _
    exact @Ty.survives_of_loose env.still _ (.reference name args) rfl declared declared rfl u
  | none =>
    have undeclared : env.still (some name) = true := by simp [Env.still, Declarations.declares, hd]
    refine Results.evaluating.bind (Results.evaluating.mapM_forall₂ hself) fun us hus => Results.evaluating.pure ?_
    refine Ty.survives_of_parts (fun h => by cases h) undeclared undeclared (fun h => by cases h) fun v hv hlast => ?_
    obtain ⟨w, hw, hvw⟩ := Ty.partner hus hv
    exact ⟨w, hw, hvw.lasts hlast⟩

/-- Placeholders that last stand in the result of an evaluation. -/
theorem survives_reduce (room : Nat) {t : Ty} (ht : Normal t) :
    Yields (Survives env.still (isInferOf x) t) (reduce env room t) := by
  induction room generalizing t with
  | zero =>
    rw [reduce]
    split
    · exact yields_throw _
    · exact Results.evaluating.pure (Ty.survives_refl _ _ _)
  | succ room ih =>
    rw [reduce]
    split
    · refine Yields.nested ?_
      have rebuilt : t.isParam = false → t.isConditional = false →
          Yields (Survives env.still (isInferOf x) t) (t.rebuild (reduce env room)) := by
        intro hp hc
        refine Ty.survives_rebuild (Ty.names_isInferOf x) Results.evaluating ht.form hp hc fun u hu => ih (ht.child ?_)
        cases t with
        | param => cases hp
        | _ => exact hu
      cases t with
      | conditional check bound yes no distribute =>
        cases distribute <;> exact fun _ u _ => Ty.survives_of_loose rfl rfl rfl rfl u
      | keyOf | access | mapping => exact fun _ u _ => Ty.survives_of_loose rfl rfl rfl rfl u
      | reference name args => exact survives_expand fun u hu => ih (ht.child hu)
      | param => exact Results.evaluating.pure (Ty.survives_refl _ _ _)
      | _ => exact rebuilt rfl rfl
    · exact Results.evaluating.pure (Ty.survives_refl _ _ _)

/-- An evaluated bound holds the names that it held before. -/
theorem held_reduce {room : Nat} {t : Ty} (ht : Normal t) :
    Yields (fun u => ∀ x, Held env t (fun _ => False) x → Held env u (fun _ => False) x) (reduce env room t) := by
  intro r u hu x hx
  refine hx.imp (survives_reduce room ht r u hu).lasts fun hi => ?_
  rw [reduce_irreducible hi.irreducible] at hu
  cases hu
  rfl

end Survives

/-! ### Operands of comparisons -/

/-- The type has no parameters, bound or free, and its unions and intersections are as constructors make them. -/
structure Unbound (t : Ty) : Prop where
  named : Named (fun _ => False) t
  tidy : Tidy t

theorem Unbound.part {t u : Ty} (h : Unbound t) (hu : u ∈ t.parts) : Unbound u := ⟨h.named.under hu, h.tidy.under hu⟩

theorem unbound_node {t : Ty} (hp : t.isParam = false) (hn : Ty.TidyNode t) (h : ∀ u ∈ t.parts, Unbound u) : Unbound t := by
  refine ⟨⟨fun n hn => ?_, fun u hu => (h u hu).named⟩, hn, fun u hu => (h u hu).tidy⟩
  rw [Substitute.isParamOf_eq_false hp] at hn
  cases hn

theorem inherited_unbound : Inherited Unbound := by
  refine ⟨fun _ h hu => h.part hu, fun ht h => ?_, fun h hm => h.part hm, fun hm ha => unbound_node rfl ⟨?_, nofun⟩ hm,
    fun h hm => h.part hm, fun hm hc => unbound_node rfl ⟨nofun, ?_⟩ hm⟩
  · exact unbound_node (Substitute.isParam_of_structural ht) (Ty.tidyNode_of_structural ht) h
  · rintro _ ⟨⟩
    exact ha
  · rintro _ ⟨⟩
    exact hc

theorem carried_unbound : Carried Unbound where
  absent := inherited_unbound.leaf rfl rfl
  atom {t} ht := by
    cases t with
    | any | unknown | void | never | prim | literal => exact inherited_unbound.leaf rfl rfl
    | _ => cases ht
  child {t u} h hu := by
    cases t with
    | param name => exact (Substitute.named_param.1 h.named).elim
    | _ => exact h.part hu
  plain {t} ht h := by
    cases t with
    | array | tuple | function => exact inherited_unbound.build rfl h
    | infer | keyOf | access | mapping => exact unbound_node rfl (Ty.tidyNode_of_pending (.inl rfl)) h
    | reference => exact unbound_node rfl (Ty.tidyNode_of_pending (.inr rfl)) h
    | _ => cases ht
  conditional _ hc hb hy hn := by
    refine unbound_node rfl (Ty.tidyNode_of_pending (.inl rfl)) ?_
    simp only [Ty.parts, List.forall_mem_cons]
    exact ⟨hc, hb, hy, hn, nofun⟩
  unionOf := inherited_unbound.unionOf
  meetOf := inherited_unbound.meetOf
  templateOf := inherited_unbound.templateOf
  ofProps := inherited_unbound.ofProps

/-- An evaluated type without free parameters has none at all, as a conditional in it would wait for one. -/
theorem unbound_of_closed {env : Env} {t : Ty} (hs : Settled env t) (ht : Tidy t) (hf : t.hasFreeParams = false) :
    Unbound t := by
  rw [Ty.hasFreeParams_eq_false] at hf
  induction hs with
  | @mk t hnode _ ih =>
    cases t with
    | param name => exact absurd .here (hf name)
    | conditional check bound yes no distribute =>
      rcases hnode with h | h
      · cases h
      · obtain hc | hb := Bool.or_eq_true_iff.1 h
        · rw [(Ty.hasFreeParams_eq_false (t := check)).2 fun x hx => hf x (.part (by simp [Ty.openParts]) hx)] at hc
          cases hc
        · rw [(Ty.hasFreeParams_eq_false (t := bound)).2 fun x hx => hf x (.part (by simp [Ty.openParts]) hx)] at hb
          cases hb
    | _ => exact unbound_node rfl ht.node fun u hu => ih u hu (ht.under hu) fun x hx => hf x (.part hu hx)

/-! ### One step -/

section Step
variable {env : Env} {known : String → Prop}

/-- What evaluation hands on: scopes, and the normal form they are read off. -/
structure Fit (env : Env) (known : String → Prop) (t : Ty) : Prop where
  normal : Normal t
  closed : Closed env known t

theorem fit_atom {t : Ty} (ht : t.isAtom = true) : Fit env known t := by
  refine ⟨Ty.carried_normal.atom ht, inherited_scoped.leaf ?_ ?_⟩ <;> cases t <;> first | rfl | cases ht

theorem fit_substituteOnce {t : Ty} {s : Subst} {now : String → Prop} (ht : Normal t) (hs : s.Forall (Fit env known))
    (hnow : ∀ n, now n → Replaced s [] n) (hsc : Scoped env known now (fun _ => False) t) :
    Fit env known (t.substituteOnce s) :=
  ⟨Ty.carried_normal.substituteOnce ht fun e he => (hs e he).normal,
    closed_substituteOnce ht (fun e he => (hs e he).normal) (fun e he => (hs e he).closed) hnow hsc⟩

theorem replaced_ofList {names : List String} {f : String → Ty} (hf : ∀ n, f n ≠ .absent) {n : String} (hn : n ∈ names) :
    Replaced (Subst.ofList (names.map fun n => (n, f n))) [] n := by
  have fold : ∀ s : Subst, ((names.map fun n => (n, f n)).foldl (fun s e => s.insert e.1 e.2) s).find? n =
      if n ∈ names then some (f n) else s.find? n := by
    clear hn
    induction names with
    | nil => simp
    | cons m names ih =>
      intro s
      rw [List.map_cons, List.foldl_cons, ih, Subst.find?_insert]
      grind
  refine ⟨List.not_mem_nil, f n, ?_, hf n⟩
  exact (fold Subst.empty).trans (if_pos hn)

section Resolve
variable {self : Ty → Evaluating Ty} (hself : ∀ {t}, Fit env known t → Yields (Fit env known) (self t))
include hself

/-- The true branch of a resolved conditional, where every name that its bound declares is replaced. -/
theorem fit_branch {bound yes : Ty} {f : String → Ty} (hf : ∀ n, Fit env known (f n) ∧ f n ≠ .absent) (ny : Normal yes)
    (hy : Scoped env known (fun _ => False) (Held env bound fun _ => False) yes) :
    Yields (Fit env known) (self (yes.substituteOnce (Subst.ofList (bound.inferNames.map fun n => (n, f n))))) := by
  have declared : Scoped env known (· ∈ bound.inferNames) (fun _ => False) yes :=
    hy.imp (fun _ h => h) nofun fun x hx => .inr (.inl (hx.mem_or.resolve_right nofun))
  refine hself (fit_substituteOnce ny (Subst.forall_ofList fun e he => ?_)
    (fun n hn => replaced_ofList (fun n => (hf n).2) hn) declared)
  obtain ⟨n, -, rfl⟩ := List.mem_map.1 he
  exact (hf n).1

theorem fit_resolve {check bound yes no : Ty} {distribute : Bool} (hc : Fit env known check) (hb : Fit env known bound)
    (sc : Settled env check) (sb : Settled env bound) (ny : Normal yes)
    (hy : Scoped env known (fun _ => False) (Held env bound fun _ => False) yes) (hn : Fit env known no) :
    Yields (Fit env known) (resolve env self check bound yes no distribute) := by
  unfold resolve
  split
  · refine Results.evaluating.pure ⟨Ty.normal_conditional.2 ⟨fun h => (Bool.and_eq_true_iff.1 h).1, hc.normal, hb.normal, ny, hn.normal⟩, ?_⟩
    exact .conditional hc.closed hb.closed hn.closed (hy.imp (fun _ h => h) nofun fun _ h => .inr (.inr h))
  · rename_i hfree
    rw [Bool.not_eq_true, Bool.or_eq_false_iff] at hfree
    dsimp only
    split
    · refine Results.evaluating.bind (fit_branch hself (fun _ => ⟨fit_atom rfl, nofun⟩) ny hy) fun t ht => ?_
      refine Results.evaluating.bind (hself hn) fun u hu => Results.evaluating.pure ?_
      exact ⟨Ty.normal_unionOf_pair ht.normal hu.normal, inherited_scoped.unionOf_pair ht.closed hu.closed⟩
    · let o : Assignable.Options := { limit := env.limit }
      have captured : ∀ n, Fit env known (((Assignable.run o check bound).2.captures.find? n).getD .never) ∧
          ((Assignable.run o check bound).2.captures.find? n).getD .never ≠ .absent := by
        intro n
        have normal := Assignable.normal_captures o hc.normal hb.normal
        have unbound := Assignable.carried_captures carried_unbound o (unbound_of_closed sc hc.closed.tidy hfree.1)
          (unbound_of_closed sb hb.closed.tidy hfree.2)
        have present := Assignable.captures_present o check bound
        cases hf : (Assignable.run o check bound).2.captures.find? n with
        | none => exact ⟨fit_atom rfl, nofun⟩
        | some v =>
          have closed := unbound.find? hf
          exact ⟨⟨normal.find? hf, scoped_of_named (closed.named.imp nofun) closed.tidy⟩, present.find? hf⟩
      have captures : Yields (fun p : Bool × Subst => ∀ n, Fit env known ((p.2.find? n).getD .never) ∧
          (p.2.find? n).getD .never ≠ .absent) (compare o check bound) :=
        Yields.after fun _ => Results.evaluating.pure captured
      refine Results.evaluating.bind captures fun p hp => Yields.after fun _ => Yields.after fun _ => ?_
      split
      · exact fit_branch hself hp ny hy
      · exact hself hn

omit hself in
/-- Without inference sites, a parameter is bound to its argument or to what is written beside it. -/
theorem yields_instantiate_alone {Q : Ty → Prop} {params : List ParamDecl} {args : List Ty} (hunknown : Q .unknown)
    (hdefault : ∀ p ∈ params, ∀ s : Subst, s.Forall Q → Yields Q (self (p.default.substituteOnce s)))
    (hconstraint : ∀ p ∈ params, ∀ s : Subst, s.Forall Q → Yields Q (self (p.constraint.substituteOnce s)))
    (ha : ∀ t ∈ args, Q t) : Yields (fun s => s.Forall Q) (instantiate env self params args []) := by
  have binding : ∀ {p} {s : Subst} {arg : Ty}, p ∈ params → s.Forall Q → (arg.isAbsent = false → Q arg) →
      Yields Q (bindingOf env self params [] s p arg) := by
    intro p s arg hp hs harg
    unfold bindingOf
    split
    · rename_i hpresent
      exact Yields.after fun _ => Results.evaluating.pure (harg (by simpa using hpresent))
    · split
      · exact hdefault p hp s hs
      · rw [show inferred? env p.name params [] s = pure none from rfl, pure_bind]
        dsimp only
        split
        · exact Results.evaluating.pure hunknown
        · exact hconstraint p hp s hs
  have all : ∀ {ps : List ParamDecl} {s : Subst} {args : List Ty}, (∀ p ∈ ps, p ∈ params) → s.Forall Q → (∀ t ∈ args, Q t) →
      Yields (fun s => s.Forall Q) (bindAll env self params [] s ps args) := by
    intro ps
    induction ps with
    | nil => exact fun _ hs _ => Results.evaluating.pure hs
    | cons p ps ih =>
      intro s args hps hs hargs
      rw [bindAll]
      refine Results.evaluating.bind (binding (hps p List.mem_cons_self) hs fun hpresent => ?_) fun t ht => ?_
      · cases args with
        | nil => cases hpresent
        | cons t ts => exact hargs t List.mem_cons_self
      · exact ih (fun q hq => hps q (List.mem_cons_of_mem _ hq)) (hs.insert p.name ht) fun u hu => hargs u (List.mem_of_mem_tail hu)
  unfold instantiate
  split
  · exact yields_throw _
  · exact all (fun _ hp => hp) Subst.forall_empty ha

/-- The parameters that are bound to a type in every case: what may be taken for a missing argument is inert. -/
def Bound (env : Env) (params : List ParamDecl) (n : String) : Prop :=
  (∃ p ∈ params, p.name = n) ∧ ∀ p ∈ params, p.name = n → Inert env p.constraint ∧ Inert env p.default

omit hself in
theorem Inert.substituteOnce {t : Ty} (h : Inert env t) (s : Subst) : t.substituteOnce s = t := by
  rw [Ty.substituteOnce, if_neg]
  intro hm
  have param : t.occurs Ty.isParam = true := Ty.occurs_imp rfl rfl (fun u hu => by cases u <;> first | rfl | cases hu) hm
  rw [h.unbound] at param
  cases param

section Irreducible
omit hself
variable (hi : ∀ {t}, isReducible env t = false → self t = pure t) {params : List ParamDecl}
include hi

theorem yields_inert {t : Ty} {s : Subst} (ht : Inert env t) (hp : t.isAbsent = false) :
    Yields (· ≠ .absent) (self (t.substituteOnce s)) := by
  rw [ht.substituteOnce, hi ht.irreducible]
  exact Results.evaluating.pure fun he => Bool.eq_false_iff.1 hp (Substitute.isAbsent_iff.2 he)

/-- Where nothing is left to evaluate a type is found for the parameter. -/
theorem yields_bindingOf_present {p : ParamDecl} {s : Subst} {arg : Ty} (hc : Inert env p.constraint) (hd : Inert env p.default) :
    Yields (· ≠ .absent) (bindingOf env self params [] s p arg) := by
  unfold bindingOf
  split
  · rename_i hp
    exact Yields.after fun _ => Results.evaluating.pure fun he => by simp [he, Ty.isAbsent] at hp
  · split
    · rename_i hp
      exact yields_inert hi hd (by simpa using hp)
    · rw [show inferred? env p.name params [] s = pure none from rfl, pure_bind]
      dsimp only
      split
      · exact Results.evaluating.pure fun h => by cases h
      · rename_i hp
        exact yields_inert hi hc (by simpa using hp)

theorem yields_bindAll_replaced {ps : List ParamDecl} {s : Subst} {args : List Ty} {n : String}
    (hps : ∀ p ∈ ps, p.name = n → Inert env p.constraint ∧ Inert env p.default)
    (h : (∃ p ∈ ps, p.name = n) ∨ Replaced s [] n) : Yields (fun s => Replaced s [] n) (bindAll env self params [] s ps args) := by
  induction ps generalizing s args with
  | nil =>
    refine Results.evaluating.pure (h.resolve_left fun found => ?_)
    obtain ⟨_, hq, -⟩ := found
    cases hq
  | cons p ps ih =>
    rw [bindAll]
    by_cases hn : p.name = n
    · obtain ⟨hc, hd⟩ := hps p List.mem_cons_self hn
      refine Results.evaluating.bind (yields_bindingOf_present hi hc hd) fun t ht => ?_
      refine ih (fun q hq => hps q (List.mem_cons_of_mem _ hq)) (.inr ⟨List.not_mem_nil, t, ?_, ht⟩)
      rw [← hn, Subst.find?_insert_self]
    · refine Yields.after fun t => ih (fun q hq => hps q (List.mem_cons_of_mem _ hq)) ?_
      rcases h with ⟨q, hq, hqn⟩ | ⟨-, v, hv, hp⟩
      · rcases List.mem_cons.1 hq with rfl | hq
        · exact absurd hqn hn
        · exact .inl ⟨q, hq, hqn⟩
      · refine .inr ⟨List.not_mem_nil, v, ?_, hp⟩
        rw [Subst.find?_insert_ne _ _ (Ne.symm hn)]
        exact hv

theorem yields_instantiate_bound {args : List Ty} :
    Yields (fun s => ∀ n, Bound env params n → Replaced s [] n) (instantiate env self params args []) := by
  intro r s h n hn
  unfold instantiate at h
  split at h
  · cases h
  · exact yields_bindAll_replaced hi hn.2 (.inl hn.1) r s h

end Irreducible

/-- What is declared keeps scopes: the parameters of a body are known or bound in every case. -/
def Declared (env : Env) (known : String → Prop) : Prop :=
  ∀ d ∈ env.decls.entries, (∀ p ∈ d.params, p.Forall (Fit env known)) ∧ Normal d.body ∧
    Scoped env known (Bound env d.params) (fun _ => False) d.body

omit hself in
theorem declared_of_fit (hd : env.decls.Forall (Fit env known)) : Declared env known := fun d h =>
  ⟨(hd d h).params, (hd d h).body.normal, (hd d h).body.closed.imp (fun _ h => h) nofun nofun⟩

theorem fit_expand (hi : ∀ {t}, isReducible env t = false → self t = pure t) {name : String} {args : List Ty}
    (hd : Declared env known) (ha : ∀ t ∈ args, Fit env known t) : Yields (Fit env known) (expand env self name args) := by
  have once : ∀ {t : Ty} {s : Subst}, Fit env known t → s.Forall (Fit env known) →
      Yields (Fit env known) (self (t.substituteOnce s)) :=
    fun ht hs => hself (fit_substituteOnce ht.normal hs nofun ht.closed)
  refine Results.evaluating.bind (Results.evaluating.mapM fun t ht => hself (ha t ht)) fun us hus => ?_
  split
  · refine Results.evaluating.pure ⟨Ty.carried_normal.plain rfl fun u hu => (hus u hu).normal, ?_⟩
    exact .node rfl rfl (Ty.tidyNode_of_pending (.inr rfl)) fun u hu => (hus u hu).closed
  · rename_i decl hf
    obtain ⟨hparams, hnormal, hbody⟩ := hd decl (List.mem_of_find?_eq_some hf)
    have bindings : Yields (fun s => s.Forall (Fit env known) ∧ ∀ n, Bound env decl.params n → Replaced s [] n)
        (instantiate env self decl.params us []) := fun r s h =>
      ⟨yields_instantiate_alone (fit_atom rfl) (fun p hp s hs => once (hparams p hp).2 hs)
        (fun p hp s hs => once (hparams p hp).1 hs) hus r s h, yields_instantiate_bound hi r s h⟩
    refine Results.evaluating.bind bindings fun s hs => Yields.after fun _ => ?_
    exact hself (fit_substituteOnce hnormal hs.1 hs.2 hbody)

end Resolve

theorem operated_closed : Operated (Closed env known) := by
  refine inherited_scoped.operated (fun _ h => .node rfl rfl (Ty.tidyNode_of_pending (.inl rfl)) fun u hu => ?_)
    (fun _ h => .node rfl rfl (Ty.tidyNode_of_pending (.inl rfl)) fun u hu => ?_)
    fun _ ht hi => .node rfl rfl (Ty.tidyNode_of_pending (.inl rfl)) fun u hu => ?_
  · exact List.mem_singleton.1 hu ▸ h
  · exact List.mem_singleton.1 hu ▸ h
  · rcases List.mem_cons.1 hu with rfl | hu
    · exact ht
    · exact List.mem_singleton.1 hu ▸ hi

theorem Fit.part {t u : Ty} (h : Fit env known t) (hc : t.isConditional = false) (hu : u ∈ t.parts) : Fit env known u := by
  refine ⟨h.normal.child ?_, h.closed.part hc hu⟩
  cases t with
  | param => cases hu
  | _ => exact hu

/-- Evaluation keeps scopes. -/
theorem fit_reduce (hd : Declared env known) (room : Nat) {t : Ty} (ht : Fit env known t) :
    Yields (Fit env known) (reduce env room t) := by
  have decls : env.decls.Normal := fun d hm =>
    ⟨fun p hp => ⟨((hd d hm).1 p hp).1.normal, ((hd d hm).1 p hp).2.normal⟩, (hd d hm).2.1⟩
  induction room generalizing t with
  | zero =>
    rw [reduce]
    split
    · exact yields_throw _
    · exact Results.evaluating.pure ht
  | succ room ih =>
    rw [reduce]
    split
    · refine Yields.nested ?_
      have stepped : Yields Normal (reduceStep env (reduce env room) t) :=
        yields_reduceStep (fun ht => yields_reduce decls room ht) decls ht.normal
      have rebuilt : t.isParam = false → t.isConditional = false → Yields (Closed env known) (t.rebuild (reduce env room)) := by
        intro hp hc
        refine inherited_scoped.rebuild Results.evaluating hp hc (fun hk hv hpend => ?_) fun u hu r v hv =>
          (ih (ht.part hc hu) r v hv).closed
        exact .node ((Substitute.isParam_of_kind hk).trans hp) ((Substitute.isConditional_of_kind hk).trans hc)
          (Ty.tidyNode_of_pending hpend) hv
      cases t with
      | conditional check bound yes no distribute =>
        obtain ⟨-, nc, nb, ny, nn⟩ := Ty.normal_conditional.1 ht.normal
        obtain ⟨cc, cb, cn, cy⟩ := scoped_conditional.1 ht.closed
        refine Yields.holding ?_ env _ _ _
        have checked : Yields (fun c => Fit env known c ∧ Settled env c) (reduce env room check) :=
          fun r c hc => ⟨ih ⟨nc, cc⟩ r c hc, settled_reduce room check r c hc⟩
        have bounded : Yields (fun b => Fit env known b ∧ Settled env b ∧
            ∀ x, Held env bound (fun _ => False) x → Held env b (fun _ => False) x) (reduce env room bound) :=
          fun r b hb => ⟨ih ⟨nb, cb⟩ r b hb, settled_reduce room bound r b hb, held_reduce nb r b hb⟩
        refine Results.evaluating.bind checked fun c hc => Results.evaluating.bind bounded fun b hb => ?_
        exact fit_resolve ih hc.1 hb.1 hc.2 hb.2.1 ny (cy.imp (fun _ h => h) (fun _ h => absurd h.1 id) fun x hx => .inr (.inr (hb.2.2 x hx)))
          ⟨nn, cn⟩
      | reference name args => exact fit_expand ih (fun h => reduce_irreducible h room) hd fun u hu => ht.part rfl hu
      | keyOf target =>
        refine Results.evaluating.bind (ih (ht.part rfl List.mem_cons_self)) fun u hu => Results.evaluating.pure ?_
        exact ⟨Ty.carried_normal.operated.keysOf u hu.normal, operated_closed.keysOf u hu.closed⟩
      | access target index =>
        refine Results.evaluating.bind (ih (ht.part rfl List.mem_cons_self)) fun u hu => ?_
        refine Results.evaluating.bind (ih (ht.part rfl (List.mem_cons_of_mem _ List.mem_cons_self))) fun i hi => ?_
        refine yields_ofExcept fun v hv => ?_
        exact ⟨Ty.carried_normal.operated.indexed hu.normal hi.normal hv, operated_closed.indexed hu.closed hi.closed hv⟩
      | mapping op arg =>
        refine Results.evaluating.bind (ih (ht.part rfl List.mem_cons_self)) fun u hu => Results.evaluating.pure ?_
        exact ⟨Ty.carried_normal.operated.mapped op u hu.normal, operated_closed.mapped op u hu.closed⟩
      | param => exact Results.evaluating.pure ht
      | _ => exact fun r u hu => ⟨stepped r u hu, rebuilt rfl rfl r u hu⟩
    · exact Results.evaluating.pure ht

theorem fit_closeBindings (hd : Declared env known) {s : Subst} (hs : s.Forall (Fit env known))
    {entries : List (String × Ty)} (h : ∀ e ∈ entries, Fit env known e.2) :
    Yields (fun s => s.Forall (Fit env known)) (closeBindings env s entries) := by
  induction entries with
  | nil => exact Results.evaluating.pure Subst.forall_empty
  | cons e rest ih =>
    obtain ⟨name, t⟩ := e
    have hrest := ih fun e he => h e (List.mem_cons_of_mem _ he)
    have ht : Fit env known t := h (name, t) List.mem_cons_self
    rw [closeBindings]
    split
    · exact hrest
    · have substituted : Fit env known (t.substitute s) :=
        ⟨Ty.normal_substitute ht.normal fun e he => (hs e he).normal,
          closed_substitute ht.normal (fun e he => (hs e he).normal) (fun e he => (hs e he).closed) ht.closed⟩
      refine Results.evaluating.bind (fit_reduce hd _ substituted) fun u hu => ?_
      exact Results.evaluating.bind hrest fun s hs => Results.evaluating.pure (hs.insert name hu)

end Step
end TypeCalculus.Evaluate

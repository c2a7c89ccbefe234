import TypeCalculus.Proofs.Evaluate.Paired

/-! Evaluation gives types in normal form, under declarations whose bodies, constraints and defaults are in
    normal form: each step hands on what all constructors hand on. The induction is on how deep resolutions may
    nest. -/

namespace TypeCalculus

/-! ### Results of evaluations -/

/-- Results of a step of an evaluation, from whatever state it starts. -/
def Results.evaluating : Results Evaluate.Evaluating where
  All P x := ∀ r a, (x.run r).1 = .ok a → P a
  pure h r a e := by
    cases e
    exact h
  bind {_ _ _ _ x f} hx hf r b e := by
    change (ExceptT.bindCont f (x.run r).1 (x.run r).2).1 = .ok b at e
    cases hr : (x.run r).1 with
    | error =>
      rw [hr] at e
      cases e
    | ok a =>
      rw [hr] at e
      exact hf a (hx r a hr) _ b e

namespace Evaluate
open Ty (Carried)

variable {α : Type} {P : α → Prop}

/-- Every result of the step satisfies the property. -/
abbrev Yields (P : α → Prop) (x : Evaluating α) : Prop := Results.evaluating.All P x

theorem yields_true (x : Evaluating α) : Yields (fun _ => True) x := fun _ _ _ => trivial

/-- A step after one of whose result nothing is known. -/
theorem Yields.after {β : Type} {x : Evaluating β} {f : β → Evaluating α} (h : ∀ b, Yields P (f b)) :
    Yields P (x >>= f) :=
  Results.evaluating.bind (yields_true x) fun b _ => h b

theorem yields_throw (e : TypeError) : Yields P (throw e : Evaluating α) := nofun

theorem Yields.ending {x : Evaluating α} (h : Yields P x) (after : Resolution → Resolution) : Yields P (ending x after) :=
  fun r a e => h r a e

theorem Yields.reporting {x : Evaluating α} (h : Yields P x) (event : TypeError → Event) :
    Yields P (reporting event x) := by
  intro r a e
  refine h r a ?_
  dsimp only [Evaluate.reporting, ExceptT.run, ExceptT.mk, StateT.run] at e
  split at e
  · cases e
  · rename_i hr
    exact (congrArg (·.1) hr).trans e

theorem Yields.nested {x : Evaluating α} (h : Yields P x) : Yields P (nested x) := Yields.after fun _ => h.ending _

theorem Yields.holding {x : Evaluating α} (h : Yields P x) (env : Env) (c check bound : Ty) :
    Yields P (holding env c check bound x) := by
  refine Yields.after fun r => ?_
  split
  · exact Yields.after fun _ => h.ending _
  · split
    · exact yields_throw _
    · exact Yields.after fun _ => h.ending _

theorem yields_ofExcept {x : Except TypeError α} (h : ∀ a, x = .ok a → P a) : Yields P (ofExcept x) := by
  cases x with
  | error e => exact yields_throw e
  | ok a => exact Results.evaluating.pure (h a rfl)

/-- Of two evaluations only the first is spoken of. -/
def yielding {P : Ty → Prop} (C : Carried P) (env : Env) : Paired P env env where
  toLinked := Results.evaluating.linked
  throw _ := yields_throw _
  tell _ := yields_true _
  compare _ ha hb := Yields.after fun _ => Results.evaluating.pure (Assignable.carried_captures C _ ha hb)
  reporting event h := Yields.reporting h event

end Evaluate

/-! ### Declarations -/

/-- The constraint and the default of the parameter are in normal form. -/
def ParamDecl.Normal (p : ParamDecl) : Prop := p.constraint.Normal ∧ p.default.Normal

/-- The parameters and the body of the declaration are in normal form. -/
structure Declaration.Normal (d : Declaration) : Prop where
  params : ∀ p ∈ d.params, p.Normal
  body : d.body.Normal

/-- All declarations are in normal form. -/
def Declarations.Normal (ds : Declarations) : Prop := ∀ d ∈ ds.entries, d.Normal

theorem Declarations.mem_insert {ds : Declarations} {d e : Declaration} (h : e ∈ (ds.insert d).entries) :
    e = d ∨ e ∈ ds.entries := by
  have mem : ∀ {es : List Declaration} {e}, e ∈ insertEntry d es → e = d ∨ e ∈ es := by
    intro es
    induction es with
    | nil => exact fun h => Or.inl (List.mem_singleton.1 h)
    | cons f es ih =>
      intro e he
      rw [insertEntry] at he
      split at he
      · exact List.mem_cons.1 he
      · split at he
        · exact (List.mem_cons.1 he).imp_right (List.mem_cons_of_mem _)
        · rcases List.mem_cons.1 he with rfl | he
          · exact Or.inr List.mem_cons_self
          · exact (ih he).imp_right (List.mem_cons_of_mem _)
  exact mem h

theorem Declarations.Normal.insert {ds : Declarations} (h : ds.Normal) {d : Declaration} (hd : d.Normal) :
    (ds.insert d).Normal := by
  intro e he
  rcases Declarations.mem_insert he with rfl | he
  · exact hd
  · exact h e he

theorem Declarations.Normal.forall {ds : Declarations} (h : ds.Normal) : ds.Forall Ty.Normal :=
  fun d hd => ⟨(h d hd).params, (h d hd).body⟩

namespace Evaluate
open Ty (Normal)

theorem yields_instantiate {env : Env} {self : Ty → Evaluating Ty} (hself : ∀ {t}, Normal t → Yields Normal (self t))
    {params : List ParamDecl} {args : List Ty} {sites : List InferenceSite} (hp : ∀ p ∈ params, p.Normal)
    (ha : ∀ t ∈ args, Normal t) (hs : ∀ s ∈ sites, Normal s.usage ∧ Normal s.arg) :
    Yields (fun s => s.Forall Normal) (instantiate env self params args sites) :=
  @Paired.instantiate _ _ _ (yielding Ty.carried_normal env) Ty.carried_normal self self hself _ _ _ hp ha hs

theorem yields_reduceStep {env : Env} {self : Ty → Evaluating Ty} (hself : ∀ {t}, Normal t → Yields Normal (self t))
    {t : Ty} (hd : env.decls.Normal) (ht : Normal t) : Yields Normal (reduceStep env self t) :=
  @Paired.anyStep _ _ _ (yielding Ty.carried_normal env) Ty.carried_normal self self hself rfl hd.forall
    (fun c check bound h => Yields.holding h env c check bound) t ht

/-! ### Whole evaluations -/

theorem yields_reduce {env : Env} (hd : env.decls.Normal) (room : Nat) {t : Ty} (ht : Normal t) :
    Yields Normal (reduce env room t) :=
  (yielding Ty.carried_normal env).reduction Ty.carried_normal rfl hd.forall
    (fun c check bound h => Yields.holding h env c check bound) (fun _ => yields_throw _) Yields.nested room ht

theorem yields_closeBindings {env : Env} (hd : env.decls.Normal) {s : Subst} (hs : s.Forall Normal)
    {entries : List (String × Ty)} (h : ∀ e ∈ entries, Normal e.2) :
    Yields (fun s => s.Forall Normal) (closeBindings env s entries) :=
  (yielding Ty.carried_normal env).closeBindings Ty.carried_normal (fun ht => yields_reduce hd _ ht) hs h

end Evaluate
end TypeCalculus

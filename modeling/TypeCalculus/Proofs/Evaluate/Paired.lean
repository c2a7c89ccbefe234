import TypeCalculus.Proofs.Assignable.Captures
import TypeCalculus.Proofs.Evaluate.Operators
import TypeCalculus.Evaluate.Reduce

/-! Two evaluations side by side. A step of an evaluation is composed of evaluations of parts, comparisons,
    substitutions and operators; so whatever composition and comparisons keep (`Paired`) is kept by the whole step, and
    with it every property of types that all constructors hand on. -/

namespace TypeCalculus

/-! ### Declarations -/

/-- The constraint and the default of the parameter have the property. -/
def ParamDecl.Forall (P : Ty → Prop) (p : ParamDecl) : Prop := P p.constraint ∧ P p.default

/-- The body has the property, and so do the constraints and defaults of the parameters. -/
structure Declaration.Forall (P : Ty → Prop) (d : Declaration) : Prop where
  params : ∀ p ∈ d.params, p.Forall P
  body : P d.body

def Declarations.Forall (P : Ty → Prop) (ds : Declarations) : Prop := ∀ d ∈ ds.entries, d.Forall P

theorem Declarations.Forall.imp {P Q : Ty → Prop} {ds : Declarations} (h : ds.Forall P) (hpq : ∀ t, P t → Q t) : ds.Forall Q :=
  fun d hd => ⟨fun p hp => ((h d hd).params p hp).imp (hpq _) (hpq _), hpq _ (h d hd).body⟩

namespace Evaluate
open Ty (Carried)

/-- Steps under two environments go along with each other if those that they are composed of do. -/
structure Paired (P : Ty → Prop) (env env' : Env) extends Linked Evaluating Evaluating where
  throw : ∀ {α : Type} {Q : α → Prop} {e : TypeError}, e.isUnresolvable = false →
    All Q (throw e : Evaluating α) (throw e)
  tell : ∀ event : Resolution → Event,
    All (fun _ : Unit => True) (get >>= fun r => report (event r)) (get >>= fun r => report (event r))
  compare : ∀ {a b : Ty} (anyFits : Bool), P a → P b → All (fun p : Bool × Subst => p.2.Forall P)
    (compare ⟨env.limit, anyFits⟩ a b) (compare ⟨env'.limit, anyFits⟩ a b)
  reporting : ∀ {α : Type} {Q : α → Prop} {x y : Evaluating α} (event : TypeError → Event), All Q x y →
    All Q (reporting event x) (reporting event y)

namespace Paired
variable {P : Ty → Prop} {env env' : Env} (L : Paired P env env')
include L

theorem report (event : Event) : L.All (fun _ => True) (report event) (report event) := L.tell fun _ => event

theorem ofExcept {α : Type} {Q : α → Prop} {x : Except TypeError α} (ho : ∀ a, x = .ok a → Q a)
    (he : ∀ e, x = .error e → e.isUnresolvable = false) : L.All Q (ofExcept x) (ofExcept x) := by
  cases x with
  | error e => exact L.throw (he e rfl)
  | ok a => exact L.pure (ho a rfl)

variable (C : Carried P) {self self' : Ty → Evaluating Ty} (hself : ∀ {t}, P t → L.All P (self t) (self' t))
include C

/-! ### Binding arguments -/

omit L in
theorem paramsToInfer {t : Ty} (ht : P t) (names : List String) : P (paramsToInfer t names) := by
  refine C.substituteOnce ht (Subst.forall_ofList fun e he => ?_)
  obtain ⟨n, -, rfl⟩ := List.mem_map.1 he
  exact C.infer.2 C.absent

theorem candidates {name : String} {unbound : List String} {bindings : Subst} (hb : bindings.Forall P)
    {sites : List InferenceSite} (h : ∀ s ∈ sites, P s.usage ∧ P s.arg) :
    L.All (fun ts => ∀ t ∈ ts, P t) (candidates env name unbound bindings sites)
      (candidates env' name unbound bindings sites) := by
  induction sites with
  | nil => exact L.pure nofun
  | cons site sites ih =>
    obtain ⟨hu, ha⟩ := h site List.mem_cons_self
    have rest := ih fun s hs => h s (List.mem_cons_of_mem _ hs)
    rw [Evaluate.candidates, Evaluate.candidates]
    split
    · exact rest
    · refine L.bind (L.compare false ha (paramsToInfer C (C.substituteOnce hu hb) unbound)) fun p hp => ?_
      refine L.bind rest fun ts hts => ?_
      split
      · rename_i t _ hf
        refine L.pure fun u hu => ?_
        rcases List.mem_cons.1 hu with rfl | hu
        · exact hp.find? hf
        · exact hts u hu
      · exact L.pure hts

theorem inferred {name : String} {params : List ParamDecl} {sites : List InferenceSite} {bindings : Subst}
    (hs : ∀ s ∈ sites, P s.usage ∧ P s.arg) (hb : bindings.Forall P) :
    L.All (fun found => ∀ t, found = some t → P t) (inferred? env name params sites bindings)
      (inferred? env' name params sites bindings) := by
  refine L.bind (L.candidates C hb hs) fun ts hts => ?_
  split
  · refine L.pure ?_
    rintro t ⟨⟩
  · refine L.bind (L.report _) fun _ _ => L.pure ?_
    rintro t ⟨⟩
    exact C.unionOf hts

include hself

theorem checkConstraint {p : ParamDecl} {arg : Ty} {bindings : Subst} (hp : p.Forall P) (ha : P arg)
    (hb : bindings.Forall P) :
    L.All (fun _ => True) (checkConstraint env self p arg bindings) (checkConstraint env' self' p arg bindings) := by
  unfold Evaluate.checkConstraint
  split
  · exact L.pure trivial
  · refine L.bind (hself (C.substituteOnce hp.1 hb)) fun constraint hc => ?_
    split
    · exact L.pure trivial
    · refine L.bind (L.compare true ha hc) fun fits _ => ?_
      dsimp only
      split
      · exact L.throw rfl
      · exact L.pure trivial

theorem bindingOf {params : List ParamDecl} {sites : List InferenceSite} {bindings : Subst} {p : ParamDecl} {arg : Ty}
    (hs : ∀ s ∈ sites, P s.usage ∧ P s.arg) (hb : bindings.Forall P) (hp : p.Forall P) (ha : P arg) :
    L.All P (bindingOf env self params sites bindings p arg) (bindingOf env' self' params sites bindings p arg) := by
  unfold Evaluate.bindingOf
  split
  · exact L.bind (L.checkConstraint C hself hp ha hb) fun _ _ => L.pure ha
  · split
    · exact hself (C.substituteOnce hp.2 hb)
    · refine L.bind (L.inferred C hs hb) fun found hf => ?_
      split
      · have ht := hf _ rfl
        exact L.bind (L.checkConstraint C hself hp ht hb) fun _ _ => L.pure ht
      · split
        · exact L.pure (C.atom rfl)
        · exact hself (C.substituteOnce hp.1 hb)

theorem bindAll {params : List ParamDecl} {sites : List InferenceSite} (hs : ∀ s ∈ sites, P s.usage ∧ P s.arg)
    {bindings : Subst} {ps : List ParamDecl} {args : List Ty} (hb : bindings.Forall P) (hp : ∀ p ∈ ps, p.Forall P)
    (ha : ∀ t ∈ args, P t) : L.All (fun s => s.Forall P) (bindAll env self params sites bindings ps args)
      (bindAll env' self' params sites bindings ps args) := by
  induction ps generalizing bindings args with
  | nil => exact L.pure hb
  | cons p ps ih =>
    have head : P (args.headD .absent) := by
      cases args with
      | nil => exact C.absent
      | cons t ts => exact ha t List.mem_cons_self
    refine L.bind (L.bindingOf C hself hs hb (hp p List.mem_cons_self) head) fun t ht => ?_
    exact ih (hb.insert p.name ht) (fun q hq => hp q (List.mem_cons_of_mem _ hq)) fun u hu => ha u (List.mem_of_mem_tail hu)

/-- Arguments are bound to types with the property. -/
theorem instantiate {params : List ParamDecl} {args : List Ty} {sites : List InferenceSite}
    (hp : ∀ p ∈ params, p.Forall P) (ha : ∀ t ∈ args, P t) (hs : ∀ s ∈ sites, P s.usage ∧ P s.arg) :
    L.All (fun s => s.Forall P) (instantiate env self params args sites) (instantiate env' self' params args sites) := by
  unfold Evaluate.instantiate
  split
  · exact L.throw rfl
  · exact L.bindAll C hself hs Subst.forall_empty hp ha

/-! ### One step -/

theorem resolve {check bound yes no : Ty} {distribute : Bool} (hc : P check) (hb : P bound) (hy : P yes) (hn : P no) :
    L.All P (resolve env self check bound yes no distribute) (resolve env' self' check bound yes no distribute) := by
  unfold Evaluate.resolve
  split
  · exact L.pure (C.conditional (fun hd => (Bool.and_eq_true_iff.1 hd).1) hc hb hy hn)
  · dsimp only
    split
    · refine L.bind (hself (C.substituteOnce hy (Subst.forall_ofList ?_))) fun t ht => ?_
      · intro e he
        obtain ⟨n, -, rfl⟩ := List.mem_map.1 he
        exact C.atom rfl
      · exact L.bind (hself hn) fun u hu => L.pure (C.unionOf_pair ht hu)
    · refine L.bind (L.compare false hc hb) fun p hp => ?_
      rw [← bind_assoc, ← bind_assoc]
      refine L.bind (L.tell _) fun _ _ => ?_
      split
      · refine hself (C.substituteOnce hy (Subst.forall_ofList ?_))
        intro e he
        obtain ⟨n, -, rfl⟩ := List.mem_map.1 he
        dsimp only
        cases hf : p.2.find? n with
        | none => exact C.atom rfl
        | some t => exact hp.find? hf
      · exact hself hn

/-- What is evaluated while a conditional is open. -/
theorem opened {check bound yes no : Ty} {distribute : Bool} (h : P (.conditional check bound yes no distribute)) :
    L.All P (do Evaluate.resolve env self (← self check) (← self bound) yes no distribute)
      (do Evaluate.resolve env' self' (← self' check) (← self' bound) yes no distribute) := by
  obtain ⟨hc, hb, hy, hn⟩ := C.branches h
  exact L.bind (hself hc) fun c hc => L.bind (hself hb) fun b hb => L.resolve C hself hc hb hy hn

variable (decls : env'.decls = env.decls) (hd : env.decls.Forall P)
include decls hd

theorem expand {name : String} {args : List Ty} (ha : ∀ t ∈ args, P t) :
    L.All P (expand env self name args) (expand env' self' name args) := by
  unfold Evaluate.expand
  rw [decls]
  refine L.bind (L.mapM fun t ht => hself (ha t ht)) fun args hargs => ?_
  split
  · exact L.pure (C.plain rfl hargs)
  · rename_i decl hf
    have hdecl := hd decl (List.mem_of_find?_eq_some hf)
    refine L.bind (L.instantiate C hself hdecl.params hargs nofun) fun s hs => ?_
    exact L.bind (L.report _) fun _ _ => hself (C.substituteOnce hdecl.body hs)

/-- A step of the evaluation of a type that is not a conditional. -/
theorem reduceStep {t : Ty} (hc : t.isConditional = false) (ht : P t) :
    L.All P (reduceStep env self t) (reduceStep env' self' t) := by
  unfold Evaluate.reduceStep
  split
  · cases hc
  · exact L.expand C hself decls hd fun u hu => C.child ht hu
  · refine L.bind (hself (C.child ht List.mem_cons_self)) fun u hu => ?_
    exact L.pure (C.operated.keysOf u hu)
  · refine L.bind (hself (C.child ht List.mem_cons_self)) fun u hu => ?_
    refine L.bind (hself (C.child ht (List.mem_cons_of_mem _ List.mem_cons_self))) fun i hi => ?_
    exact L.ofExcept (fun v hv => C.operated.indexed hu hi hv) fun e he => Ty.indexed_error he
  · refine L.bind (hself (C.child ht List.mem_cons_self)) fun u hu => ?_
    exact L.pure (C.operated.mapped _ u hu)
  · exact C.rebuild L.toLinked ht fun u hu => hself (C.child ht hu)

section Holding
variable (holding : ∀ {x y : Evaluating Ty} (c check bound : Ty), L.All P x y →
  L.All P (holding env c check bound x) (holding env' c check bound y))
include holding

/-- A step of the evaluation of any type, where a conditional that is open makes no difference. -/
theorem anyStep {t : Ty} (ht : P t) : L.All P (Evaluate.reduceStep env self t) (Evaluate.reduceStep env' self' t) := by
  cases t with
  | conditional check bound yes no distribute => exact holding _ _ _ (L.opened C hself ht)
  | _ => exact L.reduceStep C hself decls hd rfl ht

omit hself in
/-- Whole evaluations in the same room: the induction is on the room. -/
theorem reduction (tooDeep : ∀ t, L.All P (MonadExcept.throw (TypeError.tooDeep env.limit t) : Evaluating Ty)
      (MonadExcept.throw (TypeError.tooDeep env'.limit t)))
    (nested : ∀ {x y : Evaluating Ty}, L.All P x y → L.All P (nested x) (nested y)) (room : Nat) {t : Ty} (ht : P t) :
    L.All P (reduce env room t) (reduce env' room t) := by
  have same : ∀ t, isReducible env' t = isReducible env t := fun t => by rw [isReducible, decls, isReducible]
  induction room generalizing t with
  | zero =>
    rw [reduce, reduce, same]
    split
    · exact tooDeep t
    · exact L.pure ht
  | succ room ih =>
    rw [reduce, reduce, same]
    split
    · exact nested (L.anyStep C ih decls hd holding ht)
    · exact L.pure ht

end Holding

omit hself decls hd in
theorem closeBindings (hreduce : ∀ {t}, P t → L.All P (reduce env env.limit t) (reduce env' env'.limit t)) {s : Subst}
    (hs : s.Forall P) {entries : List (String × Ty)} (h : ∀ e ∈ entries, P e.2) :
    L.All (fun s => s.Forall P) (closeBindings env s entries) (closeBindings env' s entries) := by
  induction entries with
  | nil => exact L.pure Subst.forall_empty
  | cons e rest ih =>
    obtain ⟨name, t⟩ := e
    have hrest := ih fun e he => h e (List.mem_cons_of_mem _ he)
    rw [Evaluate.closeBindings, Evaluate.closeBindings]
    split
    · exact hrest
    · have ht : P t := h (name, t) List.mem_cons_self
      refine L.bind (hreduce (C.substitute ht hs)) fun u hu => ?_
      exact L.bind hrest fun s hs => L.pure (hs.insert name hu)

end Paired
end Evaluate
end TypeCalculus

import TypeCalculus.Proofs.Checker.Annotated
import TypeCalculus.Proofs.Evaluate.Guard
import TypeCalculus.Proofs.Evaluate.NormalForm
import TypeCalculus.Proofs.Ty.Malformed

/-! The guard against cycles raises no false alarm and changes no answer of a checker. What an evaluation without the
    guard gives is what the checker answers; where the checker refuses a cycle, the evaluation without the guard nests
    too deep under every limit that is not lower. -/

namespace TypeCalculus

/-! ### Whole evaluations -/

/-- Two evaluations of a type under bindings go along with each other if those of the parts do. -/
theorem Evaluate.Paired.evaluateFresh {P : Ty → Prop} {env env' : Evaluate.Env} (L : Paired P env env') (C : Ty.Carried P)
    (hreduce : ∀ {t}, P t → L.All P (reduce env env.limit t) (reduce env' env'.limit t)) {t : Ty} {s : Subst} (ht : P t)
    (hs : s.Forall P) : L.All P (Checker.evaluateFresh env t s) (Checker.evaluateFresh env' t s) := by
  refine L.bind (L.reporting _ (L.closeBindings C hreduce hs hs)) fun closed hc => ?_
  exact L.reporting _ (hreduce (C.substitute ht hc))

namespace Checker
open Evaluate (TooDeep Cyclic Clean)

/-- Evaluates a type under bindings where a conditional is entered also if it is being resolved, with nothing
    remembered. -/
def unguarded (c : Checker) (limit : Nat) (t : Ty) (s : Subst) : Except TypeError Ty :=
  match t.validate with
  | .error e => .error e
  | .ok () => ((evaluateFresh { limit, decls := c.decls, guarded := false } t s).run {}).1

section Fresh
variable {α : Ty.Annotation} {c : Checker} (hd : c.decls.Forall (Ty.Uniform α)) {t : Ty} {s : Subst} (ht : t.Uniform α)
  (hs : s.Forall (Ty.Uniform α))
include hd ht hs

/-- Where the guard refuses a conditional, the evaluation without it nests too deep. -/
theorem tooDeep_of_cyclic {limit : Nat} (hc : Clean c.limit limit ((evaluateFresh c.env t s).run {}).2)
    (h : Cyclic ((evaluateFresh c.env t s).run {}).1) :
    TooDeep ((evaluateFresh { limit, decls := c.decls, guarded := false } t s).run {}).1 := by
  let env' : Evaluate.Env := { limit, decls := c.decls, guarded := false }
  have C := Ty.carried_uniform α
  have decls : env'.decls = c.env.decls := rfl
  have reduces : ∀ {u : Ty}, u.Uniform α → Evaluate.Guards c.env.limit env'.limit [] (Ty.Uniform α)
      (Evaluate.reduce c.env c.env.limit u) (Evaluate.reduce env' env'.limit u) :=
    fun hu => Evaluate.guards_reduce decls hd rfl _ _ (fun o ho => by cases ho) hu
  exact ((Evaluate.guarding C c.env env' []).evaluateFresh C reduces ht hs).deep {} {} rfl hc h

/-- What is given without the guard is given with it. -/
theorem evaluateFresh_of_unguarded {r : Ty}
    (h : ((evaluateFresh { limit := c.limit, decls := c.decls, guarded := false } t s).run {}).1 = .ok r) :
    ((evaluateFresh c.env t s).run {}).1 = .ok r := by
  let env' : Evaluate.Env := { limit := c.limit, decls := c.decls, guarded := false }
  have C := Ty.carried_uniform α
  have decls : env'.decls = c.env.decls := rfl
  have same : env'.limit = c.env.limit := rfl
  have reduces : ∀ {u : Ty}, u.Uniform α → Evaluate.Follows (Ty.Uniform α)
      (Evaluate.reduce c.env c.env.limit u) (Evaluate.reduce env' env'.limit u) :=
    fun hu => Evaluate.follows_reduce C decls hd same _ hu
  rcases (Evaluate.following C same).evaluateFresh C reduces ht hs {} {} r h with ⟨hr, -⟩ | hcycle
  · exact hr
  · obtain ⟨limit, u, he⟩ := tooDeep_of_cyclic hd ht hs (Or.inl rfl) hcycle
    rw [he] at h
    cases h

end Fresh

/-! ### Checkers asked about types annotated alike -/

/-- All types that are passed take the annotations of their parameters from one assignment. -/
def Call.Uniform (α : Ty.Annotation) : Call → Prop
  | .declare d => d.Forall (Ty.Uniform α)
  | .isSubtype a b => a.Uniform α ∧ b.Uniform α
  | .capturing a b => a.Uniform α ∧ b.Uniform α
  | .evaluate t bindings => t.Uniform α ∧ bindings.Forall (Ty.Uniform α)
  | .resolve t bindings => t.Uniform α ∧ bindings.Forall (Ty.Uniform α)
  | .instantiate params args sites => (∀ p ∈ params, p.Forall (Ty.Uniform α)) ∧ (∀ t ∈ args, t.Uniform α) ∧
      ∀ s ∈ sites, s.usage.Uniform α ∧ s.arg.Uniform α
  | .instantiateDeclaration _ args => ∀ t ∈ args, t.Uniform α

theorem Called.uniform {α : Ty.Annotation} {c c' : Checker} {call : Call} (h : Called c call c') (hc : c.Uniform α)
    (hu : call.Uniform α) : c'.Uniform α := by
  have annotated : ∀ {s : Subst}, s.Forall (Ty.Uniform α) → ∀ e ∈ s.entries, e.2.AnnotatedBy α :=
    fun hs e he => (hs e he).annotatedBy
  cases h with
  | declared d => exact hc.declare d
  | compared a b => exact (Checker.compared c a b).uniform hc hu.1.annotatedBy hu.2.annotatedBy
  | evaluated t s | resolved t s => exact (Checker.evaluated c t s).uniform hc hu.1.annotatedBy (annotated hu.2)
  | applied name args =>
    have ht : Ty.Uniform α (.reference name args) := (Ty.carried_uniform α).plain rfl hu
    exact (Checker.evaluated c _ {}).uniform hc ht.annotatedBy nofun
  | kept keeps => exact hc.of_keeps keeps

theorem Called.declarations {P : Ty → Prop} {c c' : Checker} {call : Call} (h : Called c call c') (hc : c.decls.Forall P)
    (hu : ∀ d, call = .declare d → d.Forall P) : c'.decls.Forall P := by
  cases h with
  | declared d =>
    rcases declare_cases c d with ⟨e, h⟩ | ⟨-, -, h, -⟩
    · rw [h]
      exact hc
    · rw [h]
      intro d' hd'
      rcases Declarations.mem_insert hd' with rfl | hd'
      · exact hu d' rfl
      · exact hc d' hd'
  | compared a b => exact (Checker.compared c a b).steady.decls ▸ hc
  | evaluated t s | resolved t s => exact (Checker.evaluated c t s).steady.decls ▸ hc
  | applied name args => exact (Checker.evaluated c _ _).steady.decls ▸ hc
  | kept keeps => exact keeps.decls ▸ hc

theorem Reachable.uniform {α : Ty.Annotation} {limit cacheSize : Int} {c : Checker}
    (h : Reachable (Call.Uniform α) limit cacheSize c) : c.Uniform α ∧ c.decls.Forall (Ty.Uniform α) := by
  induction h with
  | new => exact ⟨uniform_of_empty (stored_new limit cacheSize), nofun⟩
  | call call _ hu ih =>
    refine ⟨(called _ call).uniform ih.1 hu, (called _ call).declarations ih.2 ?_⟩
    rintro d rfl
    exact hu
  | drop _ hm hsub ih => exact ⟨ih.1.of_keeps (Keeps.drop hm hsub), ih.2⟩

/-! ### What callers see -/

theorem events_remembered (c : Checker) (key : MemoKey) (a b : Ty) : (c.remembered key a b).2.events = c.events := by
  unfold remembered
  split
  · rfl
  · dsimp only
    split <;> (obtain ⟨operation, _, _⟩ := key; cases operation <;> rfl)

/-- A failed evaluation adds the events of its run, with nothing remembered. -/
theorem events_evaluate {c : Checker} {t : Ty} {s : Subst} {e : TypeError} (hv : t.validate = .ok ())
    (h : (c.evaluate t s).1 = .error e) :
    ((evaluateFresh c.env t s).run {}).1 = .error e ∧
      (c.evaluate t s).2.events = ((evaluateFresh c.env t s).run {}).2.events ++ c.events := by
  unfold evaluate at h ⊢
  rw [hv] at h ⊢
  dsimp only at h ⊢
  have keeps := keeps_remembered c ⟨.evaluate, t.hash, s.hash⟩ t s.toTy
  have events := events_remembered c ⟨.evaluate, t.hash, s.hash⟩ t s.toTy
  generalize c.remembered ⟨.evaluate, t.hash, s.hash⟩ t s.toTy = looked at keeps events h ⊢
  obtain ⟨_ | e, c'⟩ := looked
  · dsimp only [evaluating] at keeps events h ⊢
    rw [← keeps.env, ← events]
    generalize (evaluateFresh c'.env t s).run {} = out at h ⊢
    obtain ⟨_ | _, r⟩ := out
    · cases h
      exact ⟨rfl, rfl⟩
    · cases h
  · cases h

/-- The guard against cycles raises no false alarm and changes no answer, where parameters of one name are annotated
    alike: what is given without the guard is the answer; and if a cycle is refused and no comparison was cut off, the
    evaluation without the guard nests too deep, under this limit and every higher one. -/
theorem guard_never_misleads {α : Ty.Annotation} {limit cacheSize : Int} {c : Checker}
    (h : Reachable (Call.Uniform α) limit cacheSize c) {t : Ty} {s : Subst} (ht : t.Uniform α)
    (hs : s.Forall (Ty.Uniform α)) :
    (∀ r, c.unguarded c.limit t s = .ok r → (c.evaluate t s).1 = .ok r) ∧
    (∀ check bound reported, (c.evaluate t s).1 = .error (.cycle check bound) →
      (c.evaluate t s).2.events = reported ++ c.events → ¬Assignable.Reported reported →
      ∀ limit', c.limit ≤ limit' → ∃ d u, c.unguarded limit' t s = .error (.tooDeep d u)) := by
  obtain ⟨hc, hd⟩ := h.uniform
  constructor
  · intro r hr
    rw [evaluate_of_uniform hc ht.annotatedBy fun e he => (hs e he).annotatedBy, evaluate_forgetful]
    unfold unguarded at hr
    cases hv : t.validate with
    | error e =>
      rw [hv] at hr
      cases hr
    | ok =>
      rw [hv] at hr
      exact evaluateFresh_of_unguarded hd ht hs hr
  · intro check bound reported hcycle hevents hreported limit' hl
    have hv : t.validate = .ok () := by
      cases hv : t.validate with
      | ok => rfl
      | error e =>
        unfold evaluate at hcycle
        rw [hv] at hcycle
        cases hcycle
        cases Ty.checks_validateIn false t _ hv
    obtain ⟨hfail, hadded⟩ := events_evaluate hv hcycle
    rw [hadded] at hevents
    have clean : Clean c.limit limit' ((evaluateFresh c.env t s).run {}).2 := by
      refine Or.inr ⟨hl, ?_⟩
      rwa [List.append_cancel_right hevents]
    obtain ⟨d, u, he⟩ := tooDeep_of_cyclic hd ht hs clean ⟨check, bound, hfail⟩
    refine ⟨d, u, ?_⟩
    unfold unguarded
    rw [hv]
    exact he

/-- A conditional on fitting operands comes to its first branch, unless it is open. -/
theorem run_reduce_fitting {env : Evaluate.Env} (hl : env.limit = 4) {t yes no : Ty}
    (ht : t = .conditional .string .string yes no false) (hy : yes.substituteOnce (Evaluate.capturesOf [] {}) = yes)
    (room : Nat) {r : Evaluate.Resolution} (h : t.hash ∉ r.active) :
    (Evaluate.reduce env (room + 1) t).run r = (fun o => (o.1, o.2.pop.leave)) ((Evaluate.reduce env room yes).run
      ⟨r.depth + 1, ⟨t, t.hash⟩ :: r.stack, t.hash :: r.active,
        .conditional .string .string true (r.depth + 1) :: r.events⟩) := by
  have known : ∀ room, Evaluate.reduce env room .string = pure .string := Evaluate.reduce_irreducible rfl
  have fits : Assignable.run ⟨env.limit, false⟩ .string .string = (true, {}) := by
    rw [hl]
    cbv
  have resolved : ∀ self, Evaluate.resolve env self .string .string yes no false = (do
      Evaluate.report (.conditional .string .string true (← get).depth)
      self yes) := by
    intro self
    unfold Evaluate.resolve
    rw [if_neg (by cbv; exact Bool.false_ne_true), if_neg (by cbv; exact Bool.false_ne_true)]
    unfold Evaluate.compare
    rw [fits]
    conv => rhs; rw [← hy]
    rfl
  have step : Evaluate.reduceStep env (Evaluate.reduce env room) t = Evaluate.holding env t .string .string
      (Evaluate.resolve env (Evaluate.reduce env room) .string .string yes no false) := by
    rw [ht, Evaluate.reduceStep, known]
    rfl
  have opened := Evaluate.push?_of_inactive (r := r.enter) h
  rw [Evaluate.reduce_succ (by rw [ht]; rfl), Evaluate.run_nested, step, Evaluate.run_holding_some opened, resolved]
  rfl

/-- A declared name that stands for a conditional on itself is refused, and a conditional beside it is resolved. -/
theorem guard_never_misleads_loop :
    let body : Ty := .conditional .string .string (.reference "Loop" []) .never false
    let loop : Declaration := ⟨"Loop", [], body⟩
    let c := (Checker.new 4 2).after (.declare loop)
    let t : Ty := .reference "Loop" []
    let u : Ty := .conditional .string .string .number .never false
    (c.evaluate u {}).1 = .ok .number ∧ (c.evaluate t {}).1 = .error (.cycle .string .string) ∧
    (∀ limit', 4 ≤ limit' → ∃ d v, c.unguarded limit' t {} = .error (.tooDeep d v)) := by
  intro body loop c t u
  have expanded : ∀ room r, (Evaluate.reduce c.env (room + 1) t).run r =
      (fun o => (o.1, o.2.leave)) ((Evaluate.reduce c.env room body).run
        ⟨r.depth + 1, r.stack, r.active, .expanding "Loop" {} :: r.events⟩) := by
    intro room r
    have found : c.env.decls.find? "Loop" = some loop := by cbv
    have opens : loop.body.substituteOnce {} = body := by cbv
    have step : Evaluate.reduceStep c.env (Evaluate.reduce c.env room) t =
        Evaluate.expand c.env (Evaluate.reduce c.env room) "Loop" [] := rfl
    rw [Evaluate.reduce_succ (by cbv), step, ← opens, Evaluate.expand, found]
    rfl
  have resolved := fun room {r : Evaluate.Resolution} (h : body.hash ∉ r.active) =>
    run_reduce_fitting (show c.env.limit = 4 from rfl) (show body = _ from rfl) (by cbv) room h
  have refused : ∀ room {r}, r.stack = [⟨body, body.hash⟩] → r.active = [body.hash] →
      (Evaluate.reduce c.env (room + 1) body).run r = (.error (.cycle .string .string), r.enter.leave) := by
    intro room r hs ha
    have met : r.enter.push? body = none :=
      Evaluate.push?_of_open (ha ▸ List.mem_cons_self) (hs ▸ List.mem_cons_self) (Ty.identical_refl body)
    have step : Evaluate.reduceStep c.env (Evaluate.reduce c.env room) body =
        Evaluate.holding c.env body .string .string _ := rfl
    rw [Evaluate.reduce_succ rfl, Evaluate.run_nested, step, Evaluate.run_holding_none met rfl]
  -- The name is expanded, its conditional is opened, the name is expanded again, and the conditional is met again.
  have run : (Evaluate.reduce c.env 4 t).run {} = (.error (.cycle .string .string),
      { events := [.expanding "Loop" {}, .conditional .string .string true 2, .expanding "Loop" {}] }) := by
    rw [expanded, resolved 2 (by intro h; cases h), expanded, refused 0 rfl rfl]
    simp [Evaluate.Resolution.enter, Evaluate.Resolution.leave, Evaluate.Resolution.pop]
  have start : ∀ (env : Evaluate.Env) v, (evaluateFresh env v {}).run {} =
      (Evaluate.reporting (.evaluationFailed v) (Evaluate.reduce env env.limit (v.substitute {}))).run {} :=
    fun _ _ => rfl
  have failed : (evaluateFresh c.env t {}).run {} = (.error (.cycle .string .string), { events :=
      [.evaluationFailed t (.cycle .string .string), .expanding "Loop" {}, .conditional .string .string true 2,
        .expanding "Loop" {}] }) := by
    rw [start, show t.substitute {} = t by cbv, show c.env.limit = 4 from rfl, Evaluate.run_reporting_error run]
  have fails : (c.evaluate t {}).1 = .error (.cycle .string .string) := by
    rw [evaluate_of_empty rfl, evaluate_forgetful, failed]
    rfl
  have given : c.unguarded c.limit u {} = .ok .number := by
    have plain : ∀ env room, Evaluate.reduce env room .number = pure .number := fun _ => Evaluate.reduce_irreducible rfl
    rw [unguarded, show u.validate = .ok () by cbv]
    dsimp only
    rw [start, (Evaluate.run_reporting _ _ _).1, show u.substitute {} = u by cbv]
    change ((Evaluate.reduce { limit := 4, decls := c.decls, guarded := false } 4 u).run {}).1 = _
    rw [run_reduce_fitting rfl rfl (by cbv) 3 (by intro h; cases h), plain]
    rfl
  let α : Ty.Annotation := fun _ => (.absent, .absent)
  have C := Ty.carried_uniform α
  have named : t.Uniform α := C.plain rfl (List.forall_mem_nil _)
  have reached : Reachable (Call.Uniform α) 4 2 c :=
    .call (.declare loop) .new ⟨List.forall_mem_nil _, C.conditional (fun h => by cases h) (C.atom rfl) (C.atom rfl) named (C.atom rfl)⟩
  have chosen : u.Uniform α := C.conditional (fun h => by cases h) (C.atom rfl) (C.atom rfl) (C.atom rfl) (C.atom rfl)
  refine ⟨(guard_never_misleads reached chosen Subst.forall_empty).1 _ given, fails, ?_⟩
  refine (guard_never_misleads reached named Subst.forall_empty).2 _ _ _ fails (events_evaluate (by cbv) fails).2 ?_
  rw [failed]
  rintro ⟨limit, source, target, h⟩
  simp at h

end Checker
end TypeCalculus

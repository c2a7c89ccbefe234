import Mathlib
import TypeCalculus.Proofs.Checker.FreeParams
import TypeCalculus.Proofs.Checker.Guard
import TypeCalculus.Proofs.Checker.Idempotent
import TypeCalculus.Proofs.Evaluate.Deferral

/-! Evaluating a type early and its result under bindings later agrees with evaluating it under the bindings, where
    the bound names are waited for (`deferral_faithful`). What is checked early is not checked again: an argument that is
    a parameter passes every constraint, and the constraint is forgotten once it is passed on (`constraint_forgotten`). -/

namespace TypeCalculus
open Ty (Normal Built)

/-- The names that are bound to types with alternatives. -/
def Subst.divided (s : Subst) : List String :=
  (s.entries.filter fun e => (Substitute.alternatives? e.2).isSome).map (·.1)

namespace Evaluate

section Bindings
variable {env : Env} {s : Subst}

theorem Value.substitute {t : Ty} (h : Value env t) (s : Subst) : t.substitute s = t :=
  Substitute.substitute_of_run h.built (h.static.run _ _ _)

theorem Value.annotatedBy {α : Ty.Annotation} {t : Ty} (h : Value env t) : t.AnnotatedBy α := by
  refine Ty.annotated_self α (Ty.Throughout.imp (fun u hu name _ _ he => (hu name ?_).elim) h.static.named)
  rw [he]
  exact beq_self_eq_true name

/-- Without parameters there are no annotations that a value could differ in. -/
theorem Value.eq_of_identical {t u : Ty} (h : Value env t) (hi : u.identical t = true) : u = t := by
  have same : u.erased = t.erased := (Ty.identical_iff u t).1 hi
  have unnamed : ∀ n, u.occurs (Ty.isParamOf n) = true → False := by
    intro n ho
    rw [← Ty.occurs_annotated Ty.bare rfl (fun v => by cases v <;> rfl) u, ← Ty.erased, same, Ty.erased,
      Ty.occurs_annotated Ty.bare rfl (fun v => by cases v <;> rfl) t] at ho
    exact h.static.named.mentioned ho
  have bare : u.erased = u := by
    refine Ty.annotated_self Ty.bare (Ty.Throughout.imp (fun v hv name _ _ he => (hv name ?_).elim)
      (Ty.throughout_of_occurs (fun _ => rfl) unnamed))
    rw [he]
    exact beq_self_eq_true name
  rw [← bare, same]
  exact h.annotatedBy

/-- Values are bound as they are. -/
theorem values_closeBindings (hs : s.Forall (Value env)) {entries : List (String × Ty)} (he : ∀ e ∈ entries, e ∈ s.entries) :
    Yields (fun closed => closed.Forall (Value env) ∧ ∀ n v, closed.find? n = some v → (n, v) ∈ entries)
      (closeBindings env s entries) := by
  induction entries with
  | nil => exact Results.evaluating.pure ⟨Subst.forall_empty, fun _ _ h => by cases h⟩
  | cons e rest ih =>
    obtain ⟨name, t⟩ := e
    have hrest := ih fun e h => he e (List.mem_cons_of_mem _ h)
    have value : Value env t := hs _ (he _ List.mem_cons_self)
    rw [closeBindings]
    split
    · exact fun r closed h => ⟨(hrest r closed h).1, fun n v hv => List.mem_cons_of_mem _ ((hrest r closed h).2 n v hv)⟩
    · have stays : Yields (· = t) (reduce env env.limit (t.substitute s)) := by
        rw [value.substitute]
        exact fun r u hu => Comes.of_settled ⟨_, r, hu⟩ value.built.normal value.settled
      refine Results.evaluating.bind stays fun u hu => Results.evaluating.bind hrest fun closed hc => ?_
      refine Results.evaluating.pure ⟨hc.1.insert name (hu ▸ value), fun n v hv => ?_⟩
      rw [Subst.find?_insert] at hv
      split at hv
      · rename_i hn
        rw [hn, ← Option.some.inj hv, hu]
        exact List.mem_cons_self
      · exact List.mem_cons_of_mem _ (hc.2 n v hv)

theorem binds_of_closed {closed : Subst} (hv : closed.Forall (Value env))
    (he : ∀ n v, closed.find? n = some v → (n, v) ∈ s.entries) : Binds env s.names s.divided closed where
  values := hv
  names n hr := by
    obtain ⟨-, v, hf, -⟩ := hr
    exact List.mem_map.2 ⟨_, he n v hf, rfl⟩
  whole n v hf hn := by
    rw [← Option.not_isSome_iff_eq_none]
    exact fun ha => hn (List.mem_map.2 ⟨_, List.mem_filter.2 ⟨he n v hf, ha⟩, rfl⟩)

/-- Binding values in what a type comes to concurs with binding them in the type. -/
theorem concur_evaluateFresh {lax : Prop} {t r : Ty}
    (hd : ∀ d ∈ env.decls.entries, Hygienic env s.names d) (hs : s.Forall (Value env)) (ht : Built t)
    (hw : Waits env s.names s.divided lax t) (hr : Comes env t r) :
    Excused False ((Checker.evaluateFresh env r s).run {}).1 ∨ Excused lax ((Checker.evaluateFresh env t s).run {}).1 ∨
      ((Checker.evaluateFresh env r s).run {}).1 = ((Checker.evaluateFresh env t s).run {}).1 := by
  let bindings := reporting (.bindingsFailed s) (closeBindings env s s.entries)
  have run : ∀ u, (Checker.evaluateFresh env u s).run {} = (bindings >>= fun closed =>
      reporting (.evaluationFailed u) (reduce env env.limit (u.substitute closed))).run {} := fun _ => rfl
  rw [run, run]
  cases hc : (bindings.run {}).1 with
  | error e =>
    rw [run_bind_error hc, run_bind_error hc]
    exact .inr (.inr rfl)
  | ok closed =>
    rw [run_bind_ok hc, run_bind_ok hc]
    rw [(run_reporting _ _ _).1, (run_reporting _ _ _).1]
    obtain ⟨values, found⟩ := (values_closeBindings hs fun _ h => h).reporting _ {} closed hc
    have B := binds_of_closed values found
    have rbuilt := hr.built (fun d hm => (hd d hm).built) ht
    obtain ⟨u, hu⟩ := Substitute.static_ends B.static t
    obtain ⟨v, hv⟩ := Substitute.static_ends B.static r
    rw [Substitute.substitute_of_run ht hu, Substitute.substitute_of_run rbuilt hv]
    have concur := faithful_of_waits hd B ht hw r u v hr hu hv env.limit env.limit (bindings.run {}).2 (bindings.run {}).2
    exact concur.imp_right fun h => h.imp_right And.left

end Bindings
end Evaluate

namespace Checker
open Evaluate (Value Waits Hygienic Stopped Comes)

/-- What is evaluated without bindings. -/
theorem comes_of_evaluate {c : Checker} {t r : Ty} (h : (c.forgetful.evaluate t {}).1 = .ok r) :
    t.validate = .ok () ∧ Comes c.env t r := by
  rw [evaluate_forgetful] at h
  split at h
  · cases h
  · rename_i hv
    refine ⟨hv, c.env.limit, {}, ?_⟩
    have start : (evaluateFresh c.env t {}).run {} =
        (Evaluate.reporting (.evaluationFailed t) (Evaluate.reduce c.env c.env.limit (t.substitute {}))).run {} := rfl
    rw [start, Ty.substitute_empty, (Evaluate.run_reporting _ _ _).1] at h
    exact h

theorem Reachable.uniform_result {α : Ty.Annotation} {limit cacheSize : Int} {c : Checker}
    (h : Reachable (Call.Uniform α) limit cacheSize c) {t r : Ty} (ht : t.Uniform α) (hr : Comes c.env t r) : r.Uniform α := by
  obtain ⟨room, st, hr⟩ := hr
  let env' : Evaluate.Env := { c.env with guarded := false }
  have same : env'.decls = c.env.decls := rfl
  exact (Evaluate.agree_reduce (Ty.carried_uniform α) same h.uniform.2 rfl room room ht).holds st r hr

/-- Deferral is faithful where the bound names are waited for: if evaluating a type comes to a result, then evaluating the
    result under bindings to values gives what evaluating the type under them gives, as long as neither is stopped. What
    is lost are failures of constraints for arguments that mention the names; where there are no such arguments, the
    outcomes are the same. -/
theorem deferral_faithful {α : Ty.Annotation} {limit cacheSize limit' cacheSize' : Int} {c c' : Checker}
    (h : Reachable (Call.Uniform α) limit cacheSize c) (h' : Reachable (Call.Uniform α) limit' cacheSize' c')
    (hc : Steady c c') {t r : Ty} {s : Subst} (ht : Built t) (ha : t.Uniform α)
    (hd : ∀ d ∈ c.decls.entries, Hygienic c.env s.names d) (hs : s.Forall (Value c.env))
    (hr : (c.evaluate t {}).1 = .ok r) (hv : r.validate = .ok ()) :
    (Waits c.env s.names s.divided True t → ∀ u, (c.evaluate t s).1 = .ok u →
      (c'.evaluate r s).1 = .ok u ∨ Stopped (c'.evaluate r s).1) ∧
    (Waits c.env s.names s.divided False t →
      Stopped (c'.evaluate r s).1 ∨ Stopped (c.evaluate t s).1 ∨ (c'.evaluate r s).1 = (c.evaluate t s).1) := by
  have annotated : ∀ e ∈ s.entries, e.2.AnnotatedBy α := fun e he => (hs e he).annotatedBy
  rw [@evaluate_of_uniform α c h.uniform.1 t {} ha.annotatedBy nofun] at hr
  obtain ⟨valid, comes⟩ := comes_of_evaluate hr
  have early : (c'.evaluate r s).1 = ((evaluateFresh c.env r s).run {}).1 := by
    rw [evaluate_of_uniform h'.uniform.1 (h.uniform_result ha comes).annotatedBy annotated, evaluate_forgetful, hv, hc.env]
  have late : (c.evaluate t s).1 = ((evaluateFresh c.env t s).run {}).1 := by
    rw [evaluate_of_uniform h.uniform.1 ha.annotatedBy annotated, evaluate_forgetful, valid]
  rw [early, late]
  constructor
  · intro hw u hu
    rcases Evaluate.concur_evaluateFresh hd hs ht hw comes with hstop | hex | he
    · exact .inr hstop.stopped
    · rw [hu] at hex
      exact absurd hex Evaluate.not_excused_ok
    · exact .inl (he.trans hu)
  · intro hw
    rcases Evaluate.concur_evaluateFresh hd hs ht hw comes with hstop | hex | he
    · exact .inl hstop.stopped
    · exact .inr (.inl hex.stopped)
    · exact .inr (.inr he)

/-! ### Concrete evaluations -/

/-- A pair of a label and a list, under a name that takes the same parameter as is bound later. -/
def labelled : Declaration :=
  ⟨"Labelled", [⟨"K", .string, .absent⟩, ⟨"T", .absent, .absent⟩],
    .tuple [.param "K" .absent .absent, .array (.param "T" .absent .absent) false]⟩

def record : Ty := .object [{ key := "a", type := .number }] none

theorem hygienic_labelled {env : Evaluate.Env} : Hygienic env ["T"] labelled := by
  have param : ∀ {A : String → Prop} {n : String}, A n → Substitute.Named A (.param n .absent .absent) :=
    Substitute.named_param.2
  have named := fun A => Substitute.inherited_named A
  have absent : Evaluate.Inert env .absent := ⟨rfl, rfl⟩
  have constraints : ∀ p ∈ labelled.params, (p.constraint = .string ∨ p.constraint = .absent) ∧ p.default = .absent :=
    List.forall_mem_cons.2 ⟨⟨.inl rfl, rfl⟩, List.forall_mem_singleton.2 ⟨.inr rfl, rfl⟩⟩
  have built : ∀ {t : Ty}, t = .string ∨ t = .absent → Built t ∧ Evaluate.Apart ["T"] t := by
    rintro t (rfl | rfl)
    · exact ⟨Ty.built_atom rfl, (named _).leaf rfl rfl⟩
    · exact ⟨⟨Ty.normal_absent, Ty.inherited_tidy.leaf rfl rfl⟩, (named _).leaf rfl rfl⟩
  refine ⟨⟨fun p hp => ?_, ?_⟩, fun p hp => ?_, ?_, ?_, by decide⟩
  · exact ⟨(built (constraints p hp).1).1, (built (.inr (constraints p hp).2)).1⟩
  · refine Ty.built_plain rfl (List.forall_mem_cons.2 ⟨Ty.built_param "K", List.forall_mem_singleton.2 ?_⟩)
    exact Ty.built_plain rfl (List.forall_mem_singleton.2 (Ty.built_param "T"))
  · exact ⟨(built (constraints p hp).1).2, (built (.inr (constraints p hp).2)).2⟩
  · refine List.forall_mem_cons.2 ⟨fun hn => ?_, List.forall_mem_singleton.2 fun _ => ⟨absent, absent⟩⟩
    simp at hn
  · refine (named _).build rfl (List.forall_mem_cons.2 ⟨param (.inl (by decide)), List.forall_mem_singleton.2 ?_⟩)
    exact (named _).build rfl (List.forall_mem_singleton.2 (param (.inl (by decide))))

theorem deferral_faithful_labelled :
    let c := (Checker.new 5 2).after (.declare labelled)
    let param := Ty.param "T" .absent .absent
    let t := Ty.tuple [.reference "Labelled" [.string, param], .keyOf param]
    let r := Ty.tuple [.tuple [.string, .array param false], .keyOf param]
    let u := Ty.tuple [.tuple [.string, .array record false], .stringLit "a"]
    let s : Subst := ⟨[("T", record)]⟩
    let c' := (c.evaluate t {}).2
    (c.evaluate t {}).1 = .ok r ∧ (c.evaluate t s).1 = .ok u ∧
      ((c'.evaluate r s).1 = .ok u ∨ Stopped (c'.evaluate r s).1) ∧
      (Stopped (c'.evaluate r s).1 ∨ Stopped (c.evaluate t s).1 ∨ (c'.evaluate r s).1 = (c.evaluate t s).1) := by
  intro c param t r u s c'
  let α : Ty.Annotation := fun _ => (.absent, .absent)
  have C := Ty.carried_uniform α
  have uniform : ∀ n, Ty.Uniform α (.param n .absent .absent) := fun n => by
    refine ⟨fun _ _ _ he => ?_, List.forall_mem_cons.2 ⟨C.absent, List.forall_mem_singleton.2 C.absent⟩⟩
    cases he
    rfl
  have array : ∀ {v : Ty}, v.Uniform α → Ty.Uniform α (.array v false) := fun h => C.plain rfl (List.forall_mem_singleton.2 h)
  have declared : labelled.Forall (Ty.Uniform α) := by
    refine ⟨List.forall_mem_cons.2 ⟨⟨C.atom rfl, C.absent⟩, List.forall_mem_singleton.2 ⟨C.absent, C.absent⟩⟩, C.plain rfl ?_⟩
    exact List.forall_mem_cons.2 ⟨uniform "K", List.forall_mem_singleton.2 (array (uniform "T"))⟩
  have asked : t.Uniform α := by
    refine C.plain rfl (List.forall_mem_cons.2 ⟨C.plain rfl ?_, List.forall_mem_singleton.2 ?_⟩)
    · exact List.forall_mem_cons.2 ⟨C.atom rfl, List.forall_mem_singleton.2 (uniform "T")⟩
    · exact C.plain rfl (List.forall_mem_singleton.2 (uniform "T"))
  have reached : Reachable (Call.Uniform α) 5 2 c := .call (.declare labelled) .new declared
  have reached' : Reachable (Call.Uniform α) 5 2 c' := .call (.evaluate t {}) reached ⟨asked, Subst.forall_empty⟩
  have built : Built t := by
    refine Ty.built_plain rfl (List.forall_mem_cons.2 ⟨Ty.built_plain rfl ?_, List.forall_mem_singleton.2 ?_⟩)
    · exact List.forall_mem_cons.2 ⟨Ty.built_atom rfl, List.forall_mem_singleton.2 (Ty.built_param "T")⟩
    · exact Ty.built_plain rfl (List.forall_mem_singleton.2 (Ty.built_param "T"))
  have entries : c.decls.entries = [labelled] := by cbv
  have hygienic : ∀ d ∈ c.decls.entries, Hygienic c.env s.names d := by
    rw [entries]
    exact List.forall_mem_singleton.2 hygienic_labelled
  have value : s.Forall (Value c.env) := fun e he => by
    rw [List.mem_singleton.1 he]
    refine ⟨?_, Evaluate.settled_of_irreducible (by cbv), by cbv⟩
    refine ⟨⟨List.pairwise_singleton _ _, List.forall_mem_singleton.2 (Ty.normal_prim _)⟩, ?_⟩
    exact Ty.inherited_tidy.build rfl (List.forall_mem_singleton.2 (Ty.inherited_tidy.leaf rfl rfl))
  have waits : ∀ lax, Waits c.env s.names s.divided lax t := by
    intro lax
    have apart : ∀ A, Substitute.Named A .string := fun A => (Substitute.inherited_named A).leaf rfl rfl
    refine .frame rfl (List.forall_mem_cons.2 ⟨?_, List.forall_mem_singleton.2 ?_⟩)
    · refine @Waits.expansion _ _ _ lax "Labelled" _ labelled (by cbv) ⟨?_, ?_, ?_, ?_⟩ ?_
      · exact .cons (.inr (.inr ⟨apart _, Ty.built_atom rfl, apart _⟩)) (.cons (.inr (.inl rfl)) .nil)
      · refine List.forall_mem_cons.2 ⟨⟨.apart (apart _) (Evaluate.settled_of_irreducible rfl), (fun h => by cases h), rfl⟩, ?_⟩
        exact List.forall_mem_singleton.2 ⟨.param, (fun h => by injection h), rfl⟩
      · exact List.pairwise_pair.2 fun _ hn => by cases hn
      · refine .row rfl (List.forall_mem_cons.2 ⟨.param, List.forall_mem_singleton.2 (.row rfl ?_)⟩)
        exact List.forall_mem_singleton.2 .param
      · refine .settled (Evaluate.settled_of_irreducible ?_)
        cbv
    · exact .keyOf .param (.settled (Evaluate.settled_of_irreducible rfl))
  have first : (c.evaluate t {}).1 = .ok r := by
    rw [evaluate_of_empty rfl, evaluate_forgetful]
    cbv
  have second : (c.evaluate t s).1 = .ok u := by
    rw [evaluate_binding rfl (by cbv) rfl (by cbv) (by cbv)]
    rw [show t.substitute s = .tuple [.reference "Labelled" [.string, record], .keyOf record] by cbv]
    cbv
  obtain ⟨kept, same⟩ := deferral_faithful reached reached' (evaluated c t {}).steady built asked hygienic value first (by cbv)
  exact ⟨first, second, kept (waits True) u second, same (waits False)⟩

/-- An argument that is a parameter passes every constraint. Once it is bound, nothing is left of the constraint in the
    early result. -/
theorem constraint_forgotten :
    let listed : Declaration := ⟨"Listed", [⟨"P", .string, .absent⟩], .array (.param "P" .absent .absent) false⟩
    let c := (Checker.new 5 2).after (.declare listed)
    let param := Ty.param "T" .absent .absent
    let s : Subst := ⟨[("T", .number)]⟩
    (c.evaluate (.reference "Listed" [param]) {}).1 = .ok (.array param false) ∧
    s.Forall (Value c.env) ∧ (c.evaluate (.array param false) s).1 = .ok (.array .number false) ∧
    (c.evaluate (.reference "Listed" [param]) s).1 = .error (.violation "P" .number .string) := by
  intro listed c param s
  refine ⟨?_, ?_, ?_, ?_⟩
  · rw [evaluate_of_empty rfl, evaluate_forgetful]
    cbv
  · refine fun e he => ?_
    rw [List.mem_singleton.1 he]
    exact ⟨Ty.built_atom rfl, Evaluate.settled_of_irreducible rfl, rfl⟩
  · rw [evaluate_binding rfl (by cbv) rfl (by cbv) (by cbv)]
    rw [show Ty.substitute (.array param false) s = .array .number false by cbv]
    cbv
  · rw [evaluate_binding rfl (by cbv) rfl (by cbv) (by cbv)]
    rw [show Ty.substitute (.reference "Listed" [param]) s = .reference "Listed" [.number] by cbv]
    cbv

end Checker
end TypeCalculus

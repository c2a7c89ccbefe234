import Mathlib
import TypeCalculus.Proofs.Checker.Guard
import TypeCalculus.Proofs.Checker.Mirrored

/-! A higher depth limit changes no result that was computed without cutting a comparison off. The limit is read by
    the nesting of resolutions and by every comparison; where neither stops at it, the evaluation under the higher
    limit takes the same steps from the same state (`Raised`). A remembered result says nothing about how it was computed
    (`recalled_result_unreported`). -/

namespace TypeCalculus
open Assignable (Reported)

namespace Evaluate

theorem not_reported_before {r r' : Resolution} (h : ¬Reported r'.events) (hs : r.events ⊆ r'.events) :
    ¬Reported r.events := by
  rintro ⟨limit, source, target, he⟩
  exact h ⟨limit, source, target, hs he⟩

/-! ### One step under two limits -/

/-- Where the first step gives a result and no comparison was reported to be cut off, the second does the same. -/
structure Raised {α : Type} (Q : α → Prop) (x y : Evaluating α) : Prop where
  holds : ∀ r a, (x.run r).1 = .ok a → Q a
  grows : ∀ r, r.events ⊆ (x.run r).2.events
  same : ∀ r a, (x.run r).1 = .ok a → ¬Reported (x.run r).2.events → y.run r = x.run r

section Raised
variable {α β : Type} {P : α → Prop} {Q : β → Prop} {x y : Evaluating α} {f g : α → Evaluating β}

theorem raised_bind (hx : Raised P x y) (hf : ∀ a, P a → Raised Q (f a) (g a)) : Raised Q (x >>= f) (y >>= g) := by
  refine ⟨fun r b h => ?_, fun r => ?_, fun r b h hn => ?_⟩
  · cases hr : (x.run r).1 with
    | error e =>
      rw [run_bind_error hr] at h
      cases h
    | ok a =>
      rw [run_bind_ok hr] at h
      exact (hf a (hx.holds r a hr)).holds _ b h
  · cases hr : (x.run r).1 with
    | error e =>
      rw [run_bind_error hr]
      exact hx.grows r
    | ok a =>
      rw [run_bind_ok hr]
      exact fun e he => (hf a (hx.holds r a hr)).grows _ (hx.grows r he)
  · cases hr : (x.run r).1 with
    | error e =>
      rw [run_bind_error hr] at h
      cases h
    | ok a =>
      rw [run_bind_ok hr] at h hn ⊢
      have second := hf a (hx.holds r a hr)
      have first := hx.same r a hr (not_reported_before hn (second.grows _))
      rw [run_bind_ok (first ▸ hr), first]
      exact second.same _ b h hn

theorem raised_throw {e : TypeError} : Raised P (throw e) y := ⟨nofun, fun _ => List.Subset.refl _, nofun⟩

theorem Raised.nested (h : Raised P x y) : Raised P (nested x) (nested y) := by
  refine ⟨fun r => h.holds r.enter, fun r => h.grows r.enter, fun r a hr hn => ?_⟩
  rw [run_nested, run_nested, h.same r.enter a hr hn]

theorem Raised.reporting (event : TypeError → Event) (h : Raised P x y) :
    Raised P (reporting event x) (reporting event y) := by
  refine ⟨fun r a hr => ?_, fun r e hm => ?_, fun r a hr hn => ?_⟩
  all_goals obtain ⟨ho, -, he⟩ := run_reporting event x r
  · exact h.holds r a (ho ▸ hr)
  · exact he (h.grows r hm)
  · have same := h.same r a (ho ▸ hr) (not_reported_before hn he)
    dsimp only [Evaluate.reporting, ExceptT.run, ExceptT.mk] at same ⊢
    rw [same]

/-- Both steps start from one state, so they find the same conditionals open. -/
theorem Raised.holding {env env' : Env} (hg : env.guarded = true) (hg' : env'.guarded = true) (h : Raised P x y)
    (c check bound : Ty) : Raised P (holding env c check bound x) (holding env' c check bound y) := by
  refine ⟨fun r a hr => ?_, fun r => ?_, fun r a hr hn => ?_⟩
  · cases hp : r.push? c with
    | none =>
      rw [run_holding_none hp hg] at hr
      cases hr
    | some opened =>
      rw [run_holding_some hp] at hr
      exact h.holds opened a hr
  · cases hp : r.push? c with
    | none =>
      rw [run_holding_none hp hg]
      exact List.Subset.refl _
    | some opened =>
      rw [run_holding_some hp, events_pop, ← (push?_eq_some hp).2]
      exact h.grows opened
  · cases hp : r.push? c with
    | none => rw [run_holding_none hp hg, run_holding_none hp hg']
    | some opened =>
      rw [run_holding_some hp] at hr hn ⊢
      rw [events_pop] at hn
      rw [run_holding_some hp, h.same opened a hr hn]

end Raised

theorem raised_compare {d d' : Nat} (hd : d ≤ d') (anyFits : Bool) (a b : Ty) :
    Raised (fun _ => True) (compare ⟨d, anyFits⟩ a b) (compare ⟨d', anyFits⟩ a b) := by
  refine ⟨fun _ _ _ => trivial, fun r => List.subset_append_right _ _, fun r p _ hn => ?_⟩
  have same : Assignable.run ⟨d', anyFits⟩ a b = Assignable.run ⟨d, anyFits⟩ a b := by
    refine Assignable.run_of_unreported hd fun ⟨limit, source, target, he⟩ => hn ⟨limit, source, target, ?_⟩
    exact List.mem_append_left _ he
  unfold compare
  rw [same]

/-- Steps under a limit and under a higher one. -/
def raising {env env' : Env} (hl : env.limit ≤ env'.limit) : Paired (fun _ => True) env env' where
  All := Raised
  pure h := ⟨fun r a e => by cases e; exact h, fun _ => List.Subset.refl _, fun _ _ _ _ => rfl⟩
  bind := raised_bind
  throw _ := raised_throw
  tell _ := ⟨fun _ _ _ => trivial, fun _ => List.subset_cons_self _ _, fun _ _ _ _ => rfl⟩
  compare {a b} anyFits _ _ := by
    have := raised_compare hl anyFits a b
    exact ⟨fun _ _ _ _ _ => trivial, this.grows, this.same⟩
  reporting event h := h.reporting event

/-! ### Whole evaluations -/

section Reduce
variable {env env' : Env} (decls : env'.decls = env.decls) (hg : env.guarded = true) (hg' : env'.guarded = true)
  (hl : env.limit ≤ env'.limit)
include decls hg hg' hl

/-- An evaluation that comes to a result in some room comes to it in more room. -/
theorem raised_reduce {room room' : Nat} (hr : room ≤ room') (t : Ty) :
    Raised (fun _ => True) (reduce env room t) (reduce env' room' t) := by
  let L := raising hl
  have forall_true : env.decls.Forall fun _ => True := fun _ _ => ⟨fun _ _ => ⟨trivial, trivial⟩, trivial⟩
  induction room generalizing room' t with
  | zero =>
    cases hred : isReducible env t with
    | false => exact L.irreducible decls trivial hred 0 room'
    | true =>
      rw [reduce_zero hred]
      exact raised_throw
  | succ room ih =>
    cases hred : isReducible env t with
    | false => exact L.irreducible decls trivial hred (room + 1) room'
    | true =>
      obtain ⟨more, rfl⟩ : ∃ more, room' = more + 1 := ⟨room' - 1, by omega⟩
      have part : ∀ u : Ty, L.All (fun _ => True) (reduce env room u) (reduce env' more u) := ih (by omega)
      rw [reduce_succ hred, reduce_succ ((isReducible_of_decls decls t).trans hred)]
      refine Raised.nested ?_
      exact @Paired.anyStep _ _ _ L Ty.carried_true (reduce env room) (reduce env' more) (fun _ => part _) decls forall_true
        (fun c check bound h => Raised.holding hg hg' h c check bound) t trivial

theorem raised_evaluateFresh (t : Ty) (s : Subst) :
    Raised (fun _ => True) (Checker.evaluateFresh env t s) (Checker.evaluateFresh env' t s) :=
  (raising hl).evaluateFresh Ty.carried_true (fun {u} _ => raised_reduce decls hg hg' hl hl u) trivial fun _ _ => trivial

end Reduce
end Evaluate

namespace Checker

/-- An evaluation whose answer is not known yet comes to that of its run and adds its events. -/
theorem evaluate_of_fresh {c : Checker} {t : Ty} {s : Subst} (fresh : c.Fresh t s) :
    (c.evaluate t s).1 = ((evaluateFresh c.env t s).run {}).1 ∧
      (c.evaluate t s).2.events = ((evaluateFresh c.env t s).run {}).2.events ++ c.events := by
  unfold evaluate
  rw [fresh.valid]
  dsimp only
  have unknown := fresh.unknown
  have keeps := keeps_remembered c ⟨.evaluate, t.hash, s.hash⟩ t s.toTy
  have events := events_remembered c ⟨.evaluate, t.hash, s.hash⟩ t s.toTy
  generalize c.remembered ⟨.evaluate, t.hash, s.hash⟩ t s.toTy = looked at unknown keeps events ⊢
  obtain ⟨_ | e, c'⟩ := looked
  · dsimp only [evaluating] at keeps events ⊢
    rw [← keeps.env, ← events]
    generalize (evaluateFresh c'.env t s).run {} = out
    obtain ⟨_ | _, r'⟩ := out <;> exact ⟨rfl, rfl⟩
  · cases unknown

/-- A known answer is given and adds no event. -/
theorem evaluate_of_known {c : Checker} {t : Ty} {s : Subst} {e : MemoEntry} (valid : t.validate = .ok ())
    (known : (c.remembered ⟨.evaluate, t.hash, s.hash⟩ t s.toTy).1 = some e) :
    (c.evaluate t s).1 = .ok e.result ∧ (c.evaluate t s).2.events = c.events := by
  unfold evaluate
  rw [valid]
  dsimp only
  have events := events_remembered c ⟨.evaluate, t.hash, s.hash⟩ t s.toTy
  generalize c.remembered ⟨.evaluate, t.hash, s.hash⟩ t s.toTy = looked at known events ⊢
  obtain ⟨_ | e', c'⟩ := looked
  · cases known
  · cases known
    exact ⟨rfl, events⟩

/-- Raising the depth limit changes no result: what an evaluation computes without reporting a comparison that was cut off is
    given under every higher limit, by checkers with the same declarations, whatever they were asked before. A result that is
    remembered there may differ in what is written beside parameters. -/
theorem higher_limit_same_result {c c' : Checker} {limit cacheSize : Int} (hc' : Reachable (fun _ => True) limit cacheSize c')
    (decls : c'.decls = c.decls) (hl : c.limit ≤ c'.limit) {t r : Ty} {s : Subst} {reported : List Event}
    (fresh : c.Fresh t s) (h : (c.evaluate t s).1 = .ok r) (hevents : (c.evaluate t s).2.events = reported ++ c.events)
    (hn : ¬Reported reported) :
    ∃ r', (c'.evaluate t s).1 = .ok r' ∧ r'.identical r = true ∧ (c'.Fresh t s → r' = r) := by
  obtain ⟨hrun, hadded⟩ := evaluate_of_fresh fresh
  rw [hadded] at hevents
  rw [hrun] at h
  have unreported : ¬Reported ((evaluateFresh c.env t s).run {}).2.events := by
    rwa [List.append_cancel_right hevents]
  have same := (@Evaluate.raised_evaluateFresh c.env c'.env decls rfl rfl hl t s).same {} r h unreported
  have raised : ((evaluateFresh c'.env t s).run {}).1 = .ok r := by rw [same, h]
  have anew : (c'.forgetful.evaluate t s).1 = .ok r := by
    rw [evaluate_forgetful, fresh.valid]
    exact raised
  rcases evaluate_anew hc'.sound t s with computed | ⟨r', r'', hr', hr'', hi⟩
  · exact ⟨r, computed.trans anew, Ty.identical_refl r, fun _ => rfl⟩
  · cases hr''.symm.trans anew
    refine ⟨r', hr', hi, fun fresh' => ?_⟩
    exact Except.ok.inj (hr'.symm.trans ((evaluate_of_fresh fresh').1.trans raised))

/-- A declared name whose argument has to be assignable to a constraint. -/
theorem higher_limit_same_result_box :
    let box : Declaration := ⟨"Box", [⟨"T", .string, .absent⟩], .array (.param "T" .absent .absent) false⟩
    let c := (Checker.new 5 2).after (.declare box)
    let c' := ((Checker.new 9 1).after (.declare box)).after (.evaluate (.reference "Box" [.never]) {})
    let t := Ty.reference "Box" [.string]
    (c.evaluate t {}).1 = .ok (.array .string false) ∧
      ∃ r', (c'.evaluate t {}).1 = .ok r' ∧ r'.identical (.array .string false) = true := by
  intro box c c' t
  have fresh : c.Fresh t {} := ⟨by cbv, Option.isNone_iff_eq_none.1 (by decide +kernel)⟩
  have reached : Reachable (fun _ => True) 9 1 c' := .call _ (.call _ .new trivial) trivial
  have given : (c.evaluate t {}).1 = .ok (.array .string false) := by
    rw [(evaluate_of_fresh fresh).1]
    cbv
  have added := (evaluate_of_fresh fresh).2
  have reported : ((evaluateFresh c.env t {}).run {}).2.events = [.expanding "Box" ⟨[("T", .string)]⟩] := by cbv
  rw [reported] at added
  have steady := (evaluated ((Checker.new 9 1).after (.declare box)) (.reference "Box" [.never]) {}).steady
  have decls : c'.decls = c.decls := steady.decls.trans (by cbv)
  have limits : c.limit ≤ c'.limit := steady.limit.symm ▸ (by decide : 5 ≤ 9)
  obtain ⟨r', hr', hi, -⟩ := higher_limit_same_result reached decls limits fresh given added (by simp [Reported])
  exact ⟨given, r', hr', hi⟩

/-- Whether a tuple of a literal is a tuple of a string, which is decided by comparing their elements. -/
def nestedComparison : Ty := .conditional (.tuple [Ty.stringLit "a"]) (.tuple [.string]) (Ty.stringLit "yes") (Ty.stringLit "no") false

def isText (text : String) : Ty → Bool
  | .literal .string s => s = text
  | _ => false

theorem eq_of_isText {text : String} {t : Ty} (h : isText text t = true) : t = Ty.stringLit text := by
  unfold isText at h
  split at h
  · rw [of_decide_eq_true h]
    rfl
  · cases h

def isConstrained : Ty → Bool
  | .param "T" (.prim .string) .absent => true
  | _ => false

theorem eq_of_isConstrained {t : Ty} (h : isConstrained t = true) : t = .param "T" .string .absent := by
  unfold isConstrained at h
  split at h
  · rfl
  · cases h

/-- A remembered result is given without a report, though comparisons were cut off when it was computed and it is not given
    under a higher limit; and under the higher limit a remembered result may bring the annotations of another type. -/
theorem recalled_result_unreported :
    let c := (Checker.new 1 0).after (.evaluate nestedComparison {})
    let c' := (Checker.new 5 0).after (.evaluate (.param "T" .string .absent) {})
    let t := Ty.param "T" .absent .absent
    ((c.evaluate nestedComparison {}).1 = .ok (Ty.stringLit "no") ∧ (c.evaluate nestedComparison {}).2.events = c.events ∧
      (c'.evaluate nestedComparison {}).1 = .ok (Ty.stringLit "yes")) ∧
    (c.evaluate t {}).1 = .ok t ∧ (c.evaluate t {}).2.events = c.events ∧
      (c'.evaluate t {}).1 = .ok (.param "T" .string .absent) := by
  intro c c' t
  have recalled (c : Checker) (t : Ty) (is : Ty → Bool) (valid : t.validate = .ok ())
      (h : (c.remembered ⟨.evaluate, t.hash, Subst.hash {}⟩ t (Subst.toTy {})).1.any (is ·.result) = true) :
      ∃ r, is r = true ∧ (c.evaluate t {}).1 = .ok r ∧ (c.evaluate t {}).2.events = c.events := by
    obtain ⟨e, he, hr⟩ := (Option.any_eq_true ..).1 h
    exact ⟨e.result, hr, evaluate_of_known valid he⟩
  have computed : ((evaluateFresh c'.env nestedComparison {}).run {}).1.toOption.any (isText "yes") = true := by decide +kernel
  have fresh : c.Fresh t {} := ⟨rfl, Option.isNone_iff_eq_none.1 (by decide +kernel)⟩
  have fresh' : c'.Fresh nestedComparison {} := ⟨rfl, Option.isNone_iff_eq_none.1 (by decide +kernel)⟩
  refine ⟨?_, ?_⟩
  · obtain ⟨r, no, result, events⟩ := recalled c nestedComparison (isText "no") rfl (by decide +kernel)
    obtain ⟨u, hu, yes⟩ := (Option.any_eq_true ..).1 computed
    refine ⟨eq_of_isText no ▸ result, events, ?_⟩
    rw [(evaluate_of_fresh fresh').1, Ty.eq_ok_of_toOption hu, eq_of_isText yes]
  · obtain ⟨r, constrained, result, -⟩ := recalled c' t isConstrained rfl (by decide +kernel)
    obtain ⟨value, events⟩ := evaluate_of_fresh fresh
    have env : c.env = (Checker.new 1 0).env := (evaluated (Checker.new 1 0) nestedComparison {}).steady.env
    rw [env] at value events
    exact ⟨value, events, eq_of_isConstrained constrained ▸ result⟩

end Checker
end TypeCalculus

import TypeCalculus.Proofs.Evaluate.Guard
import TypeCalculus.Proofs.Evaluate.Settled

/-! What a type comes to does not depend on the room and on the conditionals that are open, as long as neither stops
    the evaluation: two evaluations of a type concur (`concur_reduce`). So a type comes to at most one result
    (`Comes.unique`), and a settled one to itself (`run_settled`). -/

namespace TypeCalculus.Evaluate
open Ty (Normal)

/-- The evaluation was stopped: it nests too deep or meets a conditional again. -/
def Stopped {α : Type} (outcome : Except TypeError α) : Prop := TooDeep outcome ∨ Cyclic outcome

/-- The evaluation was stopped, or it failed and failures are let pass. -/
def Excused {α : Type} (lax : Prop) (outcome : Except TypeError α) : Prop := Stopped outcome ∨ lax ∧ ∃ e, outcome = .error e

theorem not_excused_ok {α : Type} {a : α} {lax : Prop} : ¬Excused lax (.ok a : Except TypeError α) := by
  rintro ((⟨_, _, h⟩ | ⟨_, _, h⟩) | ⟨-, _, h⟩) <;> cases h

theorem not_stopped_ok {α : Type} {a : α} : ¬Stopped (.ok a : Except TypeError α) := fun h =>
  @not_excused_ok α a False (.inl h)

theorem Excused.stopped {α : Type} {outcome : Except TypeError α} (h : Excused False outcome) : Stopped outcome :=
  h.resolve_right fun h => h.1

/-- The steps have one outcome, from whatever states, unless the failure of one of them is excused. -/
def Concur {α : Type} (lax lax' : Prop) (Q : α → Prop) (x y : Evaluating α) : Prop :=
  ∀ r r', Excused lax (x.run r).1 ∨ Excused lax' (y.run r').1 ∨
    (x.run r).1 = (y.run r').1 ∧ ∀ a, (x.run r).1 = .ok a → Q a

section Concur
variable {lax lax' : Prop} {α β : Type} {P : α → Prop} {Q : β → Prop} {x y : Evaluating α} {f g : α → Evaluating β}
  {r : Resolution}

theorem Stopped.bind (h : Stopped (x.run r).1) : Stopped ((x >>= f).run r).1 := by
  rcases h with h | ⟨check, bound, h⟩
  · exact .inl h.bind
  · rw [run_bind_error h]
    exact .inr ⟨check, bound, rfl⟩

theorem Excused.bind (h : Excused lax (x.run r).1) : Excused lax ((x >>= f).run r).1 := by
  rcases h with h | ⟨hl, e, h⟩
  · exact .inl h.bind
  · rw [run_bind_error h]
    exact .inr ⟨hl, e, rfl⟩

theorem concur_pure {a : α} (h : P a) : Concur lax lax' P (pure a) (pure a) := by
  refine fun _ _ => .inr (.inr ⟨rfl, fun b hb => ?_⟩)
  cases hb
  exact h

theorem concur_bind (hx : Concur lax lax' P x y) (hf : ∀ a, P a → Concur lax lax' Q (f a) (g a)) :
    Concur lax lax' Q (x >>= f) (y >>= g) := by
  intro r r'
  rcases hx r r' with h | h | ⟨he, hp⟩
  · exact .inl h.bind
  · exact .inr (.inl h.bind)
  · cases ho : (x.run r).1 with
    | error e =>
      rw [run_bind_error ho, run_bind_error (he ▸ ho)]
      exact .inr (.inr ⟨rfl, fun _ h => by cases h⟩)
    | ok a =>
      rw [run_bind_ok ho, run_bind_ok (he ▸ ho)]
      exact hf a (hp a ho) _ _

theorem concur_throw {e : TypeError} : Concur lax lax' P (throw e) (throw e) := fun _ _ => .inr (.inr ⟨rfl, nofun⟩)

theorem concur_tooDeep (limit : Nat) (t : Ty) : Concur lax lax' P (throw (.tooDeep limit t)) y :=
  fun _ _ => .inl (.inl (.inl ⟨limit, t, rfl⟩))

theorem Concur.symm (h : Concur lax lax' P x y) : Concur lax' lax P y x := by
  intro r r'
  rcases h r' r with hs | hs | ⟨he, hp⟩
  · exact .inr (.inl hs)
  · exact .inl hs
  · exact .inr (.inr ⟨he.symm, fun a ha => hp a (he.trans ha)⟩)

theorem Concur.imp {P' : α → Prop} (h : Concur lax lax' P x y) (hp : ∀ a, P a → P' a) : Concur lax lax' P' x y :=
  fun r r' => (h r r').imp_right fun h => h.imp_right fun h => ⟨h.1, fun a ha => hp a (h.2 a ha)⟩

/-- What a step gives from some state, whatever concurs with it gives as well. -/
theorem Concur.of_ok {a : α} (h : Concur False lax' P x y) (hx : (x.run r).1 = .ok a) : Concur lax lax' (· = a) (pure a) y := by
  intro r₀ r'
  rcases h r r' with hs | hs | ⟨he, -⟩
  · rw [hx] at hs
    exact absurd hs not_excused_ok
  · exact .inr (.inl hs)
  · exact .inr (.inr ⟨hx.symm.trans he, fun b hb => (Except.ok.inj hb).symm⟩)

/-- Where failures are let pass, a check may be left out. -/
theorem concur_unchecked {check : Evaluating Unit} (hl : lax') : Concur lax lax' (fun _ => True) (pure ()) check := by
  intro r r'
  cases h : (check.run r').1 with
  | ok => exact .inr (.inr ⟨rfl, fun _ _ => trivial⟩)
  | error e => exact .inr (.inl (.inr ⟨hl, e, rfl⟩))

theorem Concur.nested (h : Concur lax lax' P x y) : Concur lax lax' P (nested x) (nested y) := fun r r' => h r.enter r'.enter

theorem Concur.reporting (event : TypeError → Event) (h : Concur lax lax' P x y) :
    Concur lax lax' P (reporting event x) (reporting event y) := by
  intro r r'
  rw [(run_reporting event x r).1, (run_reporting event y r').1]
  exact h r r'

theorem Concur.holding {env : Env} (h : Concur lax lax' P x y) (c c' check check' bound bound' : Ty) :
    Concur lax lax' P (holding env c check bound x) (holding env c' check' bound' y) := by
  intro r r'
  rcases run_holding env c check bound x r with ⟨opened, -, -, hx⟩ | ⟨-, -, hx⟩
  · rcases run_holding env c' check' bound' y r' with ⟨opened', -, -, hy⟩ | ⟨-, -, hy⟩
    · rw [hx, hy]
      exact h opened opened'
    · rw [hy]
      exact .inr (.inl (.inl (.inr ⟨_, _, rfl⟩)))
  · rw [hx]
    exact .inl (.inl (.inr ⟨_, _, rfl⟩))

end Concur

/-! ### Two evaluations of one type -/

section Reduce
variable {lax lax' : Prop} {env : Env}

def concurring (lax lax' : Prop) (env : Env) : Paired (fun _ => True) env env where
  All := Concur lax lax'
  pure := concur_pure
  bind := concur_bind
  throw _ := concur_throw
  tell _ := fun _ _ => .inr (.inr ⟨rfl, fun _ _ => trivial⟩)
  compare _ _ _ := fun _ _ => .inr (.inr ⟨rfl, fun _ _ _ _ => trivial⟩)
  reporting event h := h.reporting event

theorem forall_true (env : Env) : env.decls.Forall fun _ => True := fun _ _ => ⟨fun _ _ => ⟨trivial, trivial⟩, trivial⟩

/-- Two evaluations of a type have one outcome, in whatever rooms. -/
theorem concur_reduce (room room' : Nat) (t : Ty) :
    Concur lax lax' (fun _ => True) (reduce env room t) (reduce env room' t) := by
  let L := concurring lax lax' env
  induction room generalizing room' t with
  | zero =>
    cases hr : isReducible env t with
    | false => exact L.irreducible rfl trivial hr 0 room'
    | true =>
      rw [reduce_zero hr]
      exact concur_tooDeep _ _
  | succ room ih =>
    cases hr : isReducible env t with
    | false => exact L.irreducible rfl trivial hr (room + 1) room'
    | true =>
      rw [reduce_succ hr]
      cases room' with
      | zero =>
        rw [reduce_zero hr]
        exact (concur_tooDeep _ _).symm
      | succ room' =>
        rw [reduce_succ hr]
        refine Concur.nested ?_
        exact @Paired.anyStep _ _ _ L Ty.carried_true (reduce env room) (reduce env room') (fun _ => ih room' _) rfl
          (forall_true env) (fun c check bound h => Concur.holding h c c check check bound bound) t trivial

/-- The type comes to a result, in some room and from some state. -/
def Comes (env : Env) (t u : Ty) : Prop := ∃ room r, ((reduce env room t).run r).1 = .ok u

theorem yields_comes (room : Nat) (t : Ty) : Yields (Comes env t) (reduce env room t) := fun r _ h => ⟨room, r, h⟩

/-- Where a type comes to a result, every evaluation of it has that result or is stopped. -/
theorem Comes.run {t u : Ty} (h : Comes env t u) (room : Nat) (r : Resolution) :
    ((reduce env room t).run r).1 = .ok u ∨ Stopped ((reduce env room t).run r).1 := by
  obtain ⟨room', r', h⟩ := h
  rcases @concur_reduce False False env room room' t r r' with hs | hs | ⟨he, -⟩
  · exact .inr hs.stopped
  · rw [h] at hs
    exact absurd hs not_excused_ok
  · exact .inl (he.trans h)

theorem Comes.unique {t u v : Ty} (hu : Comes env t u) (hv : Comes env t v) : u = v := by
  obtain ⟨room, r, hv⟩ := hv
  rcases hu.run room r with he | hs
  · exact Except.ok.inj (he.symm.trans hv)
  · rw [hv] at hs
    exact absurd hs not_stopped_ok

/-- Evaluations of two types that come to one result concur. -/
theorem concur_of_run {t t' u : Ty} {room room' : Nat}
    (h : ∀ r, ((reduce env room t).run r).1 = .ok u ∨ Stopped ((reduce env room t).run r).1)
    (h' : ∀ r, ((reduce env room' t').run r).1 = .ok u ∨ Stopped ((reduce env room' t').run r).1) :
    Concur lax lax' (fun _ => True) (reduce env room t) (reduce env room' t') := by
  intro r r'
  rcases h r with h | h
  · rcases h' r' with h' | h'
    · exact .inr (.inr ⟨h.trans h'.symm, fun _ _ => trivial⟩)
    · exact .inr (.inl (.inl h'))
  · exact .inl (.inl h)

/-! ### Settled types -/

/-- What a step gives that is not stopped. -/
def unstopped : Results Evaluating where
  All P x := ∀ r, (∃ a, (x.run r).1 = .ok a ∧ P a) ∨ Stopped (x.run r).1
  pure h _ := .inl ⟨_, rfl, h⟩
  bind {_ _ _ _ x f} hx hf r := by
    rcases hx r with ⟨a, ha, hp⟩ | hs
    · rw [run_bind_ok ha]
      exact hf a hp _
    · exact .inr hs.bind

theorem admits_unstopped (env : Env) : Admits env fun _ => unstopped where
  mono _ h := h
  tooDeep _ limit t := fun _ => .inr (.inl ⟨limit, t, rfl⟩)
  nested h r := h r.enter
  holding {_ _ x _ c check bound} _ h r := by
    rcases run_holding env c check bound x r with ⟨opened, -, -, he⟩ | ⟨-, -, he⟩
    · rw [he]
      exact h opened
    · rw [he]
      exact .inr (.inr ⟨_, _, rfl⟩)

/-- A settled type evaluates to itself from every state, unless the evaluation is stopped. -/
theorem run_settled {t : Ty} (hn : Normal t) (hs : Settled env t) (room : Nat) (r : Resolution) :
    ((reduce env room t).run r).1 = .ok t ∨ Stopped ((reduce env room t).run r).1 := by
  rcases (admits_unstopped env).reduce room hn hs r with ⟨u, hu, rfl⟩ | h
  · exact .inl hu
  · exact .inr h

theorem Comes.of_settled {t u : Ty} (h : Comes env t u) (hn : Normal t) (hs : Settled env t) : u = t := by
  obtain ⟨room, r, h⟩ := h
  rcases run_settled hn hs room r with he | hstop
  · exact Except.ok.inj (h.symm.trans he)
  · rw [h] at hstop
    exact absurd hstop not_stopped_ok

theorem Comes.settled {t u : Ty} (h : Comes env t u) : Settled env u := by
  obtain ⟨room, r, h⟩ := h
  exact settled_reduce room t r u h

end Reduce
end TypeCalculus.Evaluate

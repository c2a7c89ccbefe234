import TypeCalculus.Proofs.Assignable.DepthLimit
import TypeCalculus.Proofs.Evaluate.Paired
import TypeCalculus.Proofs.Evaluate.Runs
import TypeCalculus.Proofs.Ty.Annotated

/-! The guard against cycles changes no answer. An evaluation without the guard gives what one with the guard gives, or
    nests too deep (`Agree`); where the guard refuses a conditional, the evaluation without it nests too deep at every
    limit (`Guards`). For a conditional that is met again replays the steps that led back to it: if some room were
    enough for it, less room would be enough as well. -/

namespace TypeCalculus.Evaluate
open Ty (Carried Uniform)
open Assignable (Reported)

/-! ### Outcomes -/

def TooDeep {α : Type} (outcome : Except TypeError α) : Prop := ∃ limit t, outcome = .error (.tooDeep limit t)

def Cyclic {α : Type} (outcome : Except TypeError α) : Prop := ∃ check bound, outcome = .error (.cycle check bound)

theorem TooDeep.bind {α β : Type} {x : Evaluating α} {f : α → Evaluating β} {r : Resolution} (h : TooDeep (x.run r).1) :
    TooDeep ((x >>= f).run r).1 := by
  obtain ⟨limit, t, he⟩ := h
  rw [run_bind_error he]
  exact ⟨limit, t, rfl⟩

/-- Comparisons under two limits agree as far as they were made: the limits are the same, or the second is higher and
    no comparison was reported to be cut off. -/
def Clean (d d' : Nat) (r : Resolution) : Prop := d' = d ∨ d ≤ d' ∧ ¬Reported r.events

theorem Clean.before {d d' : Nat} {r r' : Resolution} (h : Clean d d' r') (hs : r.events ⊆ r'.events) : Clean d d' r := by
  refine h.imp_right fun ⟨hd, hr⟩ => ⟨hd, ?_⟩
  rintro ⟨limit, source, target, he⟩
  exact hr ⟨limit, source, target, hs he⟩

/-! ### Results without the guard -/

/-- What the first step gives the second gives as well, from any state, unless it nests too deep. -/
structure Agree (d d' : Nat) {α : Type} (Q : α → Prop) (x y : Evaluating α) : Prop where
  holds : ∀ r a, (x.run r).1 = .ok a → Q a
  restores : ∀ r a, (x.run r).1 = .ok a → (x.run r).2.stack = r.stack
  grows : ∀ r, r.events ⊆ (x.run r).2.events
  agrees : ∀ r r' a, Clean d d' (x.run r).2 → (x.run r).1 = .ok a → (y.run r').1 = .ok a ∨ TooDeep (y.run r').1

section Agree
variable {d d' : Nat} {α β : Type} {P : α → Prop} {Q : β → Prop} {x y : Evaluating α} {f g : α → Evaluating β}

theorem agree_bind (hx : Agree d d' P x y) (hf : ∀ a, P a → Agree d d' Q (f a) (g a)) :
    Agree d d' Q (x >>= f) (y >>= g) := by
  -- What the second step was started with and left behind, if it is reached.
  have next : ∀ {r b}, ((x >>= f).run r).1 = .ok b → ∃ a, (x.run r).1 = .ok a ∧ ((f a).run (x.run r).2).1 = .ok b ∧
      (x >>= f).run r = (f a).run (x.run r).2 := by
    intro r b h
    cases hr : (x.run r).1 with
    | error e =>
      rw [run_bind_error hr] at h
      cases h
    | ok a =>
      rw [run_bind_ok hr] at h
      exact ⟨a, rfl, h, run_bind_ok hr⟩
  refine ⟨fun r b h => ?_, fun r b h => ?_, fun r => ?_, fun r r' b hc h => ?_⟩
  · obtain ⟨a, ha, hb, -⟩ := next h
    exact (hf a (hx.holds r a ha)).holds _ b hb
  · obtain ⟨a, ha, hb, he⟩ := next h
    rw [he, (hf a (hx.holds r a ha)).restores _ b hb, hx.restores r a ha]
  · cases hr : (x.run r).1 with
    | error e =>
      rw [run_bind_error hr]
      exact hx.grows r
    | ok a =>
      rw [run_bind_ok hr]
      exact fun e he => (hf a (hx.holds r a hr)).grows _ (hx.grows r he)
  · obtain ⟨a, ha, hb, he⟩ := next h
    rw [he] at hc
    have hfa := hf a (hx.holds r a ha)
    rcases hx.agrees r r' a (hc.before (hfa.grows _)) ha with hy | hy
    · rw [run_bind_ok hy]
      exact hfa.agrees _ _ b hc hb
    · exact Or.inr hy.bind

/-- A step that nests too deep may take the place of the second. -/
theorem Agree.of_tooDeep (h : Agree d d' P x y) {y' : Evaluating α} (hy : ∀ r, TooDeep (y'.run r).1) :
    Agree d d' P x y' :=
  ⟨h.holds, h.restores, h.grows, fun _ r' _ _ _ => Or.inr (hy r')⟩

/-- A step that gives nothing and changes nothing. -/
theorem agree_throw {e : TypeError} : Agree d d' P (throw e) y :=
  ⟨nofun, nofun, fun _ => List.Subset.refl _, nofun⟩

theorem Agree.nested (h : Agree d d' P x y) : Agree d d' P (nested x) (nested y) :=
  ⟨fun r => h.holds r.enter, fun r => h.restores r.enter, fun r => h.grows r.enter,
    fun r r' => h.agrees r.enter r'.enter⟩

theorem Agree.reporting (event : TypeError → Event) (h : Agree d d' P x y) :
    Agree d d' P (reporting event x) (reporting event y) := by
  refine ⟨fun r a hr => ?_, fun r a hr => ?_, fun r => ?_, fun r r' a hc hr => ?_⟩
  all_goals obtain ⟨ho, hs, he⟩ := run_reporting event x r
  · exact h.holds r a (ho ▸ hr)
  · rw [hs]
    exact h.restores r a (ho ▸ hr)
  · exact fun e hm => he (h.grows r hm)
  · rw [(run_reporting event y r').1]
    exact h.agrees r r' a (hc.before he) (ho ▸ hr)

/-- Without the guard a conditional is always entered. -/
theorem run_holding_unguarded {env : Env} (hg : env.guarded = false) (c check bound : Ty) (x : Evaluating α)
    (r : Resolution) : ∃ opened, ((holding env c check bound x).run r).1 = (x.run opened).1 := by
  rcases run_holding env c check bound x r with ⟨opened, -, -, he⟩ | ⟨hg', -⟩
  · exact ⟨opened, by rw [he]⟩
  · rw [hg] at hg'
    cases hg'

theorem Agree.holding {env env' : Env} (hg : env'.guarded = false) (h : Agree d d' P x y) (c check bound : Ty) :
    Agree d d' P (holding env c check bound x) (holding env' c check bound y) := by
  refine ⟨fun r a hr => ?_, fun r a hr => ?_, fun r => ?_, fun r r' a hc hr => ?_⟩
  all_goals rcases run_holding env c check bound x r with ⟨opened, hs, he, hrun⟩ | ⟨-, -, hrun⟩
  · rw [hrun] at hr
    exact h.holds opened a hr
  · rw [hrun] at hr
    cases hr
  · rw [hrun] at hr ⊢
    exact stack_pop ((h.restores opened a hr).trans hs)
  · rw [hrun] at hr
    cases hr
  · rw [hrun]
    dsimp only
    rw [events_pop, ← he]
    exact h.grows opened
  · rw [hrun]
    exact List.Subset.refl _
  · rw [hrun] at hr hc
    obtain ⟨opened', hy⟩ := run_holding_unguarded hg c check bound y r'
    rw [hy]
    exact h.agrees opened opened' a (hc.before (by rw [events_pop]; exact List.Subset.refl _)) hr
  · rw [hrun] at hr
    cases hr

end Agree

/-- Comparisons in two evaluations agree where none is cut off. -/
theorem agree_compare {P : Ty → Prop} (C : Carried P) {d d' : Nat} (anyFits : Bool) {a b : Ty} (ha : P a) (hb : P b) :
    Agree d d' (fun p : Bool × Subst => p.2.Forall P) (compare ⟨d, anyFits⟩ a b) (compare ⟨d', anyFits⟩ a b) := by
  refine ⟨fun r p h => ?_, fun r p h => rfl, fun r => List.subset_append_right _ _, fun r r' p hc h => ?_⟩
  · cases h
    exact Assignable.carried_captures C _ ha hb
  · have same : Assignable.run ⟨d', anyFits⟩ a b = Assignable.run ⟨d, anyFits⟩ a b := by
      rcases hc with rfl | ⟨hd, hc⟩
      · rfl
      · refine Assignable.run_of_unreported hd fun ⟨limit, source, target, he⟩ => hc ⟨limit, source, target, ?_⟩
        exact List.mem_append_left _ he
    refine Or.inl (Eq.trans ?_ h)
    change Except.ok ((Assignable.run ⟨d', anyFits⟩ a b).1, (Assignable.run ⟨d', anyFits⟩ a b).2.captures) = _
    rw [same]
    rfl

def agreeing {P : Ty → Prop} (C : Carried P) (env env' : Env) : Paired P env env' where
  All Q x y := Agree env.limit env'.limit Q x y
  pure h := ⟨fun r a e => by cases e; exact h, fun _ _ _ => rfl, fun _ => List.Subset.refl _, fun _ _ _ _ e => Or.inl e⟩
  bind := agree_bind
  throw _ := agree_throw
  tell _ := ⟨fun _ _ _ => trivial, fun _ _ _ => rfl, fun _ => List.subset_cons_self _ _, fun _ _ _ _ e => Or.inl e⟩
  compare anyFits ha hb := agree_compare C anyFits ha hb
  reporting event h := h.reporting event

/-! ### Whole evaluations -/

section Reduce
variable {P : Ty → Prop} (C : Carried P) {env env' : Env} (decls : env'.decls = env.decls) (hd : env.decls.Forall P)
  (hg : env'.guarded = false)
include decls

theorem isReducible_of_decls (t : Ty) : isReducible env' t = isReducible env t := by
  unfold isReducible
  rw [decls]

theorem Paired.irreducible (L : Paired P env env') {t : Ty} (ht : P t) (h : isReducible env t = false) (room room' : Nat) :
    L.All P (reduce env room t) (reduce env' room' t) := by
  rw [reduce_irreducible h, reduce_irreducible ((isReducible_of_decls decls t).trans h)]
  exact L.pure ht

include C hd hg

/-- What an evaluation with the guard gives is given without it, in whatever room is enough. -/
theorem agree_reduce (room room' : Nat) {t : Ty} (ht : P t) :
    Agree env.limit env'.limit P (reduce env room t) (reduce env' room' t) := by
  let L := agreeing C env env'
  induction room generalizing room' t with
  | zero =>
    cases hr : isReducible env t with
    | false => exact L.irreducible decls ht hr 0 room'
    | true =>
      rw [reduce_zero hr]
      exact agree_throw
  | succ room ih =>
    cases hr : isReducible env t with
    | false => exact L.irreducible decls ht hr (room + 1) room'
    | true =>
      have hr' := (isReducible_of_decls decls t).trans hr
      have step : ∀ room', Agree env.limit env'.limit P (nested (reduceStep env (reduce env room) t))
          (nested (reduceStep env' (reduce env' room') t)) := by
        intro room'
        refine Agree.nested ?_
        exact @Paired.anyStep _ _ _ L C (reduce env room) (reduce env' room') (ih room') decls hd
          (fun c check bound h => Agree.holding hg h c check bound) t ht
      rw [reduce_succ hr]
      cases room' with
      | zero =>
        rw [reduce_zero hr']
        exact (step 0).of_tooDeep fun r => ⟨_, _, rfl⟩
      | succ room' =>
        rw [reduce_succ hr']
        exact step room'

end Reduce

/-! ### Results with the guard -/

/-- What the second step gives the first gives as well, from any state, unless it meets a conditional again. -/
def Follows {α : Type} (Q : α → Prop) (x y : Evaluating α) : Prop :=
  ∀ r r' a, (y.run r').1 = .ok a → (x.run r).1 = .ok a ∧ Q a ∨ Cyclic (x.run r).1

section Follows
variable {α β : Type} {P : α → Prop} {Q : β → Prop} {x y : Evaluating α} {f g : α → Evaluating β}

theorem follows_bind (hx : Follows P x y) (hf : ∀ a, P a → Follows Q (f a) (g a)) : Follows Q (x >>= f) (y >>= g) := by
  intro r r' b h
  cases hy : (y.run r').1 with
  | error e =>
    rw [run_bind_error hy] at h
    cases h
  | ok a =>
    rw [run_bind_ok hy] at h
    rcases hx r r' a hy with ⟨ha, hp⟩ | ⟨check, bound, he⟩
    · rw [run_bind_ok ha]
      exact hf a hp _ _ b h
    · rw [run_bind_error he]
      exact Or.inr ⟨check, bound, rfl⟩

theorem Follows.nested (h : Follows P x y) : Follows P (nested x) (nested y) := fun r r' => h r.enter r'.enter

theorem Follows.reporting (event : TypeError → Event) (h : Follows P x y) :
    Follows P (reporting event x) (reporting event y) := by
  intro r r' a hy
  rw [(run_reporting event y r').1] at hy
  rw [(run_reporting event x r).1]
  exact h r r' a hy

theorem Follows.holding {env env' : Env} (h : Follows P x y) (c check bound : Ty) :
    Follows P (holding env c check bound x) (holding env' c check bound y) := by
  intro r r' a hy
  rcases run_holding env c check bound x r with ⟨opened, -, -, hx⟩ | ⟨-, -, hx⟩
  · rcases run_holding env' c check bound y r' with ⟨opened', -, -, hy'⟩ | ⟨-, -, hy'⟩
    · rw [hy'] at hy
      rw [hx]
      exact h opened opened' a hy
    · rw [hy'] at hy
      cases hy
  · rw [hx]
    exact Or.inr ⟨check, bound, rfl⟩

end Follows

def following {P : Ty → Prop} (C : Carried P) {env env' : Env} (hl : env'.limit = env.limit) : Paired P env env' where
  All Q x y := Follows Q x y
  pure h r r' a e := by
    cases e
    exact Or.inl ⟨rfl, h⟩
  bind := follows_bind
  throw _ := nofun
  tell _ := fun _ _ _ e => Or.inl ⟨e, trivial⟩
  compare anyFits ha hb r r' p e := by
    rw [hl] at e
    cases e
    exact Or.inl ⟨rfl, Assignable.carried_captures C _ ha hb⟩
  reporting event h := h.reporting event

section Reduce
variable {P : Ty → Prop} (C : Carried P) {env env' : Env} (decls : env'.decls = env.decls) (hd : env.decls.Forall P)
  (hl : env'.limit = env.limit)
include C decls hd hl

/-- What an evaluation without the guard gives is given with it in the same room, or a conditional is met again. -/
theorem follows_reduce (room : Nat) {t : Ty} (ht : P t) : Follows P (reduce env room t) (reduce env' room t) :=
  (following C hl).reduction C decls hd (fun c check bound h => Follows.holding h c check bound)
    (fun _ _ _ _ e => by cases e) Follows.nested room ht

end Reduce

/-! ### What the guard refuses -/

/-- The steps agree, and where the first meets a conditional again the second nests too deep, from the states in which
    the given conditionals are open. -/
structure Guards (d d' : Nat) (stack : List Open) {α : Type} (Q : α → Prop) (x y : Evaluating α) : Prop
    extends Agree d d' Q x y where
  deep : ∀ r r', r.stack = stack → Clean d d' (x.run r).2 → Cyclic (x.run r).1 → TooDeep (y.run r').1

section Guards
variable {d d' : Nat} {stack : List Open} {α β : Type} {P : α → Prop} {Q : β → Prop} {x y : Evaluating α}
  {f g : α → Evaluating β}

theorem guards_bind (hx : Guards d d' stack P x y) (hf : ∀ a, P a → Guards d d' stack Q (f a) (g a)) :
    Guards d d' stack Q (x >>= f) (y >>= g) := by
  refine ⟨agree_bind hx.toAgree fun a ha => (hf a ha).toAgree, fun r r' hs hc h => ?_⟩
  cases hr : (x.run r).1 with
  | error e =>
    rw [run_bind_error hr] at h hc
    obtain ⟨check, bound, he⟩ := h
    exact (hx.deep r r' hs hc ⟨check, bound, hr.trans (by cases he; rfl)⟩).bind
  | ok a =>
    rw [run_bind_ok hr] at h hc
    have hfa := hf a (hx.holds r a hr)
    rcases hx.agrees r r' a (hc.before (hfa.grows _)) hr with hy | hy
    · rw [run_bind_ok hy]
      exact hfa.deep _ _ ((hx.restores r a hr).trans hs) hc h
    · exact hy.bind

theorem Guards.nested (h : Guards d d' stack P x y) : Guards d d' stack P (nested x) (nested y) :=
  ⟨h.toAgree.nested, fun r r' => h.deep r.enter r'.enter⟩

theorem Guards.reporting (event : TypeError → Event) (h : Guards d d' stack P x y) :
    Guards d d' stack P (reporting event x) (reporting event y) := by
  refine ⟨h.toAgree.reporting event, fun r r' hs hc hx => ?_⟩
  obtain ⟨ho, -, he⟩ := run_reporting event x r
  rw [(run_reporting event y r').1]
  exact h.deep r r' hs (hc.before he) (ho ▸ hx)

theorem Guards.holding {env env' : Env} (hg : env'.guarded = false) {c : Ty}
    (hnew : ¬∃ o ∈ stack, o.conditional.identical c = true) (h : Guards d d' (⟨c, c.hash⟩ :: stack) P x y) (check bound : Ty) :
    Guards d d' stack P (holding env c check bound x) (holding env' c check bound y) := by
  refine ⟨h.toAgree.holding hg c check bound, fun r r' hs hc hx => ?_⟩
  rcases run_holding env c check bound x r with ⟨opened, hs', -, hrun⟩ | ⟨-, hmet, -⟩
  · rw [hrun] at hc hx
    obtain ⟨opened', hy⟩ := run_holding_unguarded hg c check bound y r'
    rw [hy]
    exact h.deep opened opened' (hs'.trans (by rw [hs])) (hc.before (by rw [events_pop]; exact List.Subset.refl _)) hx
  · exact absurd (hs ▸ hmet) hnew

end Guards

def guarding {P : Ty → Prop} (C : Carried P) (env env' : Env) (stack : List Open) : Paired P env env' where
  All Q x y := Guards env.limit env'.limit stack Q x y
  pure h := ⟨(agreeing C env env').pure h, nofun⟩
  bind := guards_bind
  throw he := ⟨agree_throw, fun r r' _ _ ⟨check, bound, h⟩ => by cases h; cases he⟩
  tell event := ⟨(agreeing C env env').tell event, nofun⟩
  compare anyFits ha hb := ⟨agree_compare C anyFits ha hb, nofun⟩
  reporting event h := h.reporting event

/-- Without the guard the open conditionals nest too deep in any room up to the given one. -/
def Endless (α : Ty.Annotation) (env : Env) (room : Nat) (stack : List Open) : Prop :=
  ∀ o ∈ stack, Uniform α o.conditional ∧ ∀ m ≤ room, ∀ r, TooDeep ((reduce env m o.conditional).run r).1

theorem Endless.mono {α : Ty.Annotation} {env : Env} {room room' : Nat} {stack : List Open} (h : Endless α env room stack)
    (hr : room' ≤ room) : Endless α env room' stack :=
  fun o ho => ⟨(h o ho).1, fun m hm => (h o ho).2 m (Nat.le_trans hm hr)⟩

/-- Where an evaluation with the guard meets a conditional again, the one without nests too deep, in any room: what led
    back to the conditional leads back to it without the guard, in less room each time. -/
theorem guards_reduce {α : Ty.Annotation} {env env' : Env} (decls : env'.decls = env.decls)
    (hd : env.decls.Forall (Uniform α)) (hg : env'.guarded = false) (room room' : Nat) {stack : List Open}
    (hs : Endless α env' room' stack) {t : Ty} (ht : Uniform α t) :
    Guards env.limit env'.limit stack (Uniform α) (reduce env room t) (reduce env' room' t) := by
  let C := Ty.carried_uniform α
  let L := guarding C env env'
  have agree := fun room room' {u : Ty} (hu : Uniform α u) => agree_reduce C decls hd hg room room' hu
  refine ⟨agree room room' ht, ?_⟩
  induction room generalizing room' stack t with
  | zero =>
    cases hr : isReducible env t with
    | false => exact ((L stack).irreducible decls ht hr 0 room').deep
    | true =>
      rw [reduce_zero hr]
      rintro r r' - - ⟨check, bound, h⟩
      cases h
  | succ room outer =>
    cases hr : isReducible env t with
    | false => exact ((L stack).irreducible decls ht hr (room + 1) room').deep
    | true =>
      have hr' := (isReducible_of_decls decls t).trans hr
      intro r r' hstack hc hx
      -- The run with the guard stays the same while the room of the one without shrinks.
      induction room' using Nat.strongRecOn generalizing r' with
      | ind room' inner =>
      cases room' with
      | zero =>
        rw [reduce_zero hr']
        exact ⟨_, _, rfl⟩
      | succ room' =>
        by_cases met : ∃ o ∈ stack, o.conditional.identical t = true
        · obtain ⟨o, ho, hi⟩ := met
          obtain ⟨hu, deep⟩ := hs o ho
          rw [← hu.annotatedBy.eq_of_identical ht.annotatedBy hi]
          exact deep (room' + 1) (Nat.le_refl _) r'
        · have opened : Endless α env' room' (⟨t, t.hash⟩ :: stack) := by
            refine List.forall_mem_cons.2 ⟨⟨ht, fun m hm r'' => ?_⟩, hs.mono (Nat.le_succ room')⟩
            exact inner m (Nat.lt_succ_of_le hm) (hs.mono (Nat.le_succ_of_le hm)) r''
          have step : Guards env.limit env'.limit stack (Uniform α) (reduceStep env (reduce env room) t)
              (reduceStep env' (reduce env' room') t) := by
            cases t with
            | conditional check bound yes no distribute =>
              refine Guards.holding hg met ?_ _ _
              exact @Paired.opened _ _ _ (L _) C (reduce env room) (reduce env' room')
                (fun hu => ⟨agree room room' hu, outer room' opened hu⟩) _ _ _ _ _ ht
            | _ =>
              exact @Paired.reduceStep _ _ _ (L stack) C (reduce env room) (reduce env' room')
                (fun hu => ⟨agree room room' hu, outer room' (hs.mono (Nat.le_succ room')) hu⟩) decls hd _ rfl ht
          rw [reduce_succ hr] at hc hx
          rw [reduce_succ hr']
          exact step.nested.deep r r' hstack hc hx

end TypeCalculus.Evaluate

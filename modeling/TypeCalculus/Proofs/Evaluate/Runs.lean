import TypeCalculus.Evaluate.Reduce

/-! What the steps of an evaluation do to its outcome and its state. -/

namespace TypeCalculus.Evaluate
variable {α β : Type} {x : Evaluating α} {f : α → Evaluating β} {r : Resolution}

theorem run_bind_ok {a : α} (h : (x.run r).1 = .ok a) : (x >>= f).run r = (f a).run (x.run r).2 := by
  change ExceptT.bindCont f (x.run r).1 (x.run r).2 = _
  rw [h]
  rfl

theorem run_bind_error {e : TypeError} (h : (x.run r).1 = .error e) : (x >>= f).run r = (.error e, (x.run r).2) := by
  change ExceptT.bindCont f (x.run r).1 (x.run r).2 = _
  rw [h]
  rfl

theorem run_nested (x : Evaluating α) (r : Resolution) :
    (nested x).run r = ((x.run r.enter).1, (x.run r.enter).2.leave) := rfl

theorem run_reporting_error {r' : Resolution} {e : TypeError} (h : x.run r = (.error e, r')) (event : TypeError → Event) :
    (reporting event x).run r = (.error e, { r' with events := event e :: r'.events }) := by
  dsimp only [reporting, ExceptT.run, ExceptT.mk] at h ⊢
  rw [h]

theorem run_reporting_ok {r' : Resolution} {a : α} (h : x.run r = (.ok a, r')) (event : TypeError → Event) :
    (reporting event x).run r = (.ok a, r') := by
  dsimp only [reporting, ExceptT.run, ExceptT.mk] at h ⊢
  rw [h]

/-- What a report of a failure changes in the state. -/
theorem run_reporting (event : TypeError → Event) (x : Evaluating α) (r : Resolution) :
    ((reporting event x).run r).1 = (x.run r).1 ∧ ((reporting event x).run r).2.stack = (x.run r).2.stack ∧
      (x.run r).2.events ⊆ ((reporting event x).run r).2.events := by
  dsimp only [reporting, ExceptT.run, ExceptT.mk, StateT.run]
  split
  · rename_i e r' hr
    rw [hr]
    exact ⟨rfl, rfl, List.subset_cons_self _ _⟩
  · rename_i a r' hr
    rw [hr]
    exact ⟨rfl, rfl, List.Subset.refl _⟩

/-! ### Open conditionals -/

theorem push?_eq_some {c : Ty} {opened : Resolution} (h : r.push? c = some opened) :
    opened.stack = ⟨c, c.hash⟩ :: r.stack ∧ opened.events = r.events := by
  unfold Resolution.push? at h
  dsimp only at h
  split at h
  · split at h
    · cases h
    · cases h
      exact ⟨rfl, rfl⟩
  · cases h
    exact ⟨rfl, rfl⟩

theorem push?_eq_none {c : Ty} (h : r.push? c = none) : ∃ o ∈ r.stack, o.conditional.identical c = true := by
  unfold Resolution.push? at h
  dsimp only at h
  split at h
  · split at h
    · rename_i hi
      exact List.any_eq_true.1 hi
    · cases h
  · cases h

theorem push?_of_inactive {c : Ty} (h : c.hash ∉ r.active) :
    r.push? c = some { r with stack := ⟨c, c.hash⟩ :: r.stack, active := c.hash :: r.active } := by
  unfold Resolution.push?
  exact if_neg (by rwa [List.contains_iff_mem])

theorem push?_of_open {c : Ty} (h : c.hash ∈ r.active) {o : Open} (ho : o ∈ r.stack)
    (hi : o.conditional.identical c = true) : r.push? c = none := by
  unfold Resolution.push?
  dsimp only
  rw [if_pos (List.contains_iff_mem.2 h), if_pos (List.any_eq_true.2 ⟨o, ho, hi⟩)]

theorem stack_pop {r : Resolution} {o : Open} {stack : List Open} (h : r.stack = o :: stack) : r.pop.stack = stack := by
  unfold Resolution.pop
  rw [h]
  dsimp only
  split <;> rfl

theorem events_pop (r : Resolution) : r.pop.events = r.events := by
  unfold Resolution.pop
  split
  · rfl
  · split <;> rfl

theorem holding_run (env : Env) (c check bound : Ty) (x : Evaluating α) (r : Resolution) :
    (holding env c check bound x).run r =
      (match r.push? c with
        | some opened => (do set opened; ending x Resolution.pop : Evaluating α)
        | none =>
          if env.guarded then throw (TypeError.cycle check bound)
          else do
            set { r with stack := ⟨c, c.hash⟩ :: r.stack }
            ending x Resolution.pop).run r := rfl

/-- A conditional is opened for a step and closed after it. -/
theorem run_holding_some {c : Ty} {opened : Resolution} (h : r.push? c = some opened) (env : Env) (check bound : Ty)
    (x : Evaluating α) : (holding env c check bound x).run r = ((x.run opened).1, (x.run opened).2.pop) := by
  rw [holding_run, h]
  rfl

/-- A conditional that is met again is refused. -/
theorem run_holding_none {c : Ty} (h : r.push? c = none) {env : Env} (hg : env.guarded = true) (check bound : Ty)
    (x : Evaluating α) : (holding env c check bound x).run r = (.error (.cycle check bound), r) := by
  rw [holding_run, h]
  dsimp only
  rw [hg]
  rfl

/-- Without the guard a conditional is opened once more. -/
theorem run_holding_reopened {c : Ty} (h : r.push? c = none) {env : Env} (hg : env.guarded = false) (check bound : Ty)
    (x : Evaluating α) : (holding env c check bound x).run r =
      ((x.run { r with stack := ⟨c, c.hash⟩ :: r.stack }).1, (x.run { r with stack := ⟨c, c.hash⟩ :: r.stack }).2.pop) := by
  rw [holding_run, h]
  dsimp only
  rw [hg]
  rfl

theorem run_holding (env : Env) (c check bound : Ty) (x : Evaluating α) (r : Resolution) :
    (∃ opened : Resolution, opened.stack = ⟨c, c.hash⟩ :: r.stack ∧ opened.events = r.events ∧
      (holding env c check bound x).run r = ((x.run opened).1, (x.run opened).2.pop)) ∨
    env.guarded = true ∧ (∃ o ∈ r.stack, o.conditional.identical c = true) ∧
      (holding env c check bound x).run r = (.error (.cycle check bound), r) := by
  cases hp : r.push? c with
  | some opened =>
    obtain ⟨hs, he⟩ := push?_eq_some hp
    exact Or.inl ⟨opened, hs, he, run_holding_some hp env check bound x⟩
  | none =>
    cases hg : env.guarded with
    | true => exact Or.inr ⟨rfl, push?_eq_none hp, run_holding_none hp hg check bound x⟩
    | false =>
      exact Or.inl ⟨{ r with stack := ⟨c, c.hash⟩ :: r.stack }, rfl, rfl, run_holding_reopened hp hg check bound x⟩

/-! ### Steps of a reduction -/

theorem reduce_irreducible {env : Env} {t : Ty} (h : isReducible env t = false) (room : Nat) :
    reduce env room t = pure t := by
  cases room <;> exact if_neg (by rw [h]; nofun)

theorem reduce_zero {env : Env} {t : Ty} (h : isReducible env t = true) : reduce env 0 t = throw (.tooDeep env.limit t) :=
  if_pos h

theorem reduce_succ {env : Env} {t : Ty} (h : isReducible env t = true) (room : Nat) :
    reduce env (room + 1) t = nested (reduceStep env (reduce env room) t) :=
  if_pos h

/-- A conditional whose operands hold nothing to evaluate and match comes to its true branch. -/
theorem reduce_matched {env : Env} {check bound yes no v : Ty} {distribute : Bool} (hc : isReducible env check = false)
    (hb : isReducible env bound = false) (hf : (check.hasFreeParams || bound.hasFreeParams) = false)
    (ha : check.isAny = false) (hm : (Assignable.run { limit := env.limit } check bound).1 = true)
    (hv : yes.substituteOnce (capturesOf bound.inferNames (Assignable.run { limit := env.limit } check bound).2.captures) = v)
    (hi : isReducible env v = false) (room : Nat) {r : Resolution}
    (h : (Ty.conditional check bound yes no distribute).hash ∉ r.active) :
    ((reduce env (room + 1) (.conditional check bound yes no distribute)).run r).1 = .ok v := by
  have reducible : isReducible env (.conditional check bound yes no distribute) = true := rfl
  have step : reduceStep env (reduce env room) (.conditional check bound yes no distribute) =
      holding env (.conditional check bound yes no distribute) check bound
        (resolve env (reduce env room) check bound yes no distribute) := by
    rw [reduceStep, reduce_irreducible hc, reduce_irreducible hb]
    rfl
  have opened := push?_of_inactive (r := r.enter) h
  rw [reduce_succ reducible, run_nested, step, run_holding_some opened, resolve, if_neg (by rw [hf]; nofun)]
  dsimp only
  rw [if_neg (by rw [ha]; nofun)]
  change ((if (Assignable.run { limit := env.limit } check bound).1 = true then _ else _ : Evaluating Ty).run _).1 = _
  rw [if_pos hm]
  change ((reduce env room (yes.substituteOnce
    (capturesOf bound.inferNames (Assignable.run { limit := env.limit } check bound).2.captures))).run _).1 = _
  rw [hv, reduce_irreducible hi]
  rfl

end TypeCalculus.Evaluate

import TypeCalculus.Proofs.Evaluate.Along
import TypeCalculus.Proofs.Ty.Mirrored

/-! The stack of open conditionals. What is open is found by hash, and different conditionals may have one hash. Still the
    stack is that of a machine which knows no hashes and compares a conditional with every open one (`play?_conditionals`),
    and the active hashes are those of the open conditionals, each once (`Exact`). Every step of an evaluation leaves depth,
    stack and active hashes as it finds them, whether it gives a result or fails (`Restores`). -/

namespace TypeCalculus.Evaluate

/-! ### Calls on the stack -/

/-- The stack, the hashes written on it and the active hashes fit together. -/
structure Resolution.Exact (r : Resolution) : Prop where
  hashed : ∀ o ∈ r.stack, o.hash = o.conditional.hash
  listed : r.Listed
  once : r.active.Nodup

/-- The open conditionals, the innermost first. -/
def Resolution.conditionals (r : Resolution) : List Ty := r.stack.map (·.conditional)

/-- A call on the stack. -/
inductive StackCall where
  | push (c : Ty)
  | pop

/-- The state after a call. A conditional that is refused changes nothing, and nothing is taken off an empty stack. -/
def StackCall.run? (r : Resolution) : StackCall → Option Resolution
  | .push c => some ((r.push? c).getD r)
  | .pop => if r.stack.isEmpty then none else some r.pop

/-- The open conditionals after a call, where a conditional is compared with every open one. -/
def StackCall.plain? (stack : List Ty) : StackCall → Option (List Ty)
  | .push c => some (if stack.any (·.identical c) then stack else c :: stack)
  | .pop => if stack.isEmpty then none else some stack.tail

/-- The state after calls, the first of them on an empty stack. -/
def Resolution.play? (calls : List StackCall) : Option Resolution := calls.foldlM StackCall.run? {}

section Stack
variable {r opened : Resolution} {c : Ty}

theorem exact_start : Resolution.Exact {} := ⟨List.forall_mem_nil _, listed_start, List.nodup_nil⟩

theorem Resolution.Exact.mem_active (hr : r.Exact) {h : UInt64} : h ∈ r.active ↔ ∃ c ∈ r.conditionals, c.hash = h := by
  rw [hr.listed h, conditionals]
  constructor
  · rintro ⟨o, ho, rfl⟩
    exact ⟨o.conditional, List.mem_map_of_mem ho, (hr.hashed o ho).symm⟩
  · rintro ⟨c, hc, rfl⟩
    obtain ⟨o, ho, rfl⟩ := List.mem_map.1 hc
    exact ⟨o, ho, hr.hashed o ho⟩

/-- A conditional is refused exactly if an identical one is open: identical conditionals have one hash, and whether others
    have it as well makes no difference. -/
theorem Resolution.Exact.push?_eq_none_iff (hr : r.Exact) :
    r.push? c = none ↔ ∃ d ∈ r.conditionals, d.identical c = true := by
  constructor
  · intro h
    obtain ⟨o, ho, hi⟩ := push?_eq_none h
    exact ⟨o.conditional, List.mem_map_of_mem ho, hi⟩
  · rintro ⟨d, hd, hi⟩
    have active : c.hash ∈ r.active := hr.mem_active.2 ⟨d, hd, Ty.hash_of_identical hi⟩
    obtain ⟨o, ho, rfl⟩ := List.mem_map.1 hd
    exact push?_of_open active ho hi

theorem Resolution.Exact.enter (hr : r.Exact) : r.enter.Exact := ⟨hr.hashed, hr.listed, hr.once⟩

theorem exact_push (hr : r.Exact) (h : r.push? c = some opened) : opened.Exact where
  hashed := by
    rw [(push?_eq_some h).1]
    exact List.forall_mem_cons.2 ⟨rfl, hr.hashed⟩
  listed := listed_push hr.listed h
  once := by
    rcases push?_cases h with ⟨-, rfl⟩ | ⟨ha, rfl⟩
    · exact hr.once
    · exact List.nodup_cons.2 ⟨ha, hr.once⟩

/-- Closing a conditional keeps the stack exact. -/
theorem exact_pop (hr : r.Exact) : r.pop.Exact := by
  unfold Resolution.pop
  cases hs : r.stack with
  | nil => exact hr
  | cons top rest =>
    have hashed : ∀ o ∈ rest, o.hash = o.conditional.hash := fun o ho => hr.hashed o (hs ▸ List.mem_cons_of_mem _ ho)
    have listed : ∀ h, h ∈ r.active ↔ top.hash = h ∨ ∃ o ∈ rest, o.hash = h := by
      intro h
      rw [hr.listed h, hs, List.exists_mem_cons_iff]
    dsimp only
    split
    -- The hash stays active if another open conditional has it, and goes if none has.
    · rename_i shared
      simp only [List.any_eq_true, beq_iff_eq] at shared
      refine ⟨hashed, fun h => (listed h).trans (or_iff_right_of_imp ?_), hr.once⟩
      rintro rfl
      exact shared
    · rename_i alone
      simp only [List.any_eq_true, beq_iff_eq] at alone
      refine ⟨hashed, fun h => ?_, hr.once.erase _⟩
      rw [hr.once.mem_erase_iff, listed]
      constructor
      · rintro ⟨hn, hm⟩
        exact hm.resolve_left hn.symm
      · intro hm
        refine ⟨?_, .inr hm⟩
        rintro rfl
        exact alone hm

/-! ### Calls one after the other -/

/-- A call keeps the stack exact. -/
theorem exact_call (hr : r.Exact) {call : StackCall} {r' : Resolution} (h : call.run? r = some r') : r'.Exact := by
  cases call with
  | push c =>
    obtain rfl := Option.some.inj h
    cases hp : r.push? c with
    | none => exact hr
    | some opened => exact exact_push hr hp
  | pop =>
    rw [StackCall.run?] at h
    split at h
    · cases h
    · exact Option.some.inj h ▸ exact_pop hr

/-- A call does to the open conditionals what it does where there are no hashes. -/
theorem run?_conditionals (hr : r.Exact) (call : StackCall) :
    (call.run? r).map (·.conditionals) = call.plain? r.conditionals := by
  cases call with
  | push c =>
    rw [StackCall.run?, StackCall.plain?, Option.map_some]
    congr 1
    cases hp : r.push? c with
    | none => rw [if_pos (List.any_eq_true.2 (hr.push?_eq_none_iff.1 hp)), Option.getD_none]
    | some opened =>
      have fresh : ¬∃ d ∈ r.conditionals, d.identical c = true := by
        rw [← hr.push?_eq_none_iff, hp]
        exact Option.some_ne_none opened
      rw [if_neg (mt List.any_eq_true.1 fresh), Option.getD_some, Resolution.conditionals, (push?_eq_some hp).1]
      rfl
  | pop =>
    rw [StackCall.run?, StackCall.plain?, Resolution.conditionals, List.isEmpty_map]
    cases hs : r.stack with
    | nil => rfl
    | cons top rest =>
      change some r.pop.conditionals = _
      rw [Resolution.conditionals, stack_pop hs]
      rfl

theorem exact_calls {calls : List StackCall} {r' : Resolution} (hr : r.Exact) (h : calls.foldlM StackCall.run? r = some r') :
    r'.Exact := by
  induction calls generalizing r with
  | nil => exact Option.some.inj h ▸ hr
  | cons call calls ih =>
    rw [List.foldlM_cons] at h
    obtain ⟨next, hn, h⟩ := Option.bind_eq_some_iff.1 h
    exact ih (exact_call hr hn) h

theorem calls_conditionals (hr : r.Exact) (calls : List StackCall) :
    (calls.foldlM StackCall.run? r).map (·.conditionals) = calls.foldlM StackCall.plain? r.conditionals := by
  induction calls generalizing r with
  | nil => rfl
  | cons call calls ih =>
    rw [List.foldlM_cons, List.foldlM_cons, ← run?_conditionals hr call]
    cases hn : call.run? r with
    | none => rfl
    | some next => exact ih (exact_call hr hn)

/-- The open conditionals are those of the machine without hashes, which can go on exactly as far. -/
theorem play?_conditionals (calls : List StackCall) :
    (Resolution.play? calls).map (·.conditionals) = calls.foldlM StackCall.plain? [] :=
  calls_conditionals exact_start calls

end Stack

/-! ### Steps of an evaluation -/

/-- Depth, stack and active hashes are the same. -/
structure Resolution.Restored (r r' : Resolution) : Prop extends r.Level r' where
  depth : r'.depth = r.depth

theorem Resolution.Restored.trans {r r' r'' : Resolution} (h : r.Restored r') (h' : r'.Restored r'') : r.Restored r'' :=
  ⟨h.toLevel.trans h'.toLevel, h'.depth.trans h.depth⟩

theorem Resolution.Restored.exact {r r' : Resolution} (h : r.Restored r') (hr : r.Exact) : r'.Exact :=
  ⟨h.stack ▸ hr.hashed, h.toLevel.listed hr.listed, h.active ▸ hr.once⟩

/-- The step leaves depth, stack and active hashes as it finds them, whatever its outcome. -/
def Restores {α : Type} (x : Evaluating α) : Prop := ∀ r : Resolution, r.Exact → r.Restored (x.run r).2

/-- The results of the step have a property, and it restores the state. -/
structure Steady {α : Type} (Q : α → Prop) (x : Evaluating α) : Prop where
  holds : Yields Q x
  restores : Restores x

section Steady
variable {α β : Type} {P : α → Prop} {Q : β → Prop} {x : Evaluating α} {f : α → Evaluating β}

/-- A step that does not touch depth, stack and active hashes. -/
theorem steady_of_run (holds : Yields P x) (keeps : ∀ r : Resolution, r.Restored (x.run r).2) : Steady P x :=
  ⟨holds, fun r _ => keeps r⟩

theorem steady_throw {e : TypeError} : Steady P (throw e : Evaluating α) :=
  steady_of_run (yields_throw e) fun _ => ⟨⟨rfl, rfl⟩, rfl⟩

theorem steady_bind (hx : Steady P x) (hf : ∀ a, P a → Steady Q (f a)) : Steady Q (x >>= f) where
  holds := Results.evaluating.bind hx.holds fun a ha => (hf a ha).holds
  restores r h := by
    have first := hx.restores r h
    cases hr : (x.run r).1 with
    | error e =>
      rw [run_bind_error hr]
      exact first
    | ok a =>
      rw [run_bind_ok hr]
      exact first.trans ((hf a (hx.holds r a hr)).restores _ (first.exact h))

theorem Steady.nested (h : Steady P x) : Steady P (nested x) where
  holds := h.holds.nested
  restores r hr := by
    have inner := h.restores r.enter hr.enter
    refine ⟨⟨inner.stack, inner.active⟩, ?_⟩
    change (x.run r.enter).2.depth - 1 = r.depth
    rw [inner.depth]
    rfl

theorem depth_reporting (event : TypeError → Event) (x : Evaluating α) (r : Resolution) :
    ((reporting event x).run r).2.depth = (x.run r).2.depth := by
  cases hx : x.run r with
  | mk outcome r' =>
    cases outcome with
    | error e => rw [run_reporting_error hx]
    | ok a => rw [run_reporting_ok hx]

theorem Steady.reporting (event : TypeError → Event) (h : Steady P x) : Steady P (reporting event x) where
  holds := h.holds.reporting event
  restores r hr := (h.restores r hr).trans ⟨level_reporting event x r, depth_reporting event x r⟩

theorem depth_push {r opened : Resolution} {c : Ty} (h : r.push? c = some opened) : opened.depth = r.depth := by
  rcases push?_cases h with ⟨-, rfl⟩ | ⟨-, rfl⟩ <;> rfl

theorem depth_pop (r : Resolution) : r.pop.depth = r.depth := by
  unfold Resolution.pop
  split
  · rfl
  · split <;> rfl

/-- Closing a conditional undoes opening it, also where the guard is off and the conditional was open before. -/
theorem restored_reopened {r r' : Resolution} {c : Ty} (hr : r.Exact) (hp : r.push? c = none)
    (h : Resolution.Restored { r with stack := ⟨c, c.hash⟩ :: r.stack } r') : r.Restored r'.pop := by
  have shared : (r.stack.any fun o => o.hash == c.hash) = true := by
    obtain ⟨o, ho, hi⟩ := push?_eq_none hp
    refine List.any_eq_true.2 ⟨o, ho, beq_iff_eq.2 ?_⟩
    rw [hr.hashed o ho, Ty.hash_of_identical hi]
  have pop : r'.pop = { r' with stack := r.stack } := by
    rw [Resolution.pop, h.stack]
    exact if_pos shared
  rw [pop]
  exact ⟨⟨rfl, h.active⟩, h.depth⟩

theorem exact_reopened {r : Resolution} {c : Ty} (hr : r.Exact) (hp : r.push? c = none) :
    Resolution.Exact { r with stack := ⟨c, c.hash⟩ :: r.stack } where
  hashed := List.forall_mem_cons.2 ⟨rfl, hr.hashed⟩
  listed h := by
    have active : c.hash ∈ r.active := by
      obtain ⟨d, hd, hi⟩ := hr.push?_eq_none_iff.1 hp
      exact hr.mem_active.2 ⟨d, hd, Ty.hash_of_identical hi⟩
    rw [List.exists_mem_cons_iff]
    refine (hr.listed h).trans (or_iff_right_of_imp ?_).symm
    rintro rfl
    exact (hr.listed _).1 active
  once := hr.once

theorem Steady.holding (h : Steady P x) (env : Env) (c check bound : Ty) : Steady P (holding env c check bound x) where
  holds := h.holds.holding env c check bound
  restores r hr := by
    cases hp : r.push? c with
    | some opened =>
      rw [run_holding_some hp]
      have inner := h.restores opened (exact_push hr hp)
      exact ⟨level_pop hr.listed hp inner.toLevel, (depth_pop _).trans (inner.depth.trans (depth_push hp))⟩
    | none =>
      cases hg : env.guarded with
      | true =>
        rw [run_holding_none hp hg]
        exact ⟨⟨rfl, rfl⟩, rfl⟩
      | false =>
        rw [run_holding_reopened hp hg]
        exact restored_reopened hr hp (h.restores _ (exact_reopened hr hp))

end Steady

/-! ### Whole evaluations -/

/-- Of two evaluations only the first is spoken of. -/
def steadying (env : Env) : Paired (fun _ => True) env env where
  All Q x _ := Steady Q x
  pure ha := steady_of_run (Results.evaluating.pure ha) fun _ => ⟨⟨rfl, rfl⟩, rfl⟩
  bind := steady_bind
  throw _ := steady_throw
  tell _ := steady_of_run (yields_true _) fun _ => ⟨⟨rfl, rfl⟩, rfl⟩
  compare _ ha hb := steady_of_run ((yielding Ty.carried_true env).compare _ ha hb) fun _ => ⟨⟨rfl, rfl⟩, rfl⟩
  reporting event h := h.reporting event

section Evaluations
variable (env : Env) (room : Nat)

theorem steady_reduce (t : Ty) : Steady (fun _ => True) (reduce env room t) :=
  (steadying env).reduction Ty.carried_true rfl (forall_true env) (fun c check bound h => Steady.holding h env c check bound)
    (fun _ => steady_throw) Steady.nested room trivial

theorem steady_reduceStep (t : Ty) : Steady (fun _ => True) (reduceStep env (reduce env room) t) :=
  @Paired.anyStep _ _ _ (steadying env) Ty.carried_true (reduce env room) (reduce env room) (fun _ => steady_reduce env room _)
    rfl (forall_true env) (fun c check bound h => Steady.holding h env c check bound) t trivial

theorem steady_expand (name : String) (args : List Ty) :
    Steady (fun _ => True) (expand env (reduce env room) name args) :=
  steady_reduceStep env room (.reference name args)

theorem steady_instantiate (params : List ParamDecl) (args : List Ty) (sites : List InferenceSite) :
    Steady (fun s => s.Forall fun _ => True) (instantiate env (reduce env room) params args sites) :=
  @Paired.instantiate _ _ _ (steadying env) Ty.carried_true (reduce env room) (reduce env room)
    (fun _ => steady_reduce env room _) params args sites (fun _ _ => ⟨trivial, trivial⟩) (fun _ _ => trivial)
    fun _ _ => ⟨trivial, trivial⟩

theorem steady_closeBindings (s : Subst) (entries : List (String × Ty)) :
    Steady (fun s => s.Forall fun _ => True) (closeBindings env s entries) :=
  (steadying env).closeBindings Ty.carried_true (fun {t} _ => steady_reduce env env.limit t) (fun _ _ => trivial)
    fun _ _ => trivial

end Evaluations

/-- The stack of open conditionals is exact and always restored. After whatever calls on it, the active hashes are those of
    the open conditionals, each once, and a conditional is refused, with no change, exactly if an identical one is open; so
    what is open is what it would be if conditionals were compared and no hashes looked at. And every evaluation, every step
    of one on a conditional or on a declared name, every closing of bindings and every binding of arguments leaves depth,
    stack and active hashes as it finds them, whatever its outcome. -/
theorem stack_exact_and_restored :
    (∀ calls : List StackCall,
      (Resolution.play? calls).map (·.conditionals) = calls.foldlM StackCall.plain? [] ∧
      ∀ r, Resolution.play? calls = some r →
        r.Exact ∧ (∀ h, h ∈ r.active ↔ ∃ c ∈ r.conditionals, c.hash = h) ∧
        ∀ c, (r.push? c = none ↔ ∃ d ∈ r.conditionals, d.identical c = true) ∧
          (r.push? c = none → (StackCall.push c).run? r = some r)) ∧
    ∀ (env : Env) (room : Nat),
      (∀ t, Restores (reduce env room t)) ∧
      (∀ check bound yes no distribute,
        Restores (reduceStep env (reduce env room) (.conditional check bound yes no distribute))) ∧
      (∀ name args, Restores (expand env (reduce env room) name args)) ∧
      (∀ s entries, Restores (closeBindings env s entries)) ∧
      ∀ params args sites, Restores (instantiate env (reduce env room) params args sites) := by
  constructor
  · intro calls
    refine ⟨play?_conditionals calls, fun r h => ?_⟩
    have fits : r.Exact := exact_calls exact_start h
    refine ⟨fits, fun h => fits.mem_active, fun c => ⟨fits.push?_eq_none_iff, fun hc => ?_⟩⟩
    rw [StackCall.run?, hc, Option.getD_none]
  · intro env room
    refine ⟨fun t => ?_, fun check bound yes no distribute => ?_, fun name args => ?_, fun s entries => ?_,
      fun params args sites => ?_⟩
    · exact (steady_reduce env room t).restores
    · exact (steady_reduceStep env room _).restores
    · exact (steady_expand env room name args).restores
    · exact (steady_closeBindings env s entries).restores
    · exact (steady_instantiate env room params args sites).restores

/-- Whether a text is a string. -/
def textCheck (text : String) : Ty := .conditional (.stringLit text) .string (.boolLit true) (.boolLit false) false

/-- Conditionals on two texts that have one hash: the second is opened beside the first, and closing it leaves the hash
    active, so that the first is still refused, also by an evaluation. -/
theorem stack_exact_shared_hash :
    let c := textCheck "the text to hold"
    let d := textCheck "sfwxnkdnQ0mOvMwY"
    let env : Env := { limit := 3, decls := {} }
    c.hash = d.hash ∧ ∃ r, Resolution.play? [.push c, .push d, .push c, .pop] = some r ∧ r.conditionals = [c] ∧
      (∀ h, h ∈ r.active ↔ h = d.hash) ∧ r.push? c = none ∧ r.push? d ≠ none ∧
      ((reduce env 3 c).run r).1 = .error (.cycle (.stringLit "the text to hold") .string) ∧
      r.Restored ((reduce env 3 c).run r).2 ∧ r.Restored ((reduce env 3 d).run r).2 := by
  intro c d env
  have texts : (Ty.stringLit "the text to hold").hash = (Ty.stringLit "sfwxnkdnQ0mOvMwY").hash := by decide +kernel
  have checks : ∀ {a b : Ty}, a.hash = b.hash →
      (Ty.conditional a .string (.boolLit true) (.boolLit false) false).hash =
        (Ty.conditional b .string (.boolLit true) (.boolLit false) false).hash := by
    intro a b h
    rw [Ty.hash, Ty.hash, h]
  have shared : c.hash = d.hash := checks texts
  have apart : c.identical d = false := by decide +kernel
  have plain : [StackCall.push c, .push d, .push c, .pop].foldlM StackCall.plain? [] = some [c] := rfl
  obtain ⟨played, reached⟩ := stack_exact_and_restored.1 [.push c, .push d, .push c, .pop]
  obtain ⟨r, hr, hc⟩ := Option.map_eq_some_iff.1 (played.trans plain)
  obtain ⟨fits, active, refused⟩ := reached r hr
  have found : ∃ e ∈ r.conditionals, e.identical c = true := ⟨c, hc ▸ List.mem_singleton_self c, Ty.identical_refl c⟩
  have refuses : r.push? c = none := (refused c).1.2 found
  refine ⟨shared, r, hr, hc, fun h => ?_, refuses, fun hd => ?_, ?_, ?_, ?_⟩
  · rw [active, hc, ← shared]
    simp only [List.mem_singleton, exists_eq_left]
    exact eq_comm
  · obtain ⟨e, he, hi⟩ := (refused d).1.1 hd
    rw [hc, List.mem_singleton] at he
    rw [he, apart] at hi
    cases hi
  · have met : r.enter.push? c = none := fits.enter.push?_eq_none_iff.2 found
    have step : reduceStep env (reduce env 2) c = holding env c (.stringLit "the text to hold") .string _ := rfl
    rw [reduce_succ rfl, run_nested, step, run_holding_none met rfl]
  · exact (stack_exact_and_restored.2 env 3).1 c r fits
  · exact (stack_exact_and_restored.2 env 3).1 d r fits

end TypeCalculus.Evaluate

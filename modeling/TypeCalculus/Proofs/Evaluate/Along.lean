import TypeCalculus.Proofs.Evaluate.Concur

/-! What an evaluation gives depends on the state only by the conditionals that are open, and on the room only by whether
    there is enough of it. Every step leaves the conditionals open that it found open, whatever its outcome (`Proper`);
    so two evaluations of one type that start with the same conditionals open go along with each other, unless one has less
    room and nests too deep (`along_reduce`). -/

namespace TypeCalculus.Evaluate

/-! ### What is left open -/

/-- The active hashes are those of the open conditionals. -/
def Resolution.Listed (r : Resolution) : Prop := ∀ h, h ∈ r.active ↔ ∃ o ∈ r.stack, o.hash = h

theorem listed_start : Resolution.Listed {} := fun _ => ⟨nofun, nofun⟩

/-- The same conditionals are open. -/
structure Resolution.Level (r r' : Resolution) : Prop where
  stack : r'.stack = r.stack
  active : r'.active = r.active

theorem Resolution.Level.trans {r r' r'' : Resolution} (h : r.Level r') (h' : r'.Level r'') : r.Level r'' :=
  ⟨h'.stack.trans h.stack, h'.active.trans h.active⟩

theorem Resolution.Level.symm {r r' : Resolution} (h : r.Level r') : r'.Level r := ⟨h.stack.symm, h.active.symm⟩

theorem Resolution.Level.listed {r r' : Resolution} (h : r.Level r') (hr : r.Listed) : r'.Listed := by
  unfold Resolution.Listed
  rw [h.stack, h.active]
  exact hr

/-- The results of the step have a property, and it leaves open what was open. -/
structure Proper {α : Type} (Q : α → Prop) (x : Evaluating α) : Prop where
  holds : ∀ r a, (x.run r).1 = .ok a → Q a
  closes : ∀ r : Resolution, r.Listed → r.Level (x.run r).2

section Proper
variable {α β : Type} {P : α → Prop} {Q : β → Prop} {x : Evaluating α} {f : α → Evaluating β}

theorem proper_bind (hx : Proper P x) (hf : ∀ a, P a → Proper Q (f a)) : Proper Q (x >>= f) where
  holds r b h := by
    cases hr : (x.run r).1 with
    | error e =>
      rw [run_bind_error hr] at h
      cases h
    | ok a =>
      rw [run_bind_ok hr] at h
      exact (hf a (hx.holds r a hr)).holds _ b h
  closes r h := by
    have first := hx.closes r h
    cases hr : (x.run r).1 with
    | error e =>
      rw [run_bind_error hr]
      exact first
    | ok a =>
      rw [run_bind_ok hr]
      exact first.trans ((hf a (hx.holds r a hr)).closes _ (first.listed h))

theorem Proper.nested (h : Proper P x) : Proper P (nested x) where
  holds r a ha := h.holds r.enter a ha
  closes r hr := ⟨(h.closes r.enter hr).stack, (h.closes r.enter hr).active⟩

/-- A report changes nothing that is open. -/
theorem level_reporting (event : TypeError → Event) (x : Evaluating α) (r : Resolution) :
    (x.run r).2.Level ((reporting event x).run r).2 := by
  dsimp only [Evaluate.reporting, ExceptT.run, ExceptT.mk, StateT.run]
  split
  · rename_i e r' he
    rw [he]
    exact ⟨rfl, rfl⟩
  · rename_i a r' he
    rw [he]
    exact ⟨rfl, rfl⟩

theorem Proper.reporting (event : TypeError → Event) (h : Proper P x) : Proper P (reporting event x) where
  holds r a ha := h.holds r a ((run_reporting event x r).1.symm.trans ha)
  closes r hr := (h.closes r hr).trans (level_reporting event x r)

theorem push?_cases {r opened : Resolution} {c : Ty} (h : r.push? c = some opened) :
    c.hash ∈ r.active ∧ opened = { r with stack := ⟨c, c.hash⟩ :: r.stack } ∨
    c.hash ∉ r.active ∧ opened = { r with stack := ⟨c, c.hash⟩ :: r.stack, active := c.hash :: r.active } := by
  by_cases ha : c.hash ∈ r.active
  · have found := (push?_eq_some h).1
    unfold Resolution.push? at h
    dsimp only at h
    rw [if_pos (List.contains_iff_mem.2 ha)] at h
    split at h
    · cases h
    · exact .inl ⟨ha, (Option.some.inj h).symm⟩
  · rw [push?_of_inactive ha] at h
    exact .inr ⟨ha, (Option.some.inj h).symm⟩

theorem listed_push {r opened : Resolution} {c : Ty} (hr : r.Listed) (ho : r.push? c = some opened) : opened.Listed := by
  intro h
  rcases push?_cases ho with ⟨ha, rfl⟩ | ⟨-, rfl⟩
  · refine (hr h).trans ⟨fun ⟨o, hm, he⟩ => ⟨o, List.mem_cons_of_mem _ hm, he⟩, ?_⟩
    rintro ⟨o, hm, rfl⟩
    rcases List.mem_cons.1 hm with rfl | hm
    · exact (hr _).1 ha
    · exact ⟨o, hm, rfl⟩
  · constructor
    · intro hm
      rcases List.mem_cons.1 hm with rfl | hm
      · exact ⟨_, List.mem_cons_self, rfl⟩
      · obtain ⟨o, ho, he⟩ := (hr h).1 hm
        exact ⟨o, List.mem_cons_of_mem _ ho, he⟩
    · rintro ⟨o, hm, rfl⟩
      rcases List.mem_cons.1 hm with rfl | hm
      · exact List.mem_cons_self
      · exact List.mem_cons_of_mem _ ((hr _).2 ⟨o, hm, rfl⟩)

/-- Closing a conditional undoes opening it. -/
theorem level_pop {r opened r' : Resolution} {c : Ty} (hr : r.Listed) (ho : r.push? c = some opened)
    (h : opened.Level r') : r.Level r'.pop := by
  have others : (r.stack.any fun o => o.hash == c.hash) = true ↔ c.hash ∈ r.active := by
    rw [List.any_eq_true, hr c.hash]
    simp only [beq_iff_eq]
  have pop : r'.pop = if (r.stack.any fun o => o.hash == c.hash) = true then { r' with stack := r.stack }
      else { r' with stack := r.stack, active := r'.active.erase c.hash } := by
    rw [Resolution.pop, h.stack, (push?_eq_some ho).1]
  rw [pop]
  rcases push?_cases ho with ⟨ha, rfl⟩ | ⟨ha, rfl⟩
  · rw [if_pos (others.2 ha)]
    exact ⟨rfl, h.active⟩
  · rw [if_neg (mt others.1 ha)]
    refine ⟨rfl, ?_⟩
    change r'.active.erase c.hash = r.active
    rw [h.active]
    exact List.erase_cons_head ..

theorem Proper.holding {env : Env} (hg : env.guarded = true) (h : Proper P x) (c check bound : Ty) :
    Proper P (holding env c check bound x) where
  holds r a ha := by
    rcases run_holding env c check bound x r with ⟨opened, -, -, he⟩ | ⟨-, -, he⟩
    · rw [he] at ha
      exact h.holds opened a ha
    · rw [he] at ha
      cases ha
  closes r hr := by
    cases ho : r.push? c with
    | none =>
      rw [run_holding_none ho hg]
      exact ⟨rfl, rfl⟩
    | some opened =>
      rw [run_holding_some ho]
      exact level_pop hr ho (h.closes opened (listed_push hr ho))

end Proper

/-! ### Side by side -/

/-- Both steps leave open what was open; and started with the same conditionals open, they have one outcome, unless the
    first has `less` room and nests too deep. -/
structure Along {α : Type} (less : Prop) (Q : α → Prop) (x y : Evaluating α) : Prop where
  left : Proper Q x
  right : Proper Q y
  same : ∀ r r' : Resolution, r.Listed → r.Level r' → less ∧ TooDeep (x.run r).1 ∨ (x.run r).1 = (y.run r').1

section Along
variable {less : Prop} {α β : Type} {P : α → Prop} {Q : β → Prop} {x y : Evaluating α} {f g : α → Evaluating β}

/-- Steps go along with each other if they have one outcome and change nothing that is open. -/
theorem along_of_run (holds : ∀ r a, (x.run r).1 = .ok a → P a) (same : ∀ r r', (x.run r).1 = (y.run r').1)
    (left : ∀ r : Resolution, r.Level (x.run r).2) (right : ∀ r : Resolution, r.Level (y.run r).2) : Along less P x y :=
  ⟨⟨holds, fun r _ => left r⟩, ⟨fun r a h => holds r a ((same r r).trans h), fun r _ => right r⟩,
    fun r r' _ _ => .inr (same r r')⟩

theorem along_throw {e : TypeError} : Along less P (throw e) (throw e) :=
  along_of_run nofun (fun _ _ => rfl) (fun _ => ⟨rfl, rfl⟩) fun _ => ⟨rfl, rfl⟩

theorem along_bind (hx : Along less P x y) (hf : ∀ a, P a → Along less Q (f a) (g a)) : Along less Q (x >>= f) (y >>= g) where
  left := proper_bind hx.left fun a ha => (hf a ha).left
  right := proper_bind hx.right fun a ha => (hf a ha).right
  same r r' hr level := by
    rcases hx.same r r' hr level with ⟨hl, deep⟩ | same
    · exact .inl ⟨hl, deep.bind⟩
    · cases ho : (x.run r).1 with
      | error e =>
        rw [run_bind_error ho, run_bind_error (same ▸ ho)]
        exact .inr rfl
      | ok a =>
        rw [run_bind_ok ho, run_bind_ok (same ▸ ho)]
        have first := hx.left.closes r hr
        refine (hf a (hx.left.holds r a ho)).same _ _ (first.listed hr) (first.symm.trans (level.trans ?_))
        exact hx.right.closes r' (level.listed hr)

theorem Along.nested (h : Along less P x y) : Along less P (nested x) (nested y) :=
  ⟨h.left.nested, h.right.nested, fun r r' hr level => h.same r.enter r'.enter hr ⟨level.stack, level.active⟩⟩

theorem Along.reporting (event : TypeError → Event) (h : Along less P x y) :
    Along less P (reporting event x) (reporting event y) := by
  refine ⟨h.left.reporting event, h.right.reporting event, fun r r' hr level => ?_⟩
  rw [(run_reporting event x r).1, (run_reporting event y r').1]
  exact h.same r r' hr level

/-- What can be opened is a matter of what is open. -/
theorem push?_level {r r' : Resolution} (level : r.Level r') (c : Ty) :
    r.push? c = none ∧ r'.push? c = none ∨
    ∃ opened opened', r.push? c = some opened ∧ r'.push? c = some opened' ∧ opened.Level opened' := by
  unfold Resolution.push?
  dsimp only
  rw [level.active, level.stack]
  split
  · split
    · exact .inl ⟨rfl, rfl⟩
    · exact .inr ⟨_, _, rfl, rfl, rfl, rfl⟩
  · exact .inr ⟨_, _, rfl, rfl, rfl, rfl⟩

theorem Along.holding {env : Env} (hg : env.guarded = true) (h : Along less P x y) (c check bound : Ty) :
    Along less P (holding env c check bound x) (holding env c check bound y) := by
  refine ⟨h.left.holding hg c check bound, h.right.holding hg c check bound, fun r r' hr level => ?_⟩
  rcases push?_level level c with ⟨ho, ho'⟩ | ⟨opened, opened', ho, ho', level'⟩
  · rw [run_holding_none ho hg, run_holding_none ho' hg]
    exact .inr rfl
  · rw [run_holding_some ho, run_holding_some ho']
    exact h.same opened opened' (listed_push hr ho) level'

end Along

/-! ### Whole evaluations -/

def abreast (less : Prop) (env : Env) : Paired (fun _ => True) env env where
  All := Along less
  pure h := along_of_run (by rintro _ _ ⟨⟩; exact h) (fun _ _ => rfl) (fun _ => ⟨rfl, rfl⟩) fun _ => ⟨rfl, rfl⟩
  bind := along_bind
  throw _ := along_throw
  tell _ := along_of_run (fun _ _ _ => trivial) (fun _ _ => rfl) (fun _ => ⟨rfl, rfl⟩) fun _ => ⟨rfl, rfl⟩
  compare _ _ _ := along_of_run (fun _ _ _ _ _ => trivial) (fun _ _ => rfl) (fun _ => ⟨rfl, rfl⟩) fun _ => ⟨rfl, rfl⟩
  reporting event h := h.reporting event

/-- An evaluation goes along with one of the same type that has as much room or more. -/
theorem along_reduce {env : Env} (hg : env.guarded = true) (less : Prop) {room room' : Nat} (h : room ≤ room')
    (hl : room < room' → less) (t : Ty) : Along less (fun _ => True) (reduce env room t) (reduce env room' t) := by
  let L := abreast less env
  induction room' generalizing room t with
  | zero =>
    obtain rfl : room = 0 := by omega
    cases hr : isReducible env t with
    | false => exact L.irreducible rfl trivial hr 0 0
    | true =>
      rw [reduce_zero hr]
      exact along_throw
  | succ room' ih =>
    cases hr : isReducible env t with
    | false => exact L.irreducible rfl trivial hr room (room' + 1)
    | true =>
      have step : ∀ room, room ≤ room' → (room < room' → less) →
          Along less (fun _ => True) (nested (reduceStep env (reduce env room) t))
            (nested (reduceStep env (reduce env room') t)) := by
        intro room h hl
        refine Along.nested ?_
        exact @Paired.anyStep _ _ _ L Ty.carried_true (reduce env room) (reduce env room') (fun _ => ih h hl _) rfl
          (forall_true env) (fun c check bound h => Along.holding hg h c check bound) t trivial
      rw [reduce_succ hr]
      cases room with
      | zero =>
        rw [reduce_zero hr]
        exact ⟨⟨nofun, fun _ _ => ⟨rfl, rfl⟩⟩, (step room' (Nat.le_refl _) fun h => absurd h (Nat.lt_irrefl _)).right,
          fun _ _ _ _ => .inl ⟨hl (Nat.succ_pos _), _, _, rfl⟩⟩
      | succ room =>
        rw [reduce_succ hr]
        exact step room (by omega) fun h => hl (by omega)

/-- What a type comes to depends on the state only by the conditionals that are open. -/
theorem reduce_level {env : Env} (hg : env.guarded = true) (room : Nat) (t : Ty) {r r' : Resolution} (hr : r.Listed)
    (level : r.Level r') : ((reduce env room t).run r).1 = ((reduce env room t).run r').1 :=
  ((along_reduce hg False (Nat.le_refl room) (Nat.lt_irrefl room) t).same r r' hr level).resolve_left And.left

end TypeCalculus.Evaluate

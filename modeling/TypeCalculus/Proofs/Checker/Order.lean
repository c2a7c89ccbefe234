import TypeCalculus.Proofs.Checker.Memo
import TypeCalculus.Proofs.Evaluate.Distribute

/-! The order in which an evaluation visits the bindings. Each binding is evaluated as if it stood by itself, so a type that
    is returned is the same in every order (`closing_perm`). Where bindings fail, the first of them that is visited decides
    which error is told, so the outcome is the same in every order as long as they all fail alike (`evaluation_order`). -/

namespace TypeCalculus

/-- The errors are of one kind and have one message. -/
structure TypeError.Alike (e e' : TypeError) : Prop where
  sentinel : e.sentinel = e'.sentinel
  message : e.message = e'.message

/-- Callers cannot tell the outcomes apart: they are one type, or errors of one kind with one message. -/
inductive SameOutcome : Except TypeError Ty → Except TypeError Ty → Prop
  | type (t : Ty) : SameOutcome (.ok t) (.ok t)
  | error {e e' : TypeError} : e.Alike e' → SameOutcome (.error e) (.error e')

theorem SameOutcome.refl : (x : Except TypeError Ty) → SameOutcome x x
  | .ok t => .type t
  | .error _ => .error ⟨rfl, rfl⟩

/-- Entries of different names are put in their places in either order. -/
theorem Subst.insertEntry_comm {a b : String} (h : a ≠ b) (t u : Ty) (es : List (String × Ty)) :
    insertEntry a t (insertEntry b u es) = insertEntry b u (insertEntry a t es) := by
  induction es with
  | nil =>
    rcases lt_trichotomy a b with hab | hab | hab
    · simp only [insertEntry, if_pos hab, if_neg hab.asymm, if_neg h.symm]
    · exact absurd hab h
    · simp only [insertEntry, if_neg hab.asymm, if_neg h, if_pos hab]
  | cons e es ih =>
    obtain ⟨n, v⟩ := e
    have := @lt_trichotomy String _ a b
    have := @lt_trans String _ a b n
    have := @lt_trans String _ b a n
    have := @lt_irrefl String _
    have := @lt_asymm String _
    simp only [insertEntry]
    grind [insertEntry]

theorem Subst.insert_comm (s : Subst) {a b : String} (h : a ≠ b) (t u : Ty) :
    (s.insert a t).insert b u = (s.insert b u).insert a t :=
  congrArg Subst.mk (insertEntry_comm h t u s.entries).symm

/-! ### Bindings one after the other -/

namespace Evaluate

/-- Adds what a binding comes to by itself to what the bindings after it come to. Its own failure is told first. -/
def closing (env : Env) (s : Subst) (binding : String × Ty) (others : Except TypeError Subst) : Except TypeError Subst :=
  if binding.2.isAbsent then others
  else (outcome env (binding.2.substitute s)).bind fun t => others.map fun closed => closed.insert binding.1 t

/-- The substitution in a bound type comes to an end. -/
def Ends (s : Subst) (t : Ty) : Prop := t.mentions s = true → ∃ u, Substitute.run true s [] t = some u

/-- A binding is there, its substitution ends, and the evaluation of what it gives fails. -/
structure FailsAt (env : Env) (s : Subst) (binding : String × Ty) (e : TypeError) : Prop where
  present : binding.2.isAbsent = false
  ends : Ends s binding.2
  fails : outcome env (binding.2.substitute s) = .error e

variable {env : Env} {s : Subst} {order order' : List (String × Ty)}

/-- What was open before a binding is open after it, so no binding shows in what the others come to. -/
theorem run_closeBindings (hg : env.guarded = true) (order : List (String × Ty)) {r : Resolution}
    (hr : Resolution.Level {} r) :
    ((closeBindings env s order).run r).1 = order.foldr (closing env s) (.ok {}) ∧
      Resolution.Level {} ((closeBindings env s order).run r).2 := by
  induction order generalizing r with
  | nil => exact ⟨rfl, hr⟩
  | cons e rest ih =>
    obtain ⟨name, t⟩ := e
    rw [closeBindings, List.foldr_cons, closing]
    dsimp only
    split
    · exact ih hr
    · have level := (run_alone hg (Nat.le_refl env.limit) (t.substitute s) hr).2
      have alone : ((reduce env env.limit (t.substitute s)).run r).1 = outcome env (t.substitute s) :=
        reduce_level hg env.limit _ (hr.listed listed_start) hr.symm
      obtain ⟨others, closes⟩ := ih level
      cases ho : outcome env (t.substitute s) with
      | error e =>
        rw [run_bind_error (alone.trans ho)]
        exact ⟨rfl, level⟩
      | ok u =>
        rw [run_bind_ok (alone.trans ho), ← others]
        cases hc : ((closeBindings env s rest).run ((reduce env env.limit (t.substitute s)).run r).2).1 with
        | error e =>
          rw [run_bind_error hc]
          exact ⟨rfl, closes⟩
        | ok closed =>
          rw [run_bind_ok hc]
          exact ⟨rfl, closes⟩

theorem closing_eq_ok {binding : String × Ty} {others : Except TypeError Subst} {closed : Subst} :
    closing env s binding others = .ok closed ↔
      if binding.2.isAbsent then others = .ok closed
      else ∃ t rest, outcome env (binding.2.substitute s) = .ok t ∧ others = .ok rest ∧ rest.insert binding.1 t = closed := by
  rw [closing]
  split
  · rfl
  · cases outcome env (binding.2.substitute s) with
    | error e => exact ⟨nofun, fun ⟨_, _, h, _⟩ => nomatch h⟩
    | ok t =>
      cases others with
      | error e => exact ⟨nofun, fun ⟨_, _, _, h, _⟩ => nomatch h⟩
      | ok rest =>
        refine ⟨fun h => ⟨t, rest, rfl, rfl, Except.ok.inj h⟩, ?_⟩
        rintro ⟨_, _, ⟨⟩, ⟨⟩, rfl⟩
        rfl

theorem closing_eq_error {binding : String × Ty} (ends : Ends s binding.2) {others : Except TypeError Subst} {e : TypeError}
    (h : closing env s binding others = .error e) : FailsAt env s binding e ∨ others = .error e := by
  rw [closing] at h
  split at h
  · exact .inr h
  · rename_i present
    cases ho : outcome env (binding.2.substitute s) with
    | error e' =>
      rw [ho] at h
      cases h
      exact .inl ⟨Bool.eq_false_iff.2 present, ends, ho⟩
    | ok t =>
      rw [ho] at h
      cases others with
      | error e' =>
        cases h
        exact .inr rfl
      | ok rest => cases h

/-- Two bindings of different names that come to types come to the same in either order. -/
theorem closing_swap {b b' : String × Ty} (hne : b.1 ≠ b'.1) {others : Except TypeError Subst} {closed : Subst}
    (h : closing env s b (closing env s b' others) = .ok closed) :
    closing env s b' (closing env s b others) = .ok closed := by
  simp only [closing_eq_ok] at h ⊢
  split at h
  · rename_i hb
    simpa only [hb, if_true] using h
  · rename_i hb
    obtain ⟨t, rest, ht, h, rfl⟩ := h
    split at h
    · rename_i hb'
      simp [hb, hb', ht, h]
    · rename_i hb'
      obtain ⟨t', rest', ht', h, rfl⟩ := h
      simp [hb, hb', ht, ht', h, Subst.insert_comm _ hne]

/-- The bindings come to the same types in every order. -/
theorem closing_perm (h : order.Perm order') (hn : (order.map Prod.fst).Nodup) {closed : Subst}
    (hc : order.foldr (closing env s) (.ok {}) = .ok closed) : order'.foldr (closing env s) (.ok {}) = .ok closed := by
  induction h generalizing closed with
  | nil => exact hc
  | cons b _ ih =>
    have hn := (List.nodup_cons.1 hn).2
    rw [List.foldr_cons, closing_eq_ok] at hc ⊢
    split
    · rename_i hb
      rw [if_pos hb] at hc
      exact ih hn hc
    · rename_i hb
      rw [if_neg hb] at hc
      obtain ⟨t, rest, ht, hc, he⟩ := hc
      exact ⟨t, rest, ht, ih hn hc, he⟩
  | swap b b' rest =>
    have hne : b'.1 ≠ b.1 := fun he => (List.nodup_cons.1 hn).1 (he ▸ List.mem_cons_self)
    exact closing_swap hne hc
  | trans h _ ih ih' => exact ih' ((h.map Prod.fst).nodup_iff.1 hn) (ih hn hc)

/-- The error that is told is that of one of the bindings. -/
theorem fails_of_closing (ends : ∀ b ∈ order, Ends s b.2) {e : TypeError}
    (h : order.foldr (closing env s) (.ok {}) = .error e) : ∃ b ∈ order, FailsAt env s b e := by
  induction order with
  | nil => cases h
  | cons b rest ih =>
    obtain ⟨hb, ends⟩ := List.forall_mem_cons.1 ends
    rcases closing_eq_error hb h with first | later
    · exact ⟨b, List.mem_cons_self, first⟩
    · obtain ⟨b', hm, fails⟩ := ih ends later
      exact ⟨b', List.mem_cons_of_mem _ hm, fails⟩

/-- A failing binding that is visited first is told. -/
theorem FailsAt.first {b : String × Ty} {e : TypeError} (h : FailsAt env s b e) (others : Except TypeError Subst) :
    closing env s b others = .error e := by
  rw [closing, h.present, h.fails]
  rfl

end Evaluate

/-! ### Whole evaluations -/

namespace Checker
open Evaluate (closing closing_perm fails_of_closing run_closeBindings outcome Ends FailsAt)

/-- An evaluation with nothing remembered that visits the bindings in a given order. -/
def evaluateFreshIn (env : Evaluate.Env) (order : List (String × Ty)) (t : Ty) (bindings : Subst) :
    Evaluate.Evaluating Ty := do
  let closed ← Evaluate.reporting (.bindingsFailed bindings) (Evaluate.closeBindings env bindings order)
  Evaluate.reporting (.evaluationFailed t) (Evaluate.reduce env env.limit (t.substitute closed))

/-- An evaluation that visits the bindings in a given order. -/
def evaluateIn (c : Checker) (order : List (String × Ty)) (t : Ty) (bindings : Subst) : Except TypeError Ty × Checker :=
  match t.validate with
  | .error e => (.error e, c)
  | .ok () =>
    let key : MemoKey := ⟨.evaluate, t.hash, bindings.hash⟩
    match c.remembered key t bindings.toTy with
    | (some e, c) => (.ok e.result, c)
    | (none, c) =>
      match c.evaluating (evaluateFreshIn c.env order t bindings) with
      | (.ok out, c) =>
        (.ok out, c.remember key { first := t, second := bindings.toTy, result := out })
      | (.error e, c) => (.error e, c)

/-- The checker visits the bindings in ascending order of their names. -/
theorem evaluateIn_entries (c : Checker) (t : Ty) (s : Subst) : c.evaluateIn s.entries t s = c.evaluate t s := rfl

variable {c : Checker} {t : Ty} {s : Subst}

/-- Without an evaluation the bindings are not visited. -/
theorem evaluateIn_of_not_fresh (h : ¬c.Fresh t s) (order order' : List (String × Ty)) :
    c.evaluateIn order t s = c.evaluateIn order' t s := by
  unfold evaluateIn
  split
  · rfl
  · rename_i hv
    dsimp only
    split
    · rfl
    · rename_i c' hr
      exact absurd ⟨hv, congrArg Prod.fst hr⟩ h

/-- The bindings come to what they come to by themselves, and then the type to what it comes to with them in place. -/
theorem run_evaluateFreshIn {env : Evaluate.Env} (hg : env.guarded = true) (order : List (String × Ty)) (t : Ty) (s : Subst) :
    ((evaluateFreshIn env order t s).run {}).1 =
      (order.foldr (closing env s) (.ok {})).bind fun closed => outcome env (t.substitute closed) := by
  have start : Evaluate.Resolution.Level {} {} := ⟨rfl, rfl⟩
  obtain ⟨same, closes⟩ := run_closeBindings hg order start
  have level := closes.trans (Evaluate.level_reporting (.bindingsFailed s) _ _)
  rw [← (Evaluate.run_reporting (.bindingsFailed s) _ _).1] at same
  rw [evaluateFreshIn, ← same]
  cases hc : ((Evaluate.reporting (.bindingsFailed s) (Evaluate.closeBindings env s order)).run {}).1 with
  | error e =>
    rw [Evaluate.run_bind_error hc]
    rfl
  | ok closed =>
    rw [Evaluate.run_bind_ok hc, (Evaluate.run_reporting _ _ _).1]
    exact Evaluate.reduce_level hg env.limit _ (level.listed Evaluate.listed_start) level.symm

theorem evaluateIn_of_fresh (h : c.Fresh t s) (order : List (String × Ty)) :
    (c.evaluateIn order t s).1 =
      (order.foldr (closing c.env s) (.ok {})).bind fun closed => outcome c.env (t.substitute closed) := by
  have guarded : c.env.guarded = true := rfl
  rw [← run_evaluateFreshIn guarded]
  have keeps := keeps_remembered c ⟨.evaluate, t.hash, s.hash⟩ t s.toTy
  have unknown := h.unknown
  unfold evaluateIn
  rw [h.valid]
  dsimp only
  generalize c.remembered ⟨.evaluate, t.hash, s.hash⟩ t s.toTy = found at keeps unknown ⊢
  obtain ⟨_, c'⟩ := found
  cases unknown
  dsimp only
  rw [keeps.env]
  split
  · rename_i ho
    exact (congrArg Prod.fst ho).symm
  · rename_i ho
    exact (congrArg Prod.fst ho).symm

/-- What an evaluation returns does not depend on the order in which it visits the bindings. -/
theorem evaluateIn_perm {order order' : List (String × Ty)} (h : order.Perm order') (hn : (order.map Prod.fst).Nodup) {u : Ty}
    (hu : (c.evaluateIn order t s).1 = .ok u) : (c.evaluateIn order' t s).1 = .ok u := by
  by_cases fresh : c.Fresh t s
  · rw [evaluateIn_of_fresh fresh] at hu ⊢
    cases hc : order.foldr (closing c.env s) (.ok {}) with
    | error e =>
      rw [hc] at hu
      cases hu
    | ok closed =>
      rw [hc] at hu
      rw [closing_perm h hn hc]
      exact hu
  · rw [evaluateIn_of_not_fresh fresh order' order]
    exact hu

/-- The bindings that fail cannot be told apart by their errors. -/
def FailAlike (env : Evaluate.Env) (s : Subst) : Prop :=
  ∀ b ∈ s.entries, ∀ b' ∈ s.entries, ∀ e e', FailsAt env s b e → FailsAt env s b' e' → e.Alike e'

/-- Where a failing binding is visited first, its error is told. -/
theorem evaluateIn_first (fresh : c.Fresh t s) {b : String × Ty} (hb : b ∈ s.entries) {e : TypeError}
    (h : FailsAt c.env s b e) : ∃ order : List (String × Ty), order.Perm s.entries ∧ (c.evaluateIn order t s).1 = .error e := by
  obtain ⟨before, after, he⟩ := List.append_of_mem hb
  refine ⟨b :: (before ++ after), he ▸ List.perm_middle.symm, ?_⟩
  rw [evaluateIn_of_fresh fresh, List.foldr_cons, h.first]
  rfl

/-- Where the bindings fail alike, the order shows nowhere. -/
theorem sameOutcome_of_failAlike (hn : s.names.Nodup) (ends : ∀ b ∈ s.entries, Ends s b.2)
    (alike : c.Fresh t s → FailAlike c.env s) {order order' : List (String × Ty)} (h : order.Perm s.entries)
    (h' : order'.Perm s.entries) : SameOutcome (c.evaluateIn order t s).1 (c.evaluateIn order' t s).1 := by
  have found : ∀ {order : List (String × Ty)}, order.Perm s.entries → ∀ {e}, 
      order.foldr (closing c.env s) (.ok {}) = .error e → ∃ b ∈ s.entries, FailsAt c.env s b e := by
    intro order h e he
    obtain ⟨b, hb, fails⟩ := fails_of_closing (fun b hb => ends b (h.mem_iff.1 hb)) he
    exact ⟨b, h.mem_iff.1 hb, fails⟩
  by_cases fresh : c.Fresh t s
  · have nodup : (order.map Prod.fst).Nodup := (h.map Prod.fst).nodup_iff.2 hn
    have nodup' : (order'.map Prod.fst).Nodup := (h'.map Prod.fst).nodup_iff.2 hn
    rw [evaluateIn_of_fresh fresh, evaluateIn_of_fresh fresh]
    cases hc : order.foldr (closing c.env s) (.ok {}) with
    | ok closed =>
      rw [closing_perm (h.trans h'.symm) nodup hc]
      exact .refl _
    | error e =>
      cases hc' : order'.foldr (closing c.env s) (.ok {}) with
      | ok closed =>
        rw [closing_perm (h'.trans h.symm) nodup' hc'] at hc
        cases hc
      | error e' =>
        obtain ⟨b, hb, fails⟩ := found h hc
        obtain ⟨b', hb', fails'⟩ := found h' hc'
        exact .error (alike fresh b hb b' hb' e e' fails fails')
  · rw [evaluateIn_of_not_fresh fresh order order']
    exact .refl _

/-- A type that an evaluation returns does not depend on the order in which it visits the bindings. Its outcome does not
    depend on the order exactly if the answer is known before, or all bindings that fail do so with the same kind of error
    and the same message. -/
theorem evaluation_order {c : Checker} {t : Ty} {s : Subst} (hn : s.names.Nodup) (ends : ∀ b ∈ s.entries, Ends s b.2) :
    (∀ order order' : List (String × Ty), order.Perm s.entries → order'.Perm s.entries → ∀ u,
      (c.evaluateIn order t s).1 = .ok u → (c.evaluateIn order' t s).1 = .ok u) ∧
    ((∀ order order' : List (String × Ty), order.Perm s.entries → order'.Perm s.entries →
      SameOutcome (c.evaluateIn order t s).1 (c.evaluateIn order' t s).1) ↔ (c.Fresh t s → FailAlike c.env s)) := by
  refine ⟨fun order order' h h' u => evaluateIn_perm (h.trans h'.symm) ((h.map Prod.fst).nodup_iff.2 hn),
    fun same fresh b hb b' hb' e e' fails fails' => ?_, fun alike order order' => sameOutcome_of_failAlike hn ends alike⟩
  obtain ⟨order, h, he⟩ := evaluateIn_first fresh hb fails
  obtain ⟨order', h', he'⟩ := evaluateIn_first fresh hb' fails'
  have outcomes := same order order' h h'
  rw [he, he'] at outcomes
  cases outcomes with
  | error alike => exact alike

/-- A checker that knows a name without parameters. -/
def nullary : Checker := ((Checker.new 0 0).declare ⟨"F", [], .any⟩).2

/-- The name applied to one argument, once inside an array. Both bindings fail, and they do so alike. -/
def onceTooMany : Subst := ⟨[("A", .array (.param "B" .absent .absent) false), ("B", .reference "F" [.string])]⟩

theorem run_onceTooMany : Substitute.run true onceTooMany [] (.array (.param "B" .absent .absent) false) =
    some (.array (.reference "F" [.string]) false) := by
  cbv

theorem fails_onceTooMany {b : String × Ty} (hb : b ∈ onceTooMany.entries) {e : TypeError}
    (h : FailsAt nullary.env onceTooMany b e) : e = .malformed .absent (.tooManyArguments 0 1) := by
  have fails := h.fails
  rcases List.mem_cons.1 hb with rfl | hb
  · rw [Ty.substitute, if_pos (by decide), run_onceTooMany] at fails
    cases fails
    rfl
  · cases List.mem_singleton.1 hb
    cases fails
    rfl

theorem evaluation_order_onceTooMany :
    onceTooMany.names.Nodup ∧ (∀ b ∈ onceTooMany.entries, Ends onceTooMany b.2) ∧
    ∀ order order' : List (String × Ty), order.Perm onceTooMany.entries → order'.Perm onceTooMany.entries →
      SameOutcome (nullary.evaluateIn order .string onceTooMany).1 (nullary.evaluateIn order' .string onceTooMany).1 := by
  have nodup : onceTooMany.names.Nodup := by decide
  have ends : ∀ b ∈ onceTooMany.entries, Ends onceTooMany b.2 := by
    intro b hb mentions
    rcases List.mem_cons.1 hb with rfl | hb
    · exact ⟨_, run_onceTooMany⟩
    · cases List.mem_singleton.1 hb
      cases mentions
  refine ⟨nodup, ends, (evaluation_order nodup ends).2.2 fun _ b hb b' hb' e e' h h' => ?_⟩
  rw [fails_onceTooMany hb h, fails_onceTooMany hb' h']
  exact ⟨rfl, rfl⟩

/-- The name applied to one argument and to two. -/
def onceAndTwiceTooMany : Subst := ⟨[("A", .reference "F" [.string]), ("B", .reference "F" [.string, .string])]⟩

/-- Either of the two errors is told, whichever binding is visited first. -/
theorem first_failure_told :
    onceAndTwiceTooMany.entries.reverse.Perm onceAndTwiceTooMany.entries ∧
    (nullary.evaluate .string onceAndTwiceTooMany).1 = .error (.malformed .absent (.tooManyArguments 0 1)) ∧
    (nullary.evaluateIn onceAndTwiceTooMany.entries.reverse .string onceAndTwiceTooMany).1 =
      .error (.malformed .absent (.tooManyArguments 0 2)) ∧
    ¬SameOutcome (nullary.evaluate .string onceAndTwiceTooMany).1
      (nullary.evaluateIn onceAndTwiceTooMany.entries.reverse .string onceAndTwiceTooMany).1 := by
  have once : (nullary.evaluate .string onceAndTwiceTooMany).1 = .error (.malformed .absent (.tooManyArguments 0 1)) := rfl
  have twice : (nullary.evaluateIn onceAndTwiceTooMany.entries.reverse .string onceAndTwiceTooMany).1 =
      .error (.malformed .absent (.tooManyArguments 0 2)) := rfl
  refine ⟨List.reverse_perm _, once, twice, fun same => ?_⟩
  rw [once, twice] at same
  cases same with
  | error alike => exact absurd alike.message (by decide)

end Checker
end TypeCalculus

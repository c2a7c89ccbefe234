import TypeCalculus.Proofs.Evaluate.Distribute

/-! What a parameter is bound to. Parameters are bound one after the other, and nothing is open when one is: so what a
    constraint or a default comes to is a matter of the bindings before it alone (`idle_bindingOf`), and those are the final
    bindings without the names from the parameter on (`idle_bindAll`). -/

namespace TypeCalculus

/-! ### Names left out -/

namespace Subst

theorem binds_insert {s : Subst} {n m : String} {t : Ty} : (s.insert n t).binds m = true ↔ m = n ∨ s.binds m = true := by
  rw [binds, find?_insert]
  split
  · rename_i h
    simp [h]
  · rename_i h
    simp [h, binds]

theorem without_insert (s : Subst) {n : String} (t : Ty) {names : List String} (h : n ∈ names) :
    (s.insert n t).without names = s.without names := by
  have inEntries : ∀ es : List (String × Ty), (insertEntry n t es).filter (fun e => !names.contains e.1) =
      es.filter fun e => !names.contains e.1 := by
    intro es
    have out : (!names.contains n) = false := by simpa using h
    induction es with
    | nil => rw [insertEntry, List.filter_cons_of_neg (by simpa using h)]
    | cons e es ih =>
      obtain ⟨m, u⟩ := e
      rw [insertEntry]
      split
      · rw [List.filter_cons_of_neg (by simpa using h)]
      · split
        · rename_i he
          rw [List.filter_cons_of_neg (by simpa using h), List.filter_cons_of_neg (by simpa [← he] using h)]
        · rw [List.filter_cons, List.filter_cons, ih]
  exact congrArg Subst.mk (inEntries s.entries)

theorem without_without (s : Subst) (names others : List String) :
    (s.without names).without others = s.without (names ++ others) := by
  refine congrArg Subst.mk (List.filter_filter.trans (List.filter_congr fun e _ => ?_))
  rw [Bool.eq_iff_iff]
  simp [and_comm]

theorem without_cons (s : Subst) (n : String) (names : List String) : s.without (n :: names) = (s.without names).without [n] := by
  rw [without_without]
  refine congrArg Subst.mk (List.filter_congr fun e _ => ?_)
  rw [Bool.eq_iff_iff]
  simp [and_comm]

theorem without_self {s : Subst} {names : List String} (h : ∀ n ∈ names, s.binds n = false) : s.without names = s := by
  refine congrArg Subst.mk (List.filter_eq_self.2 fun e he => ?_)
  simp only [Bool.not_eq_true', List.contains_eq_mem, decide_eq_false_iff_not]
  intro hn
  have hb := h _ hn
  rw [binds, find?, Option.isSome_eq_false_iff, Option.isNone_iff_eq_none, List.lookup_eq_none_iff] at hb
  exact absurd (hb e he) (by simp)

end Subst

namespace Evaluate

/-! ### Where nothing is open -/

/-- What a step gives where nothing is open; and nothing is left open. -/
def idle : Results Evaluating where
  All P x := ∀ r, Resolution.Level {} r → (∀ a, (x.run r).1 = .ok a → P a) ∧ Resolution.Level {} (x.run r).2
  pure h r hr := by
    refine ⟨fun a ha => ?_, hr⟩
    cases ha
    exact h
  bind {_ _ _ _ x f} hx hf r hr := by
    obtain ⟨first, level⟩ := hx r hr
    cases hx : (x.run r).1 with
    | error e =>
      rw [run_bind_error hx]
      exact ⟨nofun, level⟩
    | ok a =>
      rw [run_bind_ok hx]
      exact hf a (first a hx) _ level

variable {env : Env}

theorem idle_throw {α : Type} {P : α → Prop} (e : TypeError) : idle.All P (throw e : Evaluating α) := fun _ hr => ⟨nofun, hr⟩

theorem idle_report (e : Event) : idle.All (fun _ => True) (report e) :=
  fun _ hr => ⟨fun _ _ => trivial, ⟨hr.stack, hr.active⟩⟩

theorem idle_compare (o : Assignable.Options) (a b : Ty) :
    idle.All (fun found => found = ((Assignable.run o a b).1, (Assignable.run o a b).2.captures)) (compare o a b) := by
  refine fun r hr => ⟨fun found h => ?_, ⟨hr.stack, hr.active⟩⟩
  cases h
  rfl

theorem idle_ofExcept {α : Type} (x : Except TypeError α) : idle.All (fun a => x = .ok a) (ofExcept x) := by
  cases x with
  | error e => exact idle_throw e
  | ok a => exact idle.pure rfl

theorem idle_reduce (hg : env.guarded = true) (t : Ty) : idle.All (fun u => outcome env t = .ok u) (reduce env env.limit t) := by
  intro r hr
  obtain ⟨first, level⟩ := run_alone hg (Nat.le_refl _) t hr
  refine ⟨fun u hu => ?_, level⟩
  rcases first with ⟨_, _, he⟩ | same
  · rw [hu] at he
    cases he
  · rw [← same, hu]

/-! ### One parameter -/

/-- The type that an inference site tells for a parameter, where the unbound parameters stand as placeholders. -/
def InferenceSite.told? (env : Env) (name : String) (unbound : List String) (bindings : Subst) (site : InferenceSite) :
    Option Ty :=
  if site.usage.isAbsent || site.arg.isAbsent then none
  else
    let (ok, p) := Assignable.run { limit := env.limit } site.arg
      (paramsToInfer (site.usage.substituteOnce bindings) unbound)
    if ok then p.captures.find? name else none

/-- The types that the inference sites tell for a parameter. -/
def told (env : Env) (name : String) (unbound : List String) (bindings : Subst) (sites : List InferenceSite) : List Ty :=
  sites.filterMap fun site => site.told? env name unbound bindings

/-- The type satisfies the constraint of the parameter under the bindings, so far as both can be compared. -/
def Admitted (env : Env) (s : Subst) (p : ParamDecl) (t : Ty) : Prop :=
  p.constraint ≠ .absent → t.containsInfer = false → t.hasFreeParams = false →
    ∃ bound, outcome env (p.constraint.substituteOnce s) = .ok bound ∧
      (bound.hasFreeParams = false → (Assignable.run { limit := env.limit, anyFits := true } t bound).1 = true)

/-- What a parameter may be bound to. The `earlier` bindings are made when its turn comes, `unbound` names the other
    parameters, and its constraint is taken under the bindings `s`. -/
inductive Assigned (env : Env) (sites : List InferenceSite) (unbound : List String) (earlier s : Subst) (p : ParamDecl)
    (arg : Ty) : Ty → Prop
  | given : arg ≠ .absent → Admitted env s p arg → Assigned env sites unbound earlier s p arg arg
  | defaulted {t : Ty} : arg = .absent → p.default ≠ .absent → outcome env (p.default.substituteOnce earlier) = .ok t →
      Assigned env sites unbound earlier s p arg t
  | inferred : arg = .absent → p.default = .absent → told env p.name unbound earlier sites ≠ [] →
      Admitted env s p (Ty.unionOf (told env p.name unbound earlier sites)) →
      Assigned env sites unbound earlier s p arg (Ty.unionOf (told env p.name unbound earlier sites))
  | constrained {t : Ty} : arg = .absent → p.default = .absent → told env p.name unbound earlier sites = [] →
      p.constraint ≠ .absent → outcome env (p.constraint.substituteOnce s) = .ok t →
      Assigned env sites unbound earlier s p arg t
  | unconstrained : arg = .absent → p.default = .absent → told env p.name unbound earlier sites = [] →
      p.constraint = .absent → Assigned env sites unbound earlier s p arg .unknown

/-- The constraint is all that is read from the bindings under which it is taken. -/
theorem Assigned.congr {sites : List InferenceSite} {unbound : List String} {earlier s s' : Subst} {p : ParamDecl} {arg t : Ty}
    (h : Assigned env sites unbound earlier s p arg t) (hs : p.constraint.substituteOnce s = p.constraint.substituteOnce s') :
    Assigned env sites unbound earlier s' p arg t := by
  have admitted : ∀ {u}, Admitted env s p u → Admitted env s' p u := by
    intro u hu
    rwa [Admitted, hs] at hu
  cases h with
  | given ha hc => exact .given ha (admitted hc)
  | defaulted ha hd ho => exact .defaulted ha hd ho
  | inferred ha hd ht hc => exact .inferred ha hd ht (admitted hc)
  | constrained ha hd ht hc ho => exact .constrained ha hd ht hc (hs ▸ ho)
  | unconstrained ha hd ht hc => exact .unconstrained ha hd ht hc

theorem idle_candidates (name : String) (unbound : List String) (s : Subst) (sites : List InferenceSite) :
    idle.All (fun ts => ts = told env name unbound s sites) (candidates env name unbound s sites) := by
  induction sites with
  | nil => exact idle.pure rfl
  | cons site sites ih =>
    have told_cons : told env name unbound s (site :: sites) =
        (site.told? env name unbound s).toList ++ told env name unbound s sites := by
      rw [told, List.filterMap_cons, told]
      split <;> rename_i h <;> rw [h] <;> rfl
    rw [candidates, told_cons, InferenceSite.told?]
    split
    · exact ih
    · refine idle.bind (idle_compare _ _ _) fun found hf => idle.bind ih fun rest hrest => ?_
      subst hf hrest
      dsimp only
      generalize Assignable.run { limit := env.limit } site.arg (paramsToInfer (site.usage.substituteOnce s) unbound) = ran
      obtain ⟨ok, p⟩ := ran
      cases ok with
      | false => exact idle.pure rfl
      | true =>
        dsimp only
        cases p.captures.find? name with
        | none => exact idle.pure rfl
        | some t => exact idle.pure rfl

theorem idle_inferred (name : String) (params : List ParamDecl) (s : Subst) (sites : List InferenceSite) {unbound : List String}
    (hu : (params.map (·.name)).filter (fun n => !s.binds n) = unbound) :
    idle.All (fun found => found = match told env name unbound s sites with | [] => none | ts => some (Ty.unionOf ts))
      (inferred? env name params sites s) := by
  unfold inferred?
  rw [hu]
  refine idle.bind (idle_candidates name unbound s sites) fun ts hts => ?_
  rw [← hts]
  cases ts with
  | nil => exact idle.pure rfl
  | cons t ts => exact idle.bind (idle_report _) fun _ _ => idle.pure rfl

section Order
variable {params before ps : List ParamDecl} {s : Subst}

/-- Of parameters with different names, those that are still to be bound are not bound by the bindings of those before. -/
theorem unbound_after (distinct : (params.map (·.name)).Nodup) (hp : params = before ++ ps)
    (hs : ∀ n, s.binds n = true ↔ n ∈ before.map (·.name)) : ∀ n ∈ ps.map (·.name), s.binds n = false := by
  intro n hn
  rw [hp, List.map_append] at distinct
  refine Bool.eq_false_iff.2 fun hb => ?_
  exact (List.nodup_append.1 distinct).2.2 n ((hs n).1 hb) n hn rfl

theorem filter_unbound (distinct : (params.map (·.name)).Nodup) (hp : params = before ++ ps)
    (hs : ∀ n, s.binds n = true ↔ n ∈ before.map (·.name)) :
    (params.map (·.name)).filter (fun n => !s.binds n) = ps.map (·.name) := by
  have apart := unbound_after distinct hp hs
  rw [hp, List.map_append, List.filter_append, List.filter_eq_nil_iff.2, List.nil_append, List.filter_eq_self.2]
  · intro n hn
    rw [apart n hn]
    rfl
  · intro n hn
    rw [(hs n).2 hn]
    nofun

end Order

variable (hg : env.guarded = true)
include hg

theorem idle_checkConstraint (p : ParamDecl) (arg : Ty) (s : Subst) :
    idle.All (fun _ => Admitted env s p arg) (checkConstraint env (reduce env env.limit) p arg s) := by
  unfold checkConstraint
  split
  · rename_i h
    refine idle.pure fun hc hi hf => ?_
    rw [hi, hf, Bool.or_false, Bool.or_false, Substitute.isAbsent_iff] at h
    exact absurd h hc
  · refine idle.bind (idle_reduce hg _) fun bound hb => ?_
    split
    · rename_i hf
      refine idle.pure fun _ _ _ => ⟨bound, hb, fun h => ?_⟩
      rw [h] at hf
      cases hf
    · refine idle.bind (idle_compare _ _ _) fun found hf => ?_
      subst hf
      dsimp only
      split
      · exact idle_throw _
      · rename_i hok
        exact idle.pure fun _ _ _ => ⟨bound, hb, fun _ => by simpa using hok⟩

/-- One parameter is bound to its argument, its default, what the sites tell, its constraint or `unknown`. -/
theorem idle_bindingOf (params : List ParamDecl) (sites : List InferenceSite) {unbound : List String} (s : Subst)
    (hu : (params.map (·.name)).filter (fun n => !s.binds n) = unbound) (p : ParamDecl) (arg : Ty) :
    idle.All (Assigned env sites unbound s s p arg) (bindingOf env (reduce env env.limit) params sites s p arg) := by
  unfold bindingOf
  split
  · rename_i ha
    refine idle.bind (idle_checkConstraint hg p arg s) fun _ hc => idle.pure (.given (fun h => ?_) hc)
    simp [h, Ty.isAbsent] at ha
  · rename_i ha
    have ha : arg = .absent := Substitute.isAbsent_iff.1 (by simpa using ha)
    split
    · rename_i hd
      refine idle.imp (fun t ht => .defaulted ha (fun h => ?_) ht) (idle_reduce hg _)
      simp [h, Ty.isAbsent] at hd
    · rename_i hd
      have hd : p.default = .absent := Substitute.isAbsent_iff.1 (by simpa using hd)
      refine idle.bind (idle_inferred p.name params s sites hu) fun found hf => ?_
      split at hf
      · rename_i ht
        subst hf
        dsimp only
        split
        · rename_i hc
          exact idle.pure (.unconstrained ha hd ht (Substitute.isAbsent_iff.1 hc))
        · rename_i hc
          refine idle.imp (fun t h => .constrained ha hd ht (fun he => hc ?_) h) (idle_reduce hg _)
          exact Substitute.isAbsent_iff.2 he
      · rename_i ht
        subst hf
        exact idle.bind (idle_checkConstraint hg p _ s) fun _ hc => idle.pure (.inferred ha hd ht hc)

/-! ### All parameters -/

/-- How the parameter after some others is bound in the final bindings. -/
def AssignedAt (env : Env) (sites : List InferenceSite) (args : List Ty) (σ : Subst) (before : List ParamDecl) (p : ParamDecl)
    (after : List ParamDecl) : Prop :=
  let unbound := (p :: after).map (·.name)
  ∃ t, σ.find? p.name = some t ∧
    Assigned env sites unbound (σ.without unbound) (σ.without unbound) p (args[before.length]?.getD .absent) t

/-- The parameters are bound one after the other, each under the bindings of those before it. -/
theorem idle_bindAll {params : List ParamDecl} (sites : List InferenceSite) (distinct : (params.map (·.name)).Nodup)
    {before ps : List ParamDecl} {s : Subst} {args : List Ty} (hp : params = before ++ ps)
    (hs : ∀ n, s.binds n = true ↔ n ∈ before.map (·.name)) :
    idle.All (fun σ => (∀ n, σ.binds n = true ↔ n ∈ params.map (·.name)) ∧ σ.without (ps.map (·.name)) = s ∧
        ∀ first p after, ps = first ++ p :: after → AssignedAt env sites args σ first p after)
      (bindAll env (reduce env env.limit) params sites s ps args) := by
  induction ps generalizing before s args with
  | nil =>
    refine idle.pure ⟨?_, Subst.without_self nofun, fun first p after h => ?_⟩
    · rwa [hp, List.append_nil]
    · exact absurd h (by simp)
  | cons p ps ih =>
    have apart := unbound_after distinct hp hs
    refine idle.bind (idle_bindingOf hg params sites s (filter_unbound distinct hp hs) p (args.headD .absent)) fun t ht => ?_
    refine idle.imp (fun σ => ?_) (@ih (before ++ [p]) (s.insert p.name t) args.tail (by simp [hp]) ?_)
    · rintro ⟨names, rest, bound⟩
      have whole : σ.without ((p :: ps).map (·.name)) = s := by
        rw [List.map_cons, Subst.without_cons, rest, Subst.without_insert s t List.mem_cons_self]
        exact Subst.without_self fun n hn => apart n (by rw [List.mem_singleton.1 hn]; exact List.mem_cons_self)
      refine ⟨names, whole, fun first q after h => ?_⟩
      cases first with
      | nil =>
        cases h
        have found : (σ.without (ps.map (·.name))).find? p.name = some t := by
          rw [rest, Subst.find?_insert_self]
        refine ⟨t, Subst.find?_of_without found, ?_⟩
        rw [whole]
        cases args with
        | nil => exact ht
        | cons arg args => exact ht
      | cons p' first =>
        cases h
        have later := bound first q after rfl
        unfold AssignedAt at later ⊢
        rw [List.getElem?_tail] at later
        exact later
    · intro n
      rw [Subst.binds_insert, hs]
      simp [or_comm]

end Evaluate
end TypeCalculus

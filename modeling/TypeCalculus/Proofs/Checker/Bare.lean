import TypeCalculus.Proofs.Assignable.Bare
import TypeCalculus.Proofs.Checker.Deferral

/-! A placeholder without a constraint captures the whole type that it is compared with, so that a conditional which
    gives back what it captured gives back the type (`placeholder_takes_whole`). An intersection is tried member by member,
    and then the placeholder takes its first member only (`placeholder_takes_part`). -/

namespace TypeCalculus
open Ty (Normal Built)

namespace Ty

/-- `t extends infer name ? name : never`. -/
def matchWhole (t : Ty) (name : String) : Ty :=
  conditional t (infer name absent) (param name absent absent) never false

end Ty

namespace Evaluate
variable {env : Env}

/-- Where the operands match, what was captured is put into the true branch, with the same conditionals open. -/
theorem run_resolve_matched {check bound : Ty} (hf : (check.hasFreeParams || bound.hasFreeParams) = false)
    (ha : check.isAny = false) (hm : (Assignable.run { limit := env.limit } check bound).1 = true)
    (self : Ty → Evaluating Ty) (yes no : Ty) (distribute : Bool) (r : Resolution) :
    ∃ r' : Resolution, r'.stack = r.stack ∧ (resolve env self check bound yes no distribute).run r =
      (self (yes.substituteOnce
        (capturesOf bound.inferNames (Assignable.run { limit := env.limit } check bound).2.captures))).run r' := by
  rw [resolve, if_neg (by rw [hf]; exact Bool.false_ne_true)]
  dsimp only
  rw [if_neg (by rw [ha]; exact Bool.false_ne_true)]
  refine ⟨{ r with events := .conditional check bound (Assignable.run { limit := env.limit } check bound).1 r.depth ::
    ((Assignable.run { limit := env.limit } check bound).2.events ++ r.events) }, rfl, ?_⟩
  change (if (Assignable.run { limit := env.limit } check bound).1 = true then _ else _ : Evaluating Ty).run _ = _
  rw [if_pos hm]
  rfl

theorem substituteOnce_captured (name : String) {a : Ty} (hp : a ≠ .absent) (constraint default : Ty) :
    (Ty.param name constraint default).substituteOnce (capturesOf [name] ⟨[(name, a)]⟩) = a := by
  have bound : (capturesOf [name] ⟨[(name, a)]⟩).find? name = some a := by
    simp [capturesOf, Subst.ofList, Subst.find?, Subst.insert, Subst.insertEntry, Subst.empty]
  have mentioned : (Ty.param name constraint default).mentions (capturesOf [name] ⟨[(name, a)]⟩) = true := by
    change ((capturesOf [name] ⟨[(name, a)]⟩).find? name).isSome = true
    rw [bound]
    rfl
  rw [Ty.substituteOnce, if_pos mentioned, Substitute.run_once_taken bound hp]
  rfl

theorem value_taken {a : Ty} (ha : Value env a) : Value env a.taken where
  built := Ty.built_taken ha.built
  settled := Ty.inherited_taken inherited_settled ha.settled
  closed := Ty.hasFreeParams_eq_false.2 fun x =>
    Ty.inherited_taken (Ty.inherited_notFree x) (Ty.hasFreeParams_eq_false.1 ha.closed x)

/-- A value that is smaller than all open conditionals comes to itself, unless it does not fit. -/
theorem run_value {v : Ty} (hv : Value env v) (room : Nat) {r : Resolution} (hr : ∀ o ∈ r.stack, v.size < o.conditional.size) :
    (∃ r', (reduce env room v).run r = (.ok v, r') ∧ r'.stack = r.stack) ∨
      room < v.size ∧ ∃ limit u, ((reduce env room v).run r).1 = .error (.tooDeep limit u) := by
  rcases reduce_settled room hv.built.normal hv.settled r hr with ⟨u, hu, rfl, hs⟩ | deep
  · exact .inl ⟨_, Prod.ext hu rfl, hs⟩
  · refine .inr ⟨?_, deep⟩
    by_contra fits
    obtain ⟨limit, u, hd⟩ := deep
    rw [reduce_settled_fitting hv.built.normal hv.settled (Nat.le_of_not_lt fits) hr] at hd
    cases hd

/-- What a conditional with an unconstrained placeholder as its bound and the captured parameter as its true branch comes
    to: what is captured of the type that it checks, unless there is too little room. -/
theorem reduce_whole {a : Ty} (ha : Value env a) (hp : a ≠ .absent) (hn : a ≠ .never) (hany : a ≠ .any)
    (hi : a.containsInfer = false) {name : String}
    (hcut : 3 ≤ env.limit ∨ (Assignable.run { limit := env.limit } a (.infer name .absent)).2.clipped = false)
    (constraint default : Ty) (room : Nat) :
    let whole := Ty.conditional a (.infer name .absent) (.param name constraint default) .never false
    ((reduce env room whole).run {}).1 = .ok a.taken ∨
      room ≤ a.size ∧ ∃ limit u, ((reduce env room whole).run {}).1 = .error (.tooDeep limit u) := by
  intro whole
  cases room with
  | zero =>
    rw [reduce_zero rfl]
    exact .inr ⟨Nat.zero_le _, _, _, rfl⟩
  | succ room =>
    -- The type and what is captured of it are evaluated where only the conditional is open, which is larger.
    have value : ∀ v : Ty, Value env v → v.size ≤ a.size → ∀ r : Resolution, r.stack = [⟨whole, whole.hash⟩] →
        (∃ r', (reduce env room v).run r = (.ok v, r') ∧ r'.stack = r.stack) ∨
          room + 1 ≤ a.size ∧ ∃ limit u, ((reduce env room v).run r).1 = .error (.tooDeep limit u) := by
      intro v hv le r hr
      refine (run_value hv room fun o ho => ?_).imp_right (.imp_left (Nat.lt_of_lt_of_le · le))
      rw [hr] at ho
      cases List.mem_singleton.1 ho
      simp only [whole, Ty.size]
      omega
    obtain ⟨matched, captured⟩ := Assignable.run_taken (o := { limit := env.limit }) rfl ha.built hp hn hi name hcut
    have present : a.taken ≠ .absent := by
      have captures := Assignable.captures_present { limit := env.limit } a (.infer name .absent)
      rw [captured] at captures
      exact captures _ List.mem_cons_self
    have waits : (a.hasFreeParams || (Ty.infer name .absent).hasFreeParams) = false := by
      rw [ha.closed]
      rfl
    have notAny : a.isAny = false := by
      cases a with
      | any => exact absurd rfl hany
      | _ => rfl
    have yes : (Ty.param name constraint default).substituteOnce
        (capturesOf (Ty.infer name .absent).inferNames
          (Assignable.run { limit := env.limit } a (.infer name .absent)).2.captures) = a.taken := by
      rw [captured]
      exact substituteOnce_captured name present constraint default
    obtain ⟨r, hr, opened⟩ : ∃ r : Resolution, r.stack = [⟨whole, whole.hash⟩] ∧ (Resolution.enter {}).push? whole = some r :=
      ⟨_, rfl, push?_of_inactive nofun⟩
    rw [reduce_succ rfl, run_nested, reduceStep, run_holding_some opened]
    rcases value a ha (Nat.le_refl _) r hr with ⟨r', hr', hs⟩ | ⟨fits, limit, u, he⟩
    · obtain ⟨r'', hs', resolved⟩ := run_resolve_matched waits notAny matched (reduce env room)
        (.param name constraint default) .never false r'
      rw [yes] at resolved
      rw [run_bind_ok (congrArg Prod.fst hr'), reduce_irreducible (t := .infer name .absent) rfl, pure_bind, hr', resolved]
      rcases value a.taken (value_taken ha) (Assignable.size_taken ha.built hp hn hi) r'' (hs'.trans (hs.trans hr)) with ⟨r, he, -⟩ | deep
      · exact .inl (congrArg Prod.fst he)
      · exact .inr deep
    · rw [run_bind_error he]
      exact .inr ⟨fits, limit, u, rfl⟩

end Evaluate

namespace Checker
open Evaluate (Value)

/-- What is identical to a conditional that matches a value as a whole is one, up to how the captured parameter is
    annotated. -/
theorem eq_of_identical_matchWhole {env : Evaluate.Env} {a t : Ty} (ha : Value env a) {name : String}
    (h : t.identical (a.matchWhole name) = true) :
    ∃ constraint default, t = .conditional a (.infer name .absent) (.param name constraint default) .never false := by
  unfold Ty.matchWhole at h
  cases t with
  | conditional check bound yes no distribute =>
    simp only [Ty.identical, Bool.and_eq_true, beq_iff_eq] at h
    obtain ⟨⟨⟨⟨rfl, hc⟩, hb⟩, hy⟩, hn⟩ := h
    obtain rfl := ha.eq_of_identical hc
    have bound_eq : bound = .infer name .absent := by
      cases bound with
      | infer n constraint =>
        simp only [Ty.identical, Bool.and_eq_true, beq_iff_eq] at hb
        obtain ⟨rfl, hb⟩ := hb
        cases constraint <;> first | rfl | cases hb
      | _ => cases hb
    have no_eq : no = .never := by
      cases no <;> first | rfl | cases hn
    subst bound_eq no_eq
    cases yes with
    | param n constraint default =>
      obtain rfl := beq_iff_eq.1 hy
      exact ⟨constraint, default, rfl⟩
    | _ => cases hy
  | _ => cases h

theorem validate_matchWhole {a : Ty} (hv : a.validate = .ok ()) {name : String} (hname : name ≠ "") :
    (a.matchWhole name).validate = .ok () := by
  have check : a.validateIn false = .ok () := hv
  have yes : (Ty.param name .absent .absent).validateIn false = .ok () := by
    rw [Ty.validateIn, if_neg hname]
    rfl
  unfold Ty.matchWhole Ty.validate
  rw [Ty.validateIn, check]
  change (do (Ty.param name .absent .absent).validateIn false; _ : Except TypeError Unit) = _
  rw [yes]
  rfl

/-- An unconstrained placeholder takes the type that it is compared with, whatever the variant of the type: a union
    member by member and united again, and of an intersection its first member. If no member of the type is an
    intersection, it takes the whole type. A conditional that gives back what it captured evaluates to just that, if
    the type is a value and the limit leaves room for it. -/
theorem placeholder_takes_whole {limit cacheSize limit' cacheSize' : Int} {c c' : Checker}
    (h : Reachable Call.Normal limit cacheSize c) (h' : Reachable Call.Normal limit' cacheSize' c') (hd : c'.decls = c.decls)
    {a : Ty} (ha : Built a) (hp : a ≠ .absent) (hn : a ≠ .never) (hi : a.containsInfer = false) {name : String}
    (hcut : 3 ≤ c.limit ∨ (Assignable.run { limit := c.limit } a (.infer name .absent)).2.clipped = false) :
    (c.capturing a (.infer name .absent)).1 = some ⟨[(name, a.taken)]⟩ ∧
    ((∀ ms, .intersection ms ∉ a.unionMembers) → a.taken = a) ∧
    ∀ t s, (c'.evaluate t s).1 = .ok a → a.validate = .ok () → a.hasFreeParams = false → a ≠ .any → name ≠ "" →
      (c.evaluate (a.matchWhole name) {}).1 = .ok a.taken ∨
        c.limit ≤ a.size ∧ ∃ limit u, (c.evaluate (a.matchWhole name) {}).1 = .error (.tooDeep limit u) := by
  refine ⟨?_, Ty.taken_self ha hp, fun t s hr hv closed hany hname => ?_⟩
  · obtain ⟨ok, captured⟩ := Assignable.run_taken (o := { limit := c.limit }) rfl ha hp hn hi name hcut
    change (if (Assignable.run { limit := c.limit } a (.infer name .absent)).1 = true then _ else _) = _
    rw [if_pos ok]
    exact congrArg some captured
  · have value : Value c.env a := ⟨ha, (settled_evaluate h'.sound hr).of_decls hd.symm, closed⟩
    have fresh : ∀ constraint default,
        let whole := Ty.conditional a (.infer name .absent) (.param name constraint default) .never false
        ((evaluateFresh c.env whole {}).run {}).1 = .ok a.taken ∨
          c.limit ≤ a.size ∧ ∃ limit u, ((evaluateFresh c.env whole {}).run {}).1 = .error (.tooDeep limit u) := by
      intro constraint default whole
      rw [evaluateFresh_unbound]
      exact Evaluate.reduce_whole value hp hn hany hi hcut constraint default c.limit
    have answered := evaluated c (a.matchWhole name) {}
    generalize c.evaluate (a.matchWhole name) {} = out at answered ⊢
    cases answered with
    | invalid he =>
      rw [validate_matchWhole hv hname] at he
      cases he
    | recalled _ hm hi hi' _ =>
      -- The entry belongs to the same conditional with some annotation of the captured parameter.
      obtain ⟨-, s', hs', -, he⟩ := h.sound _ _ hm
      obtain ⟨constraint, default, hf⟩ := eq_of_identical_matchWhole value hi
      have unbound : s' = {} := Subst.eq_empty_of_identical (hs' ▸ hi')
      rw [evaluate_forgetful, unbound, hf] at he
      split at he
      · cases he
      · rcases fresh constraint default with same | ⟨-, _, _, same⟩
        · rw [same] at he
          exact .inl (congrArg Except.ok (Except.ok.inj he).symm)
        · rw [same] at he
          cases he
    | computed _ ho _ =>
      rcases fresh .absent .absent with same | ⟨small, limit, u, same⟩
      · exact .inl (ho.symm.trans same)
      · exact .inr ⟨small, limit, u, ho.symm.trans same⟩
    | failed _ ho _ =>
      rcases fresh .absent .absent with same | ⟨small, limit, u, same⟩
      · exact .inl (ho.symm.trans same)
      · exact .inr ⟨small, limit, u, ho.symm.trans same⟩

/-- A union is taken apart and put together again. -/
theorem placeholder_takes_sequences :
    let c := Checker.new 50 2
    let a := Ty.union [.tuple [.number], .array .string false]
    (c.capturing a (.infer "X" .absent)).1 = some ⟨[("X", a)]⟩ ∧ (c.evaluate (a.matchWhole "X") {}).1 = .ok a := by
  intro c a
  have built : Built a := by
    refine Ty.built_pair ?_ ?_ rfl rfl rfl rfl (by decide)
    · exact Ty.built_plain rfl (List.forall_mem_singleton.2 (Ty.built_atom rfl))
    · exact Ty.built_plain rfl (List.forall_mem_singleton.2 (Ty.built_atom rfl))
  have itself : (c.evaluate a {}).1 = .ok a := by
    rw [evaluate_of_empty rfl, evaluate_forgetful]
    cbv
  have apart : ∀ ms, .intersection ms ∉ a.unionMembers := by
    intro ms hm
    have members : a.unionMembers = [.tuple [.number], .array .string false] := rfl
    rw [members] at hm
    simp at hm
  obtain ⟨captured, whole, evaluated⟩ := @placeholder_takes_whole 50 2 50 2 c c .new .new rfl a built (fun h => by injection h) (fun h => by injection h) rfl "X"
    (.inl (by decide : 3 ≤ c.limit))
  rw [whole apart] at captured evaluated
  rcases evaluated a {} itself (by cbv) (by cbv) (fun h => by injection h) (by decide) with same | ⟨small, -⟩
  · exact ⟨captured, same⟩
  · exact absurd small (by decide)

/-- Of an intersection only the first member is captured, and nothing is where the limit stops the comparison before the
    members of a union. -/
theorem placeholder_takes_part :
    let a := Ty.intersection [.reference "A" [], .reference "B" []]
    let u := Ty.union [.number, .string]
    (Built a ∧ a.containsInfer = false ∧ a ≠ .never ∧
      ((Checker.new 5 2).capturing a (.infer "X" .absent)).1 = some ⟨[("X", .reference "A" [])]⟩ ∧
      (Ty.reference "A" []).identical a = false) ∧
    Built u ∧ u.containsInfer = false ∧ u ≠ .never ∧ ((Checker.new 1 2).capturing u (.infer "X" .absent)).1 = none := by
  intro a u
  have name : ∀ n, Built (.reference n []) := fun n => Ty.built_plain rfl (List.forall_mem_nil _)
  have built : Built a := by
    have met : Ty.meetOf [.reference "A" [], .reference "B" []] = a := by cbv
    exact met ▸ Ty.built_meetOf (List.forall_mem_cons.2 ⟨name _, List.forall_mem_singleton.2 (name _)⟩)
  have base : Built u := Ty.built_pair (Ty.built_atom rfl) (Ty.built_atom rfl) rfl rfl rfl rfl (by decide)
  exact ⟨⟨built, rfl, (fun h => by injection h), by cbv, rfl⟩, base, rfl, (fun h => by injection h), by cbv⟩

end Checker
end TypeCalculus

import TypeCalculus.Proofs.Checker.Deferral
import TypeCalculus.Proofs.Checker.Mirrored
import TypeCalculus.Proofs.Evaluate.Distribute
import TypeCalculus.Proofs.Substitute.Distribute

/-! A distributive conditional whose parameter is bound to a union comes to the union of what it comes to with the parameter
    bound to each of the members, and it fails if it fails for one of them (`conditional_distributes`). The conditional is
    split before it is resolved: the split conditionals are united, evaluated side by side, and their results united. -/

namespace TypeCalculus

/-! ### Bindings to values -/

namespace Subst

/-- The bindings to types that are not missing. -/
def present (s : Subst) : Subst := ⟨s.entries.filter fun e => !e.2.isAbsent⟩

theorem find?_present_insert (s : Subst) (name : String) {t : Ty} (ht : t ≠ .absent) (other : String) :
    (s.insert name t).present.find? other = if other = name then some t else s.present.find? other := by
  have kept : t.isAbsent = false := by
    cases t with
    | absent => exact absurd rfl ht
    | _ => rfl
  have inEntries : ∀ es : List (String × Ty), ((insertEntry name t es).filter fun e => !e.2.isAbsent).lookup other =
      if other = name then some t else (es.filter fun e => !e.2.isAbsent).lookup other := by
    intro es
    induction es with
    | nil => grind [insertEntry]
    | cons e es ih => grind [insertEntry]
  exact inEntries s.entries

theorem Forall.present {P : Ty → Prop} {s : Subst} (h : s.Forall P) : s.present.Forall P :=
  fun e he => h e (List.mem_of_mem_filter he)

end Subst

namespace Evaluate
open Ty (Built)

/-- The members of a value are values. -/
theorem Value.member {env : Env} {members : List Ty} (h : Value env (.union members)) {m : Ty} (hm : m ∈ members) : Value env m where
  built := h.built.part rfl hm
  settled := h.settled.under hm
  closed := Ty.hasFreeParams_eq_false.2 fun x hx => Ty.hasFreeParams_eq_false.1 h.closed x (.part hm hx)

/-- What a step gives where nothing is open, unless it nests too deep; and nothing is left open. -/
def alone : Results Evaluating where
  All P x := ∀ r, Resolution.Level {} r →
    ((∃ a, (x.run r).1 = .ok a ∧ P a) ∨ TooDeep (x.run r).1) ∧ Resolution.Level {} (x.run r).2
  pure h r hr := ⟨.inl ⟨_, rfl, h⟩, hr⟩
  bind {_ _ _ _ x f} hx hf r hr := by
    obtain ⟨⟨a, ha, hp⟩ | deep, level⟩ := hx r hr
    · rw [run_bind_ok ha]
      exact hf a hp _ level
    · refine ⟨.inr deep.bind, ?_⟩
      obtain ⟨_, _, he⟩ := deep
      rw [run_bind_error he]
      exact level

variable {env : Env} {s : Subst} (hg : env.guarded = true)
include hg

theorem alone_value {t : Ty} (h : Value env t) : alone.All (· = t) (reduce env env.limit t) := by
  intro r hr
  refine ⟨?_, (run_alone hg (Nat.le_refl _) t hr).2⟩
  rcases reduce_settled env.limit h.built.normal h.settled r (by rw [hr.stack]; nofun) with ⟨u, hu, rfl, -⟩ | deep
  · exact .inl ⟨u, hu, rfl⟩
  · exact .inr deep

/-- Values are bound as they are, and missing types are left out. -/
theorem alone_closeBindings (hs : s.Forall (Value env)) {entries : List (String × Ty)} (he : ∀ e ∈ entries, e ∈ s.entries) :
    alone.All (fun closed => closed.Forall (Value env) ∧ ∀ n, closed.find? n = (Subst.present ⟨entries⟩).find? n)
      (closeBindings env s entries) := by
  induction entries with
  | nil => exact alone.pure ⟨Subst.forall_empty, fun _ => rfl⟩
  | cons e rest ih =>
    obtain ⟨name, t⟩ := e
    have hrest := ih fun e h => he e (List.mem_cons_of_mem _ h)
    have value : Value env t := hs _ (he _ List.mem_cons_self)
    have found : ∀ n, (Subst.present ⟨(name, t) :: rest⟩).find? n =
        if t.isAbsent then (Subst.present ⟨rest⟩).find? n
        else if n = name then some t else (Subst.present ⟨rest⟩).find? n := by
      intro n
      grind [Subst.present, Subst.find?]
    rw [closeBindings]
    split
    · rename_i ha
      simp only [found, if_pos ha]
      exact hrest
    · rename_i ha
      rw [value.substitute]
      refine alone.bind (alone_value hg value) fun u hu => alone.bind hrest fun closed hc => alone.pure ?_
      rw [hu]
      refine ⟨hc.1.insert name value, fun n => ?_⟩
      rw [Subst.find?_insert, found, if_neg ha, hc.2]

/-- Under bindings to values, a type comes to what the type comes to in which they are substituted. -/
theorem evaluateFresh_values (hs : s.Forall (Value env)) {t u : Ty} (ht : Built t)
    (hu : Substitute.run true s.present [] t = some u) :
    TooDeep ((Checker.evaluateFresh env t s).run {}).1 ∨ ((Checker.evaluateFresh env t s).run {}).1 = outcome env u := by
  let bindings := reporting (.bindingsFailed s) (closeBindings env s s.entries)
  have run : (Checker.evaluateFresh env t s).run {} = (bindings >>= fun closed =>
      reporting (.evaluationFailed t) (reduce env env.limit (t.substitute closed))).run {} := rfl
  rw [run]
  have reported : (bindings.run {}).1 = ((closeBindings env s s.entries).run {}).1 := (run_reporting _ _ _).1
  obtain ⟨⟨closed, hc, values, found⟩ | deep, level⟩ := alone_closeBindings hg hs (fun _ h => h) {} ⟨rfl, rfl⟩
  · have bound : bindings.run {} = (.ok closed, ((closeBindings env s s.entries).run {}).2) :=
      run_reporting_ok (Prod.ext hc rfl) _
    have agree : Substitute.AgreeOn s.present closed t := fun n _ => .inl (found n).symm
    have substituted : t.substitute closed = u := Substitute.substitute_of_run ht
      (Substitute.run_agrees hu closed (fun e he => (hs.present e he).static) agree)
    rw [run_bind_ok (reported.trans hc), bound, substituted, (run_reporting _ _ _).1]
    exact (run_alone hg (Nat.le_refl _) u level).1
  · rw [← reported] at deep
    exact .inl deep.bind

omit hg in
/-- With its parameter bound to a union, a distributive conditional becomes the union of what it becomes for the members. -/
theorem run_present_distributes (hs : s.Forall (Value env)) {members : List Ty} (hu : Value env (.union members)) {name : String}
    {constraint default bound yes no t : Ty} (ht : t = .conditional (.param name constraint default) bound yes no true) :
    ∃ vs, List.Forall₂ (fun m v => Substitute.run true (s.insert name m).present [] t = some v) members vs ∧
      Substitute.run true (s.insert name (.union members)).present [] t = some (Ty.unionOf vs) ∧ vs ≠ [] ∧
      (∀ v ∈ vs, Ty.Cases (members.flatMap Substitute.checked) v) ∧ ∃ cs, Ty.unionOf vs = .union cs := by
  subst ht
  let whole := (s.insert name (.union members)).present
  have static : whole.Forall Substitute.Static := fun e he => ((hs.insert name hu).present e he).static
  have found : ∀ n, whole.find? n = if n = name then some (.union members) else s.present.find? n :=
    s.find?_present_insert name fun he => by cases he
  obtain ⟨vs, hvs, hrun, hne, made, more⟩ := @Substitute.run_distributes whole name constraint default bound yes no _ static
    (by rw [found, if_pos rfl]) hu.built.normal.form
  have inside := (List.forall₂_and_left members vs).2 ⟨fun m hm => hm, Ty.forall₂_of_mapM hvs⟩
  refine ⟨vs, inside.imp fun m v ⟨hm, hv⟩ => ?_, hrun, hne, made, more⟩
  obtain ⟨member, present⟩ := hu.static.alternatives rfl m hm
  refine Substitute.run_agrees hv _ (static.insert name member) fun n _ => .inl ?_
  rw [Subst.find?_insert, s.find?_present_insert name present, found]
  split <;> rfl

end Evaluate

namespace Checker
open Evaluate (Value TooDeep outcome)
open Ty (Built SameMembers)

theorem validate_newConditional {check bound yes no t : Ty} (h : Ty.newConditional check bound yes no = .ok t) :
    t = .conditional check bound yes no check.isParam ∧ t.validate = .ok () := by
  unfold Ty.newConditional at h
  split at h
  · cases h
  have whole : Ty.validate (.conditional check bound yes no check.isParam) =
      (do check.validate; yes.validate; no.validate; bound.validateBound) := rfl
  cases hc : check.validate with
  | error => rw [hc] at h; cases h
  | ok =>
    cases hy : yes.validate with
    | error => rw [hc, hy] at h; cases h
    | ok =>
      cases hn : no.validate with
      | error => rw [hc, hy, hn] at h; cases h
      | ok =>
        cases hb : bound.validateBound with
        | error => rw [hc, hy, hn, hb] at h; cases h
        | ok =>
          rw [hc, hy, hn, hb] at h
          cases h
          rw [whole, hc, hy, hn, hb]
          exact ⟨rfl, rfl⟩

/-- What an evaluation under bindings to values gives is what the type comes to in which they are substituted, up to
    identity, unless it nests too deep. -/
theorem evaluate_outcome {c : Checker} (hc : c.Sound) {s : Subst} (hs : s.Forall (Value c.env)) {t v : Ty} (ht : Built t)
    (valid : t.validate = .ok ()) (hv : Substitute.run true s.present [] t = some v) :
    TooDeep (c.evaluate t s).1 ∨ (∃ e, (c.evaluate t s).1 = .error e ∧ outcome c.env v = .error e) ∨
      ∃ r r', (c.evaluate t s).1 = .ok r ∧ outcome c.env v = .ok r' ∧ r.identical r' = true := by
  have fresh := @Evaluate.evaluateFresh_values c.env s rfl hs t v ht hv
  rcases evaluate_anew hc t s with same | ⟨r, r', hr, hr', hi⟩
  · rw [evaluate_forgetful, valid] at same
    rw [same]
    refine fresh.imp_right fun he => ?_
    rw [he]
    cases outcome c.env v with
    | error e => exact .inl ⟨e, rfl, rfl⟩
    | ok r => exact .inr ⟨r, r, rfl, rfl, Ty.identical_refl r⟩
  · rw [evaluate_forgetful, valid] at hr'
    rcases fresh with ⟨_, _, deep⟩ | he
    · cases hr'.symm.trans deep
    · exact .inr (.inr ⟨r, r', hr, he.symm.trans hr', hi⟩)

/-- Distribution over unions. -/
theorem conditional_distributes {allowed : Call → Prop} {limit cacheSize : Int} {c : Checker} {state : Ty → Checker}
    (h : ∀ u, Reachable allowed limit cacheSize (state u)) (hc : ∀ u, Steady c (state u)) {name : String}
    {constraint default bound yes no t : Ty} (ht : Ty.newConditional (.param name constraint default) bound yes no = .ok t)
    (hb : Built t) {s : Subst} (hs : s.Forall (Value c.env)) {members : List Ty} (hu : Value c.env (.union members)) :
    let on u := ((state u).evaluate t (s.insert name u)).1
    ¬TooDeep (on (.union members)) →
    (∀ results, List.Forall₂ (fun m r => on m = .ok r) members results →
      ∃ r, on (.union members) = .ok r ∧ SameMembers r (Ty.unionOf results)) ∧
    (∀ m ∈ members, ∀ e, on m = .error e → ¬TooDeep (on m) → ∃ e, on (.union members) = .error e) := by
  intro on deep
  have env : ∀ u, (state u).env = c.env := fun u => (hc u).env
  obtain ⟨rfl, valid⟩ := validate_newConditional ht
  let t : Ty := .conditional (.param name constraint default) bound yes no true
  have form : Ty.UnionForm members := hu.built.normal.form
  have answer : ∀ {u v}, Value c.env u → Substitute.run true (s.insert name u).present [] t = some v →
      TooDeep (on u) ∨ (∃ e, on u = .error e ∧ outcome c.env v = .error e) ∨
        ∃ r r', on u = .ok r ∧ outcome c.env v = .ok r' ∧ r.identical r' = true := by
    intro u v hu hv
    have answer := @evaluate_outcome (state u) (h u).sound (s.insert name u) (by rw [env]; exact hs.insert name hu) t v hb valid hv
    rwa [env] at answer
  obtain ⟨vs, split, hrun, hne, made, more⟩ := Evaluate.run_present_distributes hs hu (t := t) rfl
  have united := answer hu hrun
  refine ⟨fun results hres => ?_, fun m hm e he hd => ?_⟩
  · have given : ∀ {m v r}, m ∈ members → Substitute.run true (s.insert name m).present [] t = some v → on m = .ok r →
        ∃ r', outcome c.env v = .ok r' ∧ r.identical r' = true := by
      intro m v r hm hv hr
      rcases answer (hu.member hm) hv with ⟨_, _, he⟩ | ⟨e, he, -⟩ | ⟨r₁, r', hr₁, ho, hi⟩
      · cases hr.symm.trans he
      · cases hr.symm.trans he
      · cases hr.symm.trans hr₁
        exact ⟨r', ho, hi⟩
    have each : ∀ v ∈ vs, ∃ r, outcome c.env v = .ok r := by
      intro v hv
      obtain ⟨m, hm, hmv⟩ := Ty.partner split.flip hv
      obtain ⟨r, -, hr⟩ := Ty.partner hres hm
      obtain ⟨r', ho, -⟩ := given hm hmv hr
      exact ⟨r', ho⟩
    have grouped : ∀ u, (∃ v, v ∈ vs ∧ ∃ r, outcome c.env v = .ok r ∧ r.Has u) ↔ Ty.SomeHas results u := by
      intro u
      constructor
      · rintro ⟨v, hv, r', ho, hu⟩
        obtain ⟨m, hm, hmv⟩ := Ty.partner split.flip hv
        obtain ⟨r, hmem, hr⟩ := Ty.partner hres hm
        obtain ⟨r'', ho', hi⟩ := given hm hmv hr
        cases ho.symm.trans ho'
        exact ⟨r, hmem, (Ty.has_of_identical hi u).2 hu⟩
      · rintro ⟨r, hmem, hu⟩
        obtain ⟨m, hm, hr⟩ := Ty.partner hres.flip hmem
        obtain ⟨v, hv, hmv⟩ := Ty.partner split hm
        obtain ⟨r', ho, hi⟩ := given hm hmv hr
        exact ⟨v, hv, r', ho, (Ty.has_of_identical hi u).1 hu⟩
    rcases united with hdeep | ⟨e, he, ho⟩ | ⟨r, r', hr, ho, hi⟩
    · exact absurd hdeep deep
    · rcases Evaluate.outcome_united rfl hne made more each with ⟨_, _, hdeep⟩ | ⟨r, hr, -⟩
      · cases ho.symm.trans hdeep
        exact absurd ⟨_, _, he⟩ deep
      · cases ho.symm.trans hr
    · refine ⟨r, hr, fun u => ?_⟩
      rcases Evaluate.outcome_united rfl hne made more each with ⟨_, _, hdeep⟩ | ⟨r'', hr'', has⟩
      · cases ho.symm.trans hdeep
      · cases ho.symm.trans hr''
        rw [Ty.has_of_identical hi, has, Ty.leaves_congr grouped, Ty.has_unionOf]
  · obtain ⟨v, hv, hmv⟩ := Ty.partner split hm
    have failed : ∃ e, outcome c.env v = .error e ∧ ¬TooDeep (outcome c.env v) := by
      rcases answer (hu.member hm) hmv with hdeep | ⟨e', he', ho⟩ | ⟨r, _, hr, -⟩
      · exact absurd hdeep hd
      · rw [he'] at hd
        exact ⟨e', ho, ho ▸ hd⟩
      · cases he.symm.trans hr
    obtain ⟨e', ho, hd'⟩ := failed
    rcases united with hdeep | ⟨e, he, -⟩ | ⟨r, r', -, ho', -⟩
    · exact absurd hdeep deep
    · exact ⟨e, he⟩
    · exact absurd ho' (Evaluate.outcome_united_error rfl hne made hv ho hd' r')

/-- `T extends unknown ? T[] : never`. -/
def listedEach : Ty := .conditional (.param "T" .absent .absent) .unknown (.array (.param "T" .absent .absent) false) .never true

/-- An array of either becomes either array. -/
theorem conditional_distributes_arrays :
    let c := Checker.new 5 2
    let on (u : Ty) := (c.evaluate listedEach (Subst.insert {} "T" u)).1
    on .number = .ok (.array .number false) ∧ on .string = .ok (.array .string false) ∧
      ∃ r, on (.union [.number, .string]) = .ok r ∧ SameMembers r (Ty.unionOf [.array .number false, .array .string false]) := by
  intro c on
  let checks (x : Ty) : Ty := .conditional x .unknown (.array x false) .never false
  have resolved : ∀ x ∈ [Ty.number, .string], ∀ room r, Evaluate.Resolution.Level {} r →
      ((Evaluate.reduce c.env (room + 1) (checks x)).run r).1 = .ok (.array x false) := by
    intro x hx room r hr
    rcases List.mem_pair.1 hx with rfl | rfl <;>
      exact Evaluate.reduce_matched (by cbv) (by cbv) (by cbv) rfl (by cbv) (by cbv) (by cbv) room (by rw [hr.active]; exact List.not_mem_nil)
  have answer : ∀ {u v}, u.isAbsent = false → u.substitute ⟨[("T", u)]⟩ = u → Evaluate.isReducible c.env u = false →
      listedEach.substitute ⟨[("T", u)]⟩ = v → on u = Evaluate.outcome c.env v := by
    rintro u v ha hs hr rfl
    exact evaluate_binding rfl (by cbv) ha hs hr
  have number : on .number = .ok (.array .number false) :=
    (answer rfl (by cbv) (by cbv) (by cbv)).trans (resolved .number (by simp) 4 {} ⟨rfl, rfl⟩)
  have string : on .string = .ok (.array .string false) :=
    (answer rfl (by cbv) (by cbv) (by cbv)).trans (resolved .string (by simp) 4 {} ⟨rfl, rfl⟩)
  have whole : on (.union [.number, .string]) = .ok (Ty.unionOf [.array .number false, .array .string false]) := by
    have split : listedEach.substitute ⟨[("T", .union [.number, .string])]⟩ = .union [checks .number, checks .string] := by cbv
    refine (answer rfl (by cbv) (by cbv) split).trans ?_
    refine Evaluate.outcome_union_of_run rfl (show c.env.limit = 4 + 1 from rfl) (by cbv) ?_
    exact .cons (resolved .number (by simp) 3) (.cons (resolved .string (by simp) 3) .nil)
  have param : Built (.param "T" .absent .absent) := Ty.built_param "T"
  have built : Built listedEach := Ty.built_conditional (fun _ => rfl) param (Ty.built_atom rfl)
    (Ty.built_plain rfl (List.forall_mem_singleton.2 param)) (Ty.built_atom rfl)
  have value : Value c.env (.union [.number, .string]) := by
    refine ⟨?_, Evaluate.settled_of_irreducible (by cbv), by cbv⟩
    exact Ty.built_pair (Ty.built_atom rfl) (Ty.built_atom rfl) rfl rfl rfl rfl (by decide)
  have reached : Reachable (fun _ => True) 5 2 c := .new
  have shallow : ¬TooDeep (on (.union [.number, .string])) := by
    rw [whole]
    rintro ⟨_, _, ⟨⟩⟩
  have made : Ty.newConditional (.param "T" .absent .absent) .unknown (.array (.param "T" .absent .absent) false) .never =
      .ok listedEach := by cbv
  have both := @conditional_distributes _ 5 2 c (fun _ => c) (fun _ => reached) (fun _ => ⟨rfl, rfl⟩) "T" _ _ _ _ _ _
    made built {} Subst.forall_empty _ value shallow
  exact ⟨number, string, both.1 _ (.cons number (.cons string .nil))⟩

end Checker
end TypeCalculus

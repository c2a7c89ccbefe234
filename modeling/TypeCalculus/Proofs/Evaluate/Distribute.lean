import TypeCalculus.Proofs.Evaluate.Along
import TypeCalculus.Proofs.Evaluate.Mirrored
import TypeCalculus.Proofs.Ty.Members

/-! The members of a union are evaluated one after the other, each as if it stood by itself, and their results are united
    (`outcome_union`). So conditionals come to the same members whether they are united before they are evaluated or
    after (`outcome_united`). -/

namespace TypeCalculus.Evaluate
open Ty (Cases Leaves)

/-- What the evaluation of a type gives where nothing is open. -/
def outcome (env : Env) (t : Ty) : Except TypeError Ty := ((reduce env env.limit t).run {}).1

/-- The evaluation of one of the members of the type gives a type with the member. -/
def Yielded (env : Env) (t u : Ty) : Prop := ∃ c ∈ t.unionMembers, ∃ v, outcome env c = .ok v ∧ v.Has u

variable {env : Env} (hg : env.guarded = true)

/-- Identical types come to identical results. -/
theorem outcome_identical {t t' v : Ty} (hi : t.identical t' = true) (h : outcome env t = .ok v) :
    ∃ v', outcome env t' = .ok v' ∧ v.identical v' = true := by
  have same : t.annotated Ty.bare = t'.annotated Ty.bare := (Ty.identical_iff t t').1 hi
  have left := mirrored_reduce Ty.bare env env.limit t {} {} (mirrors_start _)
  have right := mirrored_reduce Ty.bare env env.limit t' {} {} (mirrors_start _)
  unfold outcome at h ⊢
  rw [same, h] at left
  rcases left with ⟨_, b, ⟨⟩, hb, rfl, -⟩ | ⟨⟨_, ⟨⟩⟩, -⟩
  rw [hb] at right
  rcases right with ⟨r, _, hr, ⟨⟩, he, -⟩ | ⟨-, _, ⟨⟩⟩
  exact ⟨r, hr, (Ty.identical_iff v r).2 he⟩

include hg

/-- Where nothing is open, in less room, a type comes to what it comes to by itself, unless it nests too deep. -/
theorem run_alone {room : Nat} (hroom : room ≤ env.limit) (t : Ty) {r : Resolution} (hr : Resolution.Level {} r) :
    (TooDeep ((reduce env room t).run r).1 ∨ ((reduce env room t).run r).1 = outcome env t) ∧
      Resolution.Level {} ((reduce env room t).run r).2 := by
  have along := along_reduce hg True hroom (fun _ => trivial) t
  have listed := hr.listed listed_start
  exact ⟨(along.same r {} listed hr.symm).imp_left And.right, hr.trans (along.left.closes r listed)⟩

/-- Types are evaluated one after the other, each as if it stood by itself. -/
theorem run_members {room : Nat} (hroom : room ≤ env.limit) (ts : List Ty) {r : Resolution} (hr : Resolution.Level {} r) :
    (∀ us, ((ts.mapM (reduce env room)).run r).1 = .ok us → List.Forall₂ (fun t u => outcome env t = .ok u) ts us) ∧
    ((∀ t ∈ ts, ∃ u, outcome env t = .ok u) →
      TooDeep ((ts.mapM (reduce env room)).run r).1 ∨ ∃ us, ((ts.mapM (reduce env room)).run r).1 = .ok us) := by
  induction ts generalizing r with
  | nil => exact ⟨fun us h => by cases h; exact .nil, fun _ => .inr ⟨[], rfl⟩⟩
  | cons t ts ih =>
    rw [List.mapM_cons]
    obtain ⟨first, level⟩ := run_alone hg hroom t hr
    obtain ⟨found, ends⟩ := ih level
    cases ho : ((reduce env room t).run r).1 with
    | error e =>
      refine ⟨?_, fun h => .inl ?_⟩
      · rw [run_bind_error ho]
        nofun
      · rcases first with deep | same
        · exact deep.bind
        · obtain ⟨u, hu⟩ := h t List.mem_cons_self
          rw [ho, hu] at same
          cases same
    | ok u =>
      rw [run_bind_ok ho]
      have hu : outcome env t = .ok u := by
        rcases first with ⟨_, _, deep⟩ | same
        · rw [ho] at deep
          cases deep
        · rw [← same, ho]
      cases hm : ((ts.mapM (reduce env room)).run ((reduce env room t).run r).2).1 with
      | error e =>
        rw [run_bind_error hm]
        refine ⟨nofun, fun h => .inl ?_⟩
        rcases ends fun t ht => h t (List.mem_cons_of_mem _ ht) with deep | ⟨us, hus⟩
        · rwa [hm] at deep
        · rw [hm] at hus
          cases hus
      | ok us =>
        rw [run_bind_ok hm]
        refine ⟨fun us' h => ?_, fun _ => .inr ⟨u :: us, rfl⟩⟩
        cases h
        exact .cons hu (found us hm)

omit hg in
/-- The members of a union are evaluated in less room. -/
theorem outcome_succ {room : Nat} (hl : env.limit = room + 1) {ts : List Ty} (hr : isReducible env (.union ts) = true) :
    outcome env (.union ts) =
      ((ts.mapM (reduce env room) >>= fun us => pure (Ty.unionOf us)).run (Resolution.enter {})).1 := by
  rw [outcome, hl, reduce_succ hr, run_nested]
  rfl

/-- Where each type comes to a result in less room, their union comes to the union of the results. -/
theorem outcome_union_of_run {room : Nat} (hl : env.limit = room + 1) {ts us : List Ty} (hr : isReducible env (.union ts) = true)
    (h : List.Forall₂ (fun t u => ∀ r, Resolution.Level {} r → ((reduce env room t).run r).1 = .ok u) ts us) :
    outcome env (.union ts) = .ok (Ty.unionOf us) := by
  have all : ∀ r, Resolution.Level {} r → ((ts.mapM (reduce env room)).run r).1 = .ok us := by
    clear hr
    induction h with
    | nil => exact fun _ _ => rfl
    | cons h _ ih =>
      intro r hr
      rw [List.mapM_cons, run_bind_ok (h r hr), run_bind_ok (ih _ (run_alone hg (by omega) _ hr).2)]
      rfl
  rw [outcome_succ hl hr, run_bind_ok (all (Resolution.enter {}) ⟨rfl, rfl⟩)]
  rfl

/-- The results of the members of a union are united. -/
theorem outcome_union {ts : List Ty} (hr : isReducible env (.union ts) = true) :
    (∀ u, outcome env (.union ts) = .ok u →
      ∃ us, List.Forall₂ (fun t u => outcome env t = .ok u) ts us ∧ u = Ty.unionOf us) ∧
    ((∀ t ∈ ts, ∃ u, outcome env t = .ok u) → TooDeep (outcome env (.union ts)) ∨ ∃ u, outcome env (.union ts) = .ok u) := by
  cases hl : env.limit with
  | zero =>
    have stopped : outcome env (.union ts) = .error (.tooDeep env.limit (.union ts)) := by
      rw [outcome, hl, reduce_zero hr, hl]
      rfl
    rw [stopped]
    exact ⟨nofun, fun _ => .inl ⟨_, _, rfl⟩⟩
  | succ room =>
    obtain ⟨found, ends⟩ := @run_members env hg room (by omega) ts (Resolution.enter {}) ⟨rfl, rfl⟩
    rw [outcome_succ hl hr]
    refine ⟨fun u hu => ?_, fun h => ?_⟩
    · cases hm : ((ts.mapM (reduce env room)).run (Resolution.enter {})).1 with
      | error e =>
        rw [run_bind_error hm] at hu
        cases hu
      | ok us =>
        rw [run_bind_ok hm] at hu
        cases hu
        exact ⟨us, found us hm, rfl⟩
    · rcases ends h with deep | ⟨us, hm⟩
      · exact .inl deep.bind
      · rw [run_bind_ok hm]
        exact .inr ⟨_, rfl⟩

/-! ### Conditionals -/

section Cases
variable {xs : List Ty} {t r : Ty}

omit hg in
theorem isReducible_cases {cs : List Ty} (hne : cs ≠ []) (h : ∀ c ∈ cs, ∃ x ∈ xs, c.Inspects x) :
    isReducible env (.union cs) = true := by
  obtain ⟨c, hc⟩ := List.exists_mem_of_ne_nil _ hne
  obtain ⟨x, -, _, _, _, _, rfl⟩ := h c hc
  exact isReducible_of_part hc rfl

/-- A union of conditionals comes to the union of what they come to. -/
theorem has_outcome_union {cs : List Ty} (hne : cs ≠ []) (h : ∀ c ∈ cs, ∃ x ∈ xs, c.Inspects x)
    (hr : outcome env (.union cs) = .ok r) :
    (∀ c ∈ cs, ∃ v, outcome env c = .ok v) ∧ ∀ u, r.Has u ↔ Leaves (Yielded env (.union cs)) u := by
  obtain ⟨us, hus, rfl⟩ := (outcome_union hg (isReducible_cases hne h)).1 r hr
  refine ⟨fun c hc => ?_, fun u => ?_⟩
  · obtain ⟨v, -, hv⟩ := Ty.partner hus hc
    exact ⟨v, hv⟩
  · rw [Ty.has_unionOf]
    refine Ty.leaves_congr fun u => ?_
    rw [Yielded, Ty.unionMembers_inspecting h]
    constructor
    · rintro ⟨v, hv, hu⟩
      obtain ⟨c, hc, ho⟩ := Ty.partner hus.flip hv
      exact ⟨c, hc, v, ho, hu⟩
    · rintro ⟨c, hc, v, ho, hu⟩
      obtain ⟨w, hw, ho'⟩ := Ty.partner hus hc
      cases ho.symm.trans ho'
      exact ⟨v, hw, hu⟩

/-- The type is evaluated as soon as all the conditionals that it is made of are. -/
theorem outcome_members (h : Cases xs t) (hm : ∀ c ∈ t.unionMembers, ∃ v, outcome env c = .ok v) :
    TooDeep (outcome env t) ∨ ∃ r, outcome env t = .ok r := by
  cases h with
  | one _ hc =>
    rw [hc.unionMembers] at hm
    exact .inr (hm t List.mem_cons_self)
  | more hne hcs =>
    rw [Ty.unionMembers_inspecting hcs] at hm
    exact (outcome_union hg (isReducible_cases hne hcs)).2 hm

/-- What the type comes to, once it is united with other types, is what the conditionals come to that it is made of. -/
theorem yields_members (h : Cases xs t) (hr : outcome env t = .ok r) :
    (∀ c ∈ t.unionMembers, ∃ v, outcome env c = .ok v) ∧ ∀ u, Leaves r.Has u ↔ Leaves (Yielded env t) u := by
  cases h with
  | one _ hc =>
    rw [hc.unionMembers]
    refine ⟨List.forall_mem_singleton.2 ⟨r, hr⟩, fun u => Ty.leaves_congr fun u => ?_⟩
    rw [Yielded, hc.unionMembers]
    refine ⟨fun hu => ⟨t, List.mem_cons_self, r, hr, hu⟩, ?_⟩
    rintro ⟨c, hc, v, ho, hu⟩
    rw [List.mem_singleton.1 hc, hr] at ho
    cases ho
    exact hu
  | @more cs hne hcs =>
    obtain ⟨ends, has⟩ := has_outcome_union hg hne hcs hr
    rw [Ty.unionMembers_inspecting hcs]
    refine ⟨ends, fun u => ?_⟩
    rw [Ty.leaves_congr has, Ty.leaves_leaves]

end Cases

/-! ### Splits -/

section Split
variable {ts : List Ty} {r : Ty} {xs : List Ty}

omit hg in
/-- What conditionals come to does not depend on how they are grouped. -/
theorem yielded_united (hne : ts ≠ []) (h : ∀ t ∈ ts, Cases xs t) (u : Ty) :
    Yielded env (Ty.unionOf ts) u ↔ ∃ t, t ∈ ts ∧ Yielded env t u := by
  obtain ⟨-, sources, into⟩ := Ty.united_cases hne h
  constructor
  · rintro ⟨c, hc, v, ho, hu⟩
    obtain ⟨t, ht, hc⟩ := sources c hc
    exact ⟨t, ht, c, hc, v, ho, hu⟩
  · rintro ⟨t, ht, c, hc, v, ho, hu⟩
    obtain ⟨c', hc', hi⟩ := into t ht c hc
    obtain ⟨v', ho', hi'⟩ := outcome_identical (Ty.identical_symm hi) ho
    exact ⟨c', hc', v', ho', (Ty.has_of_identical hi' u).1 hu⟩

/-- Types that are made of conditionals come to the union of what they come to by themselves, once they are united to a
    union. -/
theorem outcome_united (hne : ts ≠ []) (h : ∀ t ∈ ts, Cases xs t) (more : ∃ cs, Ty.unionOf ts = .union cs)
    (each : ∀ t ∈ ts, ∃ r, outcome env t = .ok r) :
    TooDeep (outcome env (Ty.unionOf ts)) ∨ ∃ r, outcome env (Ty.unionOf ts) = .ok r ∧
      ∀ u, r.Has u ↔ Leaves (fun u => ∃ t, t ∈ ts ∧ ∃ r, outcome env t = .ok r ∧ r.Has u) u := by
  obtain ⟨made, sources, -⟩ := Ty.united_cases hne h
  have ends : ∀ c ∈ (Ty.unionOf ts).unionMembers, ∃ v, outcome env c = .ok v := by
    intro c hc
    obtain ⟨t, ht, hc⟩ := sources c hc
    obtain ⟨r, hr⟩ := each t ht
    exact (yields_members hg (h t ht) hr).1 c hc
  refine (outcome_members hg made ends).imp_right fun ⟨r, hr⟩ => ⟨r, hr, fun u => ?_⟩
  have whole : r.Has u ↔ Leaves (Yielded env (Ty.unionOf ts)) u := by
    obtain ⟨cs, he⟩ := more
    rw [he] at made hr ⊢
    cases made with
    | one _ hc =>
      obtain ⟨_, _, _, _, he⟩ := hc
      cases he
    | more hne hcs => exact (has_outcome_union hg hne hcs hr).2 u
  have groups : ∀ u, (∃ t, t ∈ ts ∧ Leaves (Yielded env t) u) ↔
      ∃ t, t ∈ ts ∧ Leaves (fun u => ∃ r, outcome env t = .ok r ∧ r.Has u) u := by
    refine fun u => exists_congr fun t => and_congr_right fun ht => ?_
    obtain ⟨r, hr⟩ := each t ht
    rw [← (yields_members hg (h t ht) hr).2 u]
    refine Ty.leaves_congr fun u => ⟨fun hu => ⟨r, hr, hu⟩, ?_⟩
    rintro ⟨r', hr', hu⟩
    cases hr.symm.trans hr'
    exact hu
  calc r.Has u ↔ Leaves (Yielded env (Ty.unionOf ts)) u := whole
    _ ↔ Leaves (fun u => ∃ t, t ∈ ts ∧ Yielded env t u) u := Ty.leaves_congr (yielded_united hne h)
    _ ↔ Leaves (fun u => ∃ t, t ∈ ts ∧ Leaves (Yielded env t) u) u := Ty.leaves_grouped.symm
    _ ↔ Leaves (fun u => ∃ t, t ∈ ts ∧ Leaves (fun u => ∃ r, outcome env t = .ok r ∧ r.Has u) u) u :=
      Ty.leaves_congr groups
    _ ↔ Leaves (fun u => ∃ t, t ∈ ts ∧ ∃ r, outcome env t = .ok r ∧ r.Has u) u := Ty.leaves_grouped

/-- Where the evaluation of one of them fails, so does that of their union. -/
theorem outcome_united_error (hne : ts ≠ []) (h : ∀ t ∈ ts, Cases xs t) {t : Ty} (ht : t ∈ ts) {e : TypeError}
    (he : outcome env t = .error e) (hd : ¬TooDeep (outcome env t)) (r : Ty) : outcome env (Ty.unionOf ts) ≠ .ok r := by
  intro hr
  obtain ⟨made, -, into⟩ := Ty.united_cases hne h
  have ends : ∀ c ∈ t.unionMembers, ∃ v, outcome env c = .ok v := by
    intro c hc
    obtain ⟨c', hc', hi⟩ := into t ht c hc
    obtain ⟨v, hv⟩ := (yields_members hg made hr).1 c' hc'
    obtain ⟨v', hv', -⟩ := outcome_identical hi hv
    exact ⟨v', hv'⟩
  rcases outcome_members hg (h t ht) ends with deep | ⟨v, hv⟩
  · exact hd deep
  · rw [hv] at he
    cases he

end Split
end TypeCalculus.Evaluate

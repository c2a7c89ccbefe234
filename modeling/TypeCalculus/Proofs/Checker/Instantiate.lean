import Mathlib
import TypeCalculus.Checker.Basic
import TypeCalculus.Proofs.Substitute.Compose
import TypeCalculus.Proofs.Evaluate.Arguments

/-! Arguments respect the constraints of their parameters. A constraint is checked under the bindings made so far, and it
    reads no others: later bindings may be shadowed in it, but they do not change what it comes to
    (`instantiate_respects_constraints`). -/

namespace TypeCalculus

open Ty (Free isParamOf Built)

/-- The parameters have names of their own. -/
theorem distinct_of_checkParams {seen : List String} {params : List ParamDecl} (h : checkParams seen params = .ok ()) :
    (params.map (·.name)).Nodup ∧ ∀ n ∈ params.map (·.name), n ∉ seen := by
  induction params generalizing seen with
  | nil => exact ⟨List.nodup_nil, nofun⟩
  | cons p ps ih =>
    rw [checkParams] at h
    split at h
    · cases h
    · split at h
      · cases h
      · rename_i hseen
        rw [List.contains_iff_mem] at hseen
        cases hc : p.constraint.validateOptional with
        | error e =>
          rw [hc] at h
          cases h
        | ok =>
          cases hd : p.default.validateOptional with
          | error e =>
            rw [hc, hd] at h
            cases h
          | ok =>
            rw [hc, hd] at h
            obtain ⟨distinct, apart⟩ := ih h
            refine ⟨List.nodup_cons.2 ⟨fun hn => apart _ hn List.mem_cons_self, distinct⟩, fun n hn => ?_⟩
            rcases List.mem_cons.1 hn with rfl | hn
            · exact hseen
            · exact fun h => apart n hn (List.mem_cons_of_mem _ h)

namespace Evaluate

/-- The type refers freely to the names only. Where it does not have its normal form, it mentions one of them, or none of
    the other names. -/
structure Anchored (names others : List String) (t : Ty) : Prop where
  free : ∀ n, Free n t → n ∈ names
  regular : Built t ∨ (∃ n ∈ names, t.occurs (isParamOf n) = true) ∨ ∀ n ∈ others, t.occurs (isParamOf n) = false

/-- Bindings of other names change nothing in a type that refers to the names only. -/
theorem Anchored.substituteOnce {names others : List String} {t : Ty} {s : Subst} (h : Anchored names others t)
    (hs : ∀ n, s.binds n = true ↔ n ∈ names ++ others) (apart : ∀ n ∈ names, n ∉ others) :
    t.substituteOnce (s.without others) = t.substituteOnce s := by
  have kept : ∀ n ∈ names, (s.without others).find? n = s.find? n := by
    intro n hn
    rw [Subst.find?_without, if_neg (apart n hn)]
  have bound : ∀ n, (s.without others).binds n = true ↔ n ∈ names := by
    intro n
    rw [Subst.binds, Subst.find?_without]
    split
    · rename_i hn
      exact ⟨fun h => absurd h Bool.false_ne_true, fun h => absurd hn (apart n h)⟩
    · rename_i hn
      rw [← Subst.binds, hs, List.mem_append]
      exact or_iff_left hn
  refine Substitute.substituteOnce_agrees (fun n hn => kept n (h.free n hn)) (h.regular.imp_right fun hr => ?_)
  rw [Bool.eq_iff_iff, Ty.mentions_iff, Ty.mentions_iff]
  simp only [bound, hs, List.mem_append]
  rcases hr with ⟨n, hn, ho⟩ | hr
  · refine ⟨?_, fun _ => ⟨n, ho, hn⟩⟩
    rintro ⟨m, hm, hb⟩
    exact ⟨m, hm, .inl hb⟩
  · refine exists_congr fun n => and_congr_right fun ho => (or_iff_left fun hn => ?_).symm
    rw [hr n hn] at ho
    cases ho

/-- What an argument comes to; a missing one stays missing. -/
def Given (env : Env) (arg given : Ty) : Prop :=
  arg = .absent ∧ given = .absent ∨ arg ≠ .absent ∧ outcome env arg = .ok given

end Evaluate

namespace Checker
open Evaluate

theorem idle_reduceArgs {env : Env} (hg : env.guarded = true) (args : List Ty) :
    idle.All (List.Forall₂ (Given env) args) (reduceArgs env args) := by
  induction args with
  | nil => exact idle.pure .nil
  | cons arg args ih =>
    rw [reduceArgs]
    split
    · rename_i ha
      exact idle.bind ih fun given hgiven => idle.pure (.cons (.inl ⟨Substitute.isAbsent_iff.1 ha, rfl⟩) hgiven)
    · rename_i ha
      refine idle.bind (idle_ofExcept _) fun _ _ => idle.bind (idle_reduce hg arg) fun t ht => ?_
      refine idle.bind ih fun given hgiven => idle.pure (.cons (.inr ⟨?_, ht⟩) hgiven)
      exact fun h => ha (Substitute.isAbsent_iff.2 h)

/-- Every parameter is bound and nothing else. Under the final bindings, an argument that is given or inferred satisfies the
    constraint of its parameter, and the constraint stands for an argument of which nothing is told. -/
theorem instantiate_respects_constraints {c : Checker} {params : List ParamDecl} {args : List Ty}
    {sites : List InferenceSite} {σ : Subst} (h : (c.instantiate params args sites).1 = .ok σ)
    (steady : ∀ before p after, params = before ++ p :: after →
      Anchored (before.map (·.name)) ((p :: after).map (·.name)) p.constraint) :
    (∀ n, σ.binds n = true ↔ n ∈ params.map (·.name)) ∧
      ∃ given, List.Forall₂ (Given c.env) args given ∧ ∀ before p after, params = before ++ p :: after →
        let unbound := (p :: after).map (·.name)
        ∃ t, σ.find? p.name = some t ∧
          Assigned c.env sites unbound (σ.without unbound) σ p (given[before.length]?.getD .absent) t := by
  rw [instantiate] at h
  split at h
  · cases h
  · rename_i hp
    obtain ⟨distinct, -⟩ := distinct_of_checkParams hp
    have bound : idle.All (fun σ => (∀ n, σ.binds n = true ↔ n ∈ params.map (·.name)) ∧
        ∃ given, List.Forall₂ (Given c.env) args given ∧ ∀ before p after, params = before ++ p :: after →
          AssignedAt c.env sites given σ before p after)
        (reduceArgs c.env args >>= fun args => Evaluate.instantiate c.env (reduce c.env c.limit) params args sites) := by
      refine idle.bind (idle_reduceArgs rfl args) fun given hgiven => ?_
      rw [Evaluate.instantiate]
      split
      · exact idle_throw _
      · refine idle.imp (fun σ => ?_) (idle_bindAll rfl sites distinct (List.nil_append _).symm fun n => ?_)
        · rintro ⟨names, -, all⟩
          exact ⟨names, given, hgiven, all⟩
        · simp [Subst.binds, Subst.find?]
    obtain ⟨names, given, hgiven, all⟩ := (bound {} ⟨rfl, rfl⟩).1 σ h
    refine ⟨names, given, hgiven, fun before p after hparams => ?_⟩
    obtain ⟨t, ht, assigned⟩ := all before p after hparams
    refine ⟨t, ht, assigned.congr ((steady before p after hparams).substituteOnce (fun n => ?_) fun n hn ho => ?_)⟩
    · rw [names, hparams, List.map_append]
    · rw [hparams, List.map_append] at distinct
      exact (List.nodup_append.1 distinct).2.2 n hn n ho rfl

/-- The second parameter is bound to what its use tells, which satisfies its constraint with the first one bound. -/
theorem instantiate_listed :
    let c := Checker.new 5 2
    let listed : ParamDecl := ⟨"T", .array (.param "S" .absent .absent) false, .absent⟩
    let sites : List InferenceSite := [⟨.param "T" .absent .absent, .array (.stringLit "a") false⟩]
    let σ : Subst := ⟨[("S", .stringLit "a"), ("T", .array (.stringLit "a") false)]⟩
    (c.instantiate [⟨"S", .string, .absent⟩, listed] [.stringLit "a"] sites).1 = .ok σ ∧
      ∃ t, σ.find? "T" = some t ∧ Assigned c.env sites ["T"] (σ.without ["T"]) σ listed .absent t := by
  intro c listed sites σ
  have ran : (c.instantiate [⟨"S", .string, .absent⟩, listed] [.stringLit "a"] sites).1 = .ok σ := by cbv
  have param : Built (.param "S" .absent .absent) := Ty.built_param "S"
  have steady : ∀ before p after, [⟨"S", .string, .absent⟩, listed] = before ++ p :: after →
      Anchored (before.map (·.name)) ((p :: after).map (·.name)) p.constraint := by
    intro before p after h
    rcases before with _ | ⟨_, _ | ⟨_, before⟩⟩
    · cases h
      exact ⟨fun n hn => absurd hn (Ty.hasFreeParams_eq_false.1 rfl n), .inl (Ty.built_atom rfl)⟩
    · cases h
      refine ⟨fun n hn => ?_, .inl (Ty.built_plain rfl (List.forall_mem_singleton.2 param))⟩
      obtain ⟨u, hu, hn⟩ := (Ty.free_iff rfl rfl).1 hn
      cases List.mem_singleton.1 hu
      exact List.mem_singleton.2 (Ty.free_param.1 hn)
    · simp at h
  obtain ⟨-, given, hgiven, all⟩ := instantiate_respects_constraints ran steady
  cases hgiven with
  | cons _ rest =>
    cases rest
    exact ⟨ran, all [⟨"S", .string, .absent⟩] listed [] rfl⟩

end Checker
end TypeCalculus

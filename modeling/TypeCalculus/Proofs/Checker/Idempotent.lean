import TypeCalculus.Proofs.Checker.Annotated
import TypeCalculus.Proofs.Checker.NormalForm
import TypeCalculus.Proofs.Evaluate.Settled

/-! Evaluating a result again gives it back. A result is settled, whether it was computed or remembered, and a settled
    type in normal form evaluates to itself. A remembered result of the second evaluation may belong to another type,
    which is identical to the first result, hence settled, and was asked about in normal form (`Asked`). -/

namespace TypeCalculus
open Ty (Normal)

theorem Ty.substitute_empty (t : Ty) : t.substitute {} = t := by
  have unbound : t.mentions {} = false := by
    induction t using parts_induction with
    | step t ih =>
      rw [Bool.eq_false_iff]
      intro h
      rcases (occurs_iff rfl).1 h with h | ⟨u, hu, h⟩
      · cases t with
        | param => cases h
        | _ => cases h
      · have := ih u hu
        rw [mentions, h] at this
        cases this
  rw [substitute, if_neg (by rw [unbound]; exact Bool.false_ne_true)]

/-- What stands for no bindings stands for none else. -/
theorem Subst.eq_empty_of_identical {s : Subst} (h : s.toTy.identical (toTy {}) = true) : s = {} := by
  have none := (alike_of_identical_toTy h).1
  obtain ⟨entries⟩ := s
  exact congrArg Subst.mk (List.length_eq_zero_iff.1 none)

namespace Checker
open Evaluate (Settled)

/-! ### What was asked -/

/-- The checker was asked about types in normal form only. -/
def Asked (c : Checker) : Prop := ∀ key e, (key, e) ∈ c.stored → Normal e.first

theorem Reachable.asked {limit cacheSize : Int} {c : Checker} (h : Reachable Call.Normal limit cacheSize c) :
    c.Asked :=
  h.recalls (Q := fun t _ => Normal t) (fun _ _ hn => hn.1) (fun _ _ hn => hn.1) (fun _ _ hn => hn.1)
    fun _ _ hn => normal_reference hn

/-! ### Results are settled and stay -/

theorem settled_evaluateFresh (env : Evaluate.Env) (t : Ty) (s : Subst) :
    Evaluate.Yields (Settled env) (evaluateFresh env t s) :=
  Evaluate.Yields.after fun _ => (Evaluate.settled_reduce _ _).reporting _

theorem settled_forgetful {c : Checker} {t u : Ty} {s : Subst} (h : (c.forgetful.evaluate t s).1 = .ok u) :
    Settled c.env u := by
  rw [evaluate_forgetful] at h
  split at h
  · cases h
  · exact settled_evaluateFresh c.env t s {} u h

/-- Every result of a checker is settled, computed or remembered. -/
theorem settled_evaluate {c : Checker} (hc : c.Sound) {t u : Ty} {s : Subst} (h : (c.evaluate t s).1 = .ok u) :
    Settled c.env u := by
  rcases evaluate_of_sound hc t s with ⟨t', s', r, -, -, hf, hr⟩ | hf
  · rw [hr] at h
    cases h
    exact settled_forgetful hf
  · rw [hf] at h
    exact settled_forgetful h

/-- Without bindings, a type is evaluated as it is. -/
theorem evaluateFresh_unbound (env : Evaluate.Env) (t : Ty) :
    ((evaluateFresh env t {}).run {}).1 = ((Evaluate.reduce env env.limit t).run {}).1 := by
  have start : (evaluateFresh env t {}).run {} =
      (Evaluate.reporting (.evaluationFailed t) (Evaluate.reduce env env.limit (t.substitute {}))).run {} := rfl
  rw [start, Ty.substitute_empty, (Evaluate.run_reporting _ _ _).1]

/-- A settled type in normal form evaluates to itself, unless it nests too deep. -/
theorem evaluateFresh_settled {env : Evaluate.Env} {t : Ty} (hn : Normal t) (hs : Settled env t) :
    ((evaluateFresh env t {}).run {}).1 = .ok t ∨
      ∃ limit u, ((evaluateFresh env t {}).run {}).1 = .error (.tooDeep limit u) := by
  rw [evaluateFresh_unbound]
  rcases Evaluate.reduce_settled env.limit hn hs {} nofun with ⟨u, hu, rfl, -⟩ | ⟨limit, u, hu⟩
  · exact Or.inl hu
  · exact Or.inr ⟨limit, u, hu⟩

/-- Evaluating a valid result again without bindings, by whatever checker with the same declarations, gives a type
    identical to it or nests too deep. -/
theorem evaluation_idempotent {limit cacheSize limit' cacheSize' : Int} {c c' : Checker}
    (h : Reachable Call.Normal limit cacheSize c) (h' : Reachable Call.Normal limit' cacheSize' c')
    (hd : c'.decls = c.decls) {t r : Ty} {s : Subst} (ht : Normal t) (hs : s.Forall Normal)
    (hr : (c.evaluate t s).1 = .ok r) (hv : r.validate = .ok ()) :
    (∃ limit u, (c'.evaluate r {}).1 = .error (.tooDeep limit u)) ∨
      ∃ r', (c'.evaluate r {}).1 = .ok r' ∧ r'.identical r = true := by
  have normal : Normal r := (normal_evaluate h.holds ht hs).2 r hr
  have settled : Settled c'.env r := (settled_evaluate h.sound hr).of_decls hd
  have fresh := evaluateFresh_settled normal settled
  have answered := evaluated c' r {}
  generalize c'.evaluate r {} = out at answered ⊢
  cases answered with
  | invalid he =>
    rw [hv] at he
    cases he
  | recalled _ hm hi hi' _ =>
    -- The entry belongs to a type identical to `r`, which therefore evaluates to itself as well.
    obtain ⟨-, s', hs', -, he⟩ := h'.sound _ _ hm
    have unbound : s' = {} := Subst.eq_empty_of_identical (hs' ▸ hi')
    rw [evaluate_forgetful, unbound] at he
    split at he
    · cases he
    · rcases evaluateFresh_settled (h'.asked _ _ hm) (settled.of_identical (Ty.identical_symm hi)) with same | ⟨_, _, same⟩
      · rw [same] at he
        exact Or.inr ⟨_, rfl, Except.ok.inj he ▸ hi⟩
      · rw [same] at he
        cases he
  | computed _ ho _ =>
    rw [ho] at fresh
    rcases fresh with fresh | ⟨limit, u, fresh⟩
    · cases fresh
      exact Or.inr ⟨r, rfl, Ty.identical_refl r⟩
    · cases fresh
  | failed _ ho _ =>
    rw [ho] at fresh
    rcases fresh with fresh | ⟨limit, u, fresh⟩
    · cases fresh
    · cases fresh
      exact Or.inl ⟨limit, u, rfl⟩

/-- A declared name beside a `keyof` that waits for its parameter. -/
theorem evaluation_idempotent_waiting :
    let box : Declaration := ⟨"Box", [⟨"T", .absent, .absent⟩], .array (.param "T" .absent .absent) false⟩
    let c := (Checker.new 5 2).after (.declare box)
    let t := Ty.tuple [.keyOf (.param "U" .absent .absent), .reference "Box" [.string]]
    let r := Ty.tuple [.keyOf (.param "U" .absent .absent), .array .string false]
    (c.evaluate t {}).1 = .ok r ∧
    ((∃ limit u, ((c.evaluate t {}).2.evaluate r {}).1 = .error (.tooDeep limit u)) ∨
      ∃ r', ((c.evaluate t {}).2.evaluate r {}).1 = .ok r' ∧ r'.identical r = true) := by
  intro box c t r
  have param : ∀ name, Normal (.param name .absent .absent) := by
    refine fun name => ⟨trivial, fun u hu => ?_⟩
    simp only [Ty.children, List.mem_cons, List.not_mem_nil, or_false, or_self] at hu
    exact hu ▸ Ty.normal_absent
  have declared : box.Normal := by
    refine ⟨fun p hp => ?_, .single trivial rfl (param "T")⟩
    rw [List.mem_singleton.1 hp]
    exact ⟨Ty.normal_absent, Ty.normal_absent⟩
  have normal : Normal t := by
    refine ⟨trivial, List.forall_mem_cons.2 ⟨.single trivial rfl (param "U"), List.forall_mem_singleton.2 ?_⟩⟩
    exact .single trivial rfl (Ty.normal_prim _)
  have reached : Reachable Call.Normal 5 2 c := .call (.declare box) .new declared
  have first : (c.evaluate t {}).1 = .ok r := by
    rw [evaluate_of_empty rfl, evaluate_forgetful]
    cbv
  exact ⟨first, evaluation_idempotent reached (.call (.evaluate t {}) reached ⟨normal, Subst.forall_empty⟩)
    (evaluated c t {}).steady.decls normal Subst.forall_empty first (by cbv)⟩

end Checker
end TypeCalculus

import TypeCalculus.Proofs.Checker.Memo
import TypeCalculus.Proofs.Evaluate.Mirrored

/-! Memory cannot be told but for annotations. A remembered result may belong to a type and bindings that differ from those
    asked for in what is written beside their parameters; but where nothing else differs, types evaluate alike
    (`evaluateFresh_identical`), so the result is identical to the one that is computed anew (`evaluate_anew`). -/

namespace TypeCalculus
open Evaluate (Env Mirrors)

namespace Subst

/-- Bindings that are alike differ in annotations only. -/
theorem Alike.mirror_eq {s s' : Subst} (h : s.Alike s') : s.mirror Ty.bare = s'.mirror Ty.bare := by
  let bared (e : String × Ty) : String × Ty := (e.1, e.2.annotated Ty.bare)
  have entries : ∀ es es' : List (String × Ty), Alike ⟨es⟩ ⟨es'⟩ → es.map bared = es'.map bared := by
    intro es
    induction es with
    | nil =>
      intro es' h
      cases es' with
      | nil => rfl
      | cons => cases h.1
    | cons e es ih =>
      intro es' h
      cases es' with
      | nil => cases h.1
      | cons e' es' =>
        obtain ⟨name, type⟩ := h.2 (e, e') List.mem_cons_self
        have first : bared e = bared e' := Prod.ext name ((Ty.identical_iff e.2 e'.2).1 type)
        have rest : Alike ⟨es⟩ ⟨es'⟩ := ⟨Nat.succ.inj h.1, fun p hp => h.2 p (List.mem_cons_of_mem _ hp)⟩
        rw [List.map_cons, List.map_cons, first, ih es' rest]
  exact congrArg Subst.mk (entries s.entries s'.entries h)

end Subst

namespace Evaluate
variable (α : Ty.Annotation) (env : Env)

/-- Bindings and annotated ones are evaluated alike. -/
theorem mirrored_closeBindings (s : Subst) (entries : List (String × Ty)) :
    Mirrors α (fun s s' => s' = s.mirror α) (closeBindings env s entries)
      (closeBindings (env.mirror α) (s.mirror α) (entries.map fun e => (e.1, e.2.annotated α))) := by
  induction entries with
  | nil => exact mirrors_pure rfl
  | cons e rest ih =>
    obtain ⟨name, t⟩ := e
    rw [List.map_cons, closeBindings, closeBindings, Substitute.isAbsent_annotated]
    split
    · exact ih
    · rw [← substitute_annotated]
      refine mirrors_bind (mirrored_reduce α env env.limit (t.substitute s)) ?_
      rintro u _ rfl
      refine mirrors_bind ih ?_
      rintro closed _ rfl
      exact mirrors_pure (Subst.insert_mirror α closed name u).symm

end Evaluate

namespace Checker
open Evaluate (mirrors_bind mirrored_closeBindings mirrored_reduce)

/-- Evaluating an annotated type under annotated bindings gives the result of the type, annotated. -/
theorem mirrored_evaluateFresh (α : Ty.Annotation) (env : Env) (t : Ty) (s : Subst) :
    Mirrors α (Ty.Image α) (evaluateFresh env t s) (evaluateFresh (env.mirror α) (t.annotated α) (s.mirror α)) := by
  refine mirrors_bind ((mirrored_closeBindings α env s s.entries).reporting _ _) ?_
  rintro closed _ rfl
  rw [← Evaluate.substitute_annotated]
  exact (mirrored_reduce α env env.limit _).reporting _ _

/-- Identical types evaluate under bindings that are alike to identical types, or fail both. -/
theorem evaluateFresh_identical {env : Env} {t t' r' : Ty} {s s' : Subst} (ht : t'.identical t = true) (hs : s'.Alike s)
    (h : ((evaluateFresh env t' s').run {}).1 = .ok r') :
    ∃ r, ((evaluateFresh env t s).run {}).1 = .ok r ∧ r'.identical r = true := by
  have same : t'.annotated Ty.bare = t.annotated Ty.bare := (Ty.identical_iff t' t).1 ht
  have left := mirrored_evaluateFresh Ty.bare env t' s' {} {} (Evaluate.mirrors_start _)
  have right := mirrored_evaluateFresh Ty.bare env t s {} {} (Evaluate.mirrors_start _)
  rw [same, hs.mirror_eq, h] at left
  rcases left with ⟨_, b, ⟨⟩, hb, rfl, -⟩ | ⟨⟨_, ⟨⟩⟩, -⟩
  rw [hb] at right
  rcases right with ⟨r, _, hr, ⟨⟩, he, -⟩ | ⟨-, _, ⟨⟩⟩
  exact ⟨r, hr, (Ty.identical_iff r' r).2 he⟩

/-- What an evaluation gives, computed or remembered, is what it gives without memory, or identical to that. -/
theorem evaluate_anew {c : Checker} (hc : c.Sound) (t : Ty) (s : Subst) :
    (c.evaluate t s).1 = (c.forgetful.evaluate t s).1 ∨
      ∃ r r', (c.evaluate t s).1 = .ok r ∧ (c.forgetful.evaluate t s).1 = .ok r' ∧ r.identical r' = true := by
  have answered := evaluated c t s
  have fresh := evaluate_forgetful c t s
  generalize c.evaluate t s = out at answered ⊢
  cases answered with
  | invalid hv =>
    rw [hv] at fresh
    exact .inl fresh.symm
  | recalled hv hm hi hi' _ =>
    obtain ⟨-, s', hs', -, he⟩ := hc _ _ hm
    rw [evaluate_forgetful] at he
    rw [hv] at fresh
    split at he
    · cases he
    · obtain ⟨r, hr, same⟩ := evaluateFresh_identical hi (Subst.alike_of_identical_toTy (hs' ▸ hi')) he
      exact .inr ⟨_, r, rfl, fresh.trans hr, same⟩
  | computed hv ho _ | failed hv ho _ =>
    rw [hv] at fresh
    exact .inl (ho.symm.trans fresh.symm)

end Checker
end TypeCalculus

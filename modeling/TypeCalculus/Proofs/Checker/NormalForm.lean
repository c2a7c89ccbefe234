import Mathlib
import TypeCalculus.Proofs.Checker.Memo
import TypeCalculus.Proofs.Evaluate.NormalForm

/-! A checker that is asked about types in normal form answers with types in normal form. Its declarations and
    the results that it remembers are in normal form in every state that such calls lead to (`Holds`), so this
    is so for results that it computes and for those that it remembers. -/

namespace TypeCalculus
open Ty (Normal)

namespace Checker

/-! ### Calls about types in normal form -/

/-- What is passed to the checker is in normal form. -/
def Call.Normal : Call → Prop
  | .declare d => d.Normal
  | .isSubtype a b => a.Normal ∧ b.Normal
  | .capturing a b => a.Normal ∧ b.Normal
  | .evaluate t bindings => t.Normal ∧ bindings.Forall Ty.Normal
  | .resolve t bindings => t.Normal ∧ bindings.Forall Ty.Normal
  | .instantiate params args sites => (∀ p ∈ params, p.Normal) ∧ (∀ t ∈ args, t.Normal) ∧
      ∀ s ∈ sites, s.usage.Normal ∧ s.arg.Normal
  | .instantiateDeclaration _ args => ∀ t ∈ args, t.Normal

/-- The declarations and the remembered results are in normal form. -/
structure Holds (c : Checker) : Prop where
  decls : c.decls.Normal
  results : ∀ key e, (key, e) ∈ c.stored → Normal e.result

theorem Holds.of_keeps {c c' : Checker} (h : Keeps c c') (hc : c.Holds) : c'.Holds :=
  ⟨h.decls ▸ hc.decls, fun key e he => hc.results key e (h.stored he)⟩

theorem Holds.remember {c : Checker} {key : MemoKey} {e : MemoEntry} (hc : c.Holds) (he : Normal e.result) :
    (c.remember key e).Holds := by
  refine ⟨hc.decls, fun key' e' h => ?_⟩
  rcases List.mem_cons.1 (stored_remember c key e h) with h | h
  · cases h
    exact he
  · exact hc.results key' e' h

theorem normal_evaluateFresh {env : Evaluate.Env} (hd : env.decls.Normal) {t : Ty} {s : Subst} (ht : Normal t)
    (hs : s.Forall Normal) : Evaluate.Yields Normal (evaluateFresh env t s) := by
  refine Results.evaluating.bind ((Evaluate.yields_closeBindings hd hs hs).reporting _) fun closed hc => ?_
  exact (Evaluate.yields_reduce hd _ (Ty.normal_substitute ht hc)).reporting _

/-- An evaluation keeps what the checker holds in normal form, and so is its result. -/
theorem Evaluated.holds {c : Checker} {t : Ty} {s : Subst} {r : Except TypeError Ty × Checker} (h : Evaluated c t s r)
    (hc : c.Holds) (ht : Normal t) (hs : s.Forall Normal) : r.2.Holds ∧ ∀ u, r.1 = .ok u → Normal u := by
  cases h with
  | invalid => exact ⟨hc, nofun⟩
  | recalled _ hm _ _ keeps =>
    refine ⟨hc.of_keeps keeps, fun u hu => ?_⟩
    cases hu
    exact hc.results _ _ hm
  | computed _ ho keeps =>
    have out := normal_evaluateFresh hc.decls ht hs {} _ ho
    refine ⟨(hc.of_keeps keeps).remember out, fun u hu => ?_⟩
    cases hu
    exact out
  | failed _ _ keeps => exact ⟨hc.of_keeps keeps, nofun⟩

theorem normal_evaluate {c : Checker} (hc : c.Holds) {t : Ty} {s : Subst} (ht : Normal t) (hs : s.Forall Normal) :
    (c.evaluate t s).2.Holds ∧ ∀ u, (c.evaluate t s).1 = .ok u → Normal u :=
  (evaluated c t s).holds hc ht hs

theorem Compared.holds {c : Checker} {a b : Ty} {r : Bool × Checker} (h : Compared c a b r) (hc : c.Holds) :
    r.2.Holds := by
  cases h with
  | missing => exact hc
  | recalled _ _ _ keeps => exact hc.of_keeps keeps
  | computed keeps => exact (hc.of_keeps keeps).remember Ty.normal_absent

theorem holds_declare {c : Checker} (hc : c.Holds) {d : Declaration} (hd : d.Normal) : (c.declare d).2.Holds := by
  rcases declare_cases c d with ⟨e, h⟩ | ⟨-, -, hds, hst⟩
  · rw [h]
    exact hc
  · refine ⟨hds ▸ hc.decls.insert hd, fun key e he => ?_⟩
    rw [hst] at he
    cases he

theorem normal_reference {name : String} {args : List Ty} (h : ∀ t ∈ args, Normal t) : Normal (.reference name args) :=
  ⟨trivial, h⟩

/-- Calls about types in normal form keep what the checker holds in normal form. -/
theorem Called.holds {c c' : Checker} {call : Call} (h : Called c call c') (hc : c.Holds) (hn : call.Normal) :
    c'.Holds := by
  cases h with
  | declared d => exact holds_declare hc hn
  | compared a b => exact (Checker.compared c a b).holds hc
  | evaluated t s | resolved t s => exact (normal_evaluate hc hn.1 hn.2).1
  | applied name args => exact (normal_evaluate hc (normal_reference hn) Subst.forall_empty).1
  | kept keeps => exact hc.of_keeps keeps

theorem Reachable.holds {limit cacheSize : Int} {c : Checker} (h : Reachable Call.Normal limit cacheSize c) :
    c.Holds := by
  induction h with
  | new =>
    refine ⟨nofun, fun key e he => ?_⟩
    rw [stored_new] at he
    cases he
  | call call _ hn ih => exact (called _ call).holds ih hn
  | drop _ hm hsub ih => exact ih.of_keeps (Keeps.drop hm hsub)

/-! ### Everything comes out in normal form -/

theorem normal_instantiate {c : Checker} (hc : c.Holds) {params : List ParamDecl} {args : List Ty}
    {sites : List Evaluate.InferenceSite} (hp : ∀ p ∈ params, p.Normal) (ha : ∀ t ∈ args, Normal t)
    (hs : ∀ s ∈ sites, Normal s.usage ∧ Normal s.arg) {s : Subst}
    (h : (c.instantiate params args sites).1 = .ok s) : s.Forall Normal := by
  have reduced : ∀ {ts : List Ty}, (∀ t ∈ ts, Normal t) →
      Evaluate.Yields (fun us => ∀ u ∈ us, Normal u) (reduceArgs c.env ts) := by
    intro ts
    induction ts with
    | nil => exact fun _ => Results.evaluating.pure nofun
    | cons t ts ih =>
      intro hts
      have rest := ih fun u hu => hts u (List.mem_cons_of_mem _ hu)
      have cons : ∀ {u us}, Normal u → (∀ v ∈ us, Normal v) → ∀ v ∈ u :: us, Normal v := by
        intro u us hu hus v hv
        rcases List.mem_cons.1 hv with rfl | hv
        · exact hu
        · exact hus v hv
      rw [reduceArgs]
      split
      · exact Results.evaluating.bind rest fun us hus => Results.evaluating.pure (cons Ty.normal_absent hus)
      · refine Evaluate.Yields.after fun _ => ?_
        refine Results.evaluating.bind (Evaluate.yields_reduce hc.decls _ (hts t List.mem_cons_self)) fun u hu => ?_
        exact Results.evaluating.bind rest fun us hus => Results.evaluating.pure (cons hu hus)
  unfold instantiate at h
  split at h
  · cases h
  · refine Results.evaluating.bind (reduced ha) (fun us hus => ?_) {} s h
    exact Evaluate.yields_instantiate (fun ht => Evaluate.yields_reduce hc.decls c.limit ht) hp hus hs

/-- Types in normal form lead to types in normal form only: through the normalising constructors, through
    substitution, and through every call of a checker whose declarations and earlier questions were in normal
    form. -/
theorem normal_form_kept {limit cacheSize : Int} {c : Checker} (h : Reachable Call.Normal limit cacheSize c) :
    (∀ ts, (∀ t ∈ ts, Normal t) → Normal (Ty.unionOf ts)) ∧
    (∀ ts, (∀ t ∈ ts, Normal t) → Normal (Ty.meetOf ts)) ∧
    (∀ segments t, (∀ u ∈ Ty.holes segments, Normal u) → Ty.newTemplate segments = .ok t → Normal t) ∧
    (∀ props index t, (∀ p ∈ props, Normal p.type) → (∀ i, index = some i → Normal i.value) →
      Ty.newObject props index = .ok t → Normal t) ∧
    (∀ check bound yes no t, Normal check → Normal bound → Normal yes → Normal no →
      Ty.newConditional check bound yes no = .ok t → Normal t) ∧
    (∀ t s, Normal t → s.Forall Normal → Normal (t.substitute s)) ∧
    (∀ t name u, Normal t → Normal u → Normal (t.replaceParam name u)) ∧
    (∀ t s u, Normal t → s.Forall Normal → (c.evaluate t s).1 = .ok u → Normal u) ∧
    (∀ t s u, Normal t → s.Forall Normal → (c.resolve t s).1 = .ok u → Normal u) ∧
    (∀ params args sites s, (∀ p ∈ params, p.Normal) → (∀ t ∈ args, Normal t) →
      (∀ x ∈ sites, Normal x.usage ∧ Normal x.arg) → (c.instantiate params args sites).1 = .ok s → s.Forall Normal) ∧
    (∀ name args u, (∀ t ∈ args, Normal t) → (c.instantiateDeclaration name args).1 = .ok u → Normal u) ∧
    (∀ a b s, Normal a → Normal b → (c.capturing a b).1 = some s → s.Forall Normal) := by
  have hc := h.holds
  refine ⟨fun ts => Ty.normal_unionOf, fun ts => Ty.normal_meetOf, fun segments t => Ty.normal_newTemplate,
    fun props index t => Ty.normal_newObject, fun check bound yes no t => Ty.normal_newConditional,
    fun t s => Ty.normal_substitute, fun t name u => Ty.normal_replaceParam,
    fun t s u ht hs => (normal_evaluate hc ht hs).2 u, fun t s u ht hs hu => ?_,
    fun params args sites s hp ha hx hs => normal_instantiate hc hp ha hx hs, fun name args u ha hu => ?_, fun a b s ha hb hs => ?_⟩
  · unfold resolve at hu
    split at hu
    · exact (normal_evaluate hc ht hs).2 u hu
    · cases hu
  · unfold instantiateDeclaration at hu
    split at hu
    · exact (normal_evaluate hc (normal_reference ha) Subst.forall_empty).2 u hu
    · cases hu
  · have captures := Assignable.normal_captures { limit := c.limit } ha hb
    simp only [capturing] at hs
    split at hs
    · cases hs
      exact captures
    · cases hs

/-- A declared object with a parameter, applied to `string`. -/
theorem normal_form_kept_box :
    (((Checker.new 5 2).after (.declare ⟨"Box", [⟨"T", .absent, .absent⟩],
      .object [⟨"value", .param "T" .absent .absent, false, false⟩] none⟩)).instantiateDeclaration "Box" [.string]).1 =
        .ok (.object [⟨"value", .string, false, false⟩] none) ∧
    Normal (.object [⟨"value", .string, false, false⟩] none) := by
  have evaluated :
      (((Checker.new 5 2).after (.declare ⟨"Box", [⟨"T", .absent, .absent⟩],
        .object [⟨"value", .param "T" .absent .absent, false, false⟩] none⟩)).instantiateDeclaration "Box" [.string]).1 =
          .ok (.object [⟨"value", .string, false, false⟩] none) := by
    unfold instantiateDeclaration
    rw [if_pos (by rfl), evaluate_of_empty rfl, evaluate_forgetful]
    cbv
  have param : Normal (.param "T" .absent .absent) := by
    refine ⟨trivial, fun u hu => ?_⟩
    simp only [Ty.children, List.mem_cons, List.not_mem_nil, or_false, or_self] at hu
    exact hu ▸ Ty.normal_absent
  have body : Normal (.object [⟨"value", .param "T" .absent .absent, false, false⟩] none) := by
    refine Ty.normal_object.2 ⟨List.pairwise_singleton _ _, List.forall_mem_singleton.2 param, ?_⟩
    rintro i ⟨⟩
  have declared : Declaration.Normal ⟨"Box", [⟨"T", .absent, .absent⟩],
      .object [⟨"value", .param "T" .absent .absent, false, false⟩] none⟩ := by
    refine ⟨fun p hp => ?_, body⟩
    rw [List.mem_singleton.1 hp]
    exact ⟨Ty.normal_absent, Ty.normal_absent⟩
  obtain ⟨-, -, -, -, -, -, -, -, -, -, applied, -⟩ :=
    @normal_form_kept 5 2 _ (.call (.declare _) .new declared)
  refine ⟨evaluated, applied "Box" [.string] _ (fun t ht => ?_) evaluated⟩
  exact List.mem_singleton.1 ht ▸ Ty.normal_prim _

end Checker
end TypeCalculus

import TypeCalculus.Proofs.Checker.NormalForm
import TypeCalculus.Proofs.Evaluate.FreeParams

/-! Which parameters an evaluation leaves free. All of them are free in a type that the evaluation starts from, or
    named like a placeholder of one (`no_invented_params`). A placeholder gets lost with its bound: evaluation of
    `string extends infer X | P ? X : never` with `any` for `P` gives `X` (`placeholder_escapes`). It does not where
    every name that a true branch relies on is held by its bound. -/

namespace TypeCalculus
open Ty (Normal Built Free)

theorem Ty.free_or_declared {x : String} {t : Ty} (h : t.occurs (isParamOf x) = true) : Free x t ∨ x ∈ t.inferNames := by
  have declared : ∀ {t u : Ty}, u ∈ t.parts → x ∈ u.inferNames → x ∈ t.inferNames := fun hu hx =>
    mem_inferNames.2 (occurs_of_part rfl hu (mem_inferNames.1 hx))
  induction t using parts_induction with
  | step t ih =>
    rcases (occurs_iff rfl).1 h with h | ⟨u, hu, h⟩
    · cases t with
      | param name => exact .inl (free_param.2 (beq_iff_eq.1 h).symm)
      | _ => cases h
    · rcases ih u hu h with hf | hx
      · cases t with
        | conditional check bound yes no distribute =>
          simp only [parts, List.mem_cons, List.not_mem_nil, or_false] at hu
          rcases hu with rfl | rfl | rfl | rfl
          · exact .inl (.part (by simp [openParts]) hf)
          · exact .inl (.part (by simp [openParts]) hf)
          · by_cases hx : x ∈ bound.inferNames
            · exact .inr (declared (by simp [parts]) hx)
            · exact .inl (.yes hx hf)
          · exact .inl (.part (by simp [openParts]) hf)
        | _ => exact .inl (.part hu hf)
      · exact .inr (declared hu hx)

namespace Checker
open Evaluate (Fit Closed)

/-! ### What an evaluation starts from -/

/-- The types that an evaluation starts from: the one asked for, those bound, and those of the declarations. -/
inductive Source (c : Checker) (t : Ty) (s : Subst) : Ty → Prop
  | asked : Source c t s t
  | bound {name : String} {u : Ty} : (name, u) ∈ s.entries → Source c t s u
  | body {d : Declaration} : d ∈ c.decls.entries → Source c t s d.body
  | constraint {d : Declaration} {p : ParamDecl} : d ∈ c.decls.entries → p ∈ d.params → Source c t s p.constraint
  | default {d : Declaration} {p : ParamDecl} : d ∈ c.decls.entries → p ∈ d.params → Source c t s p.default

theorem Source.decls {c : Checker} {t : Ty} {s : Subst} {P : Ty → Prop} (h : ∀ u, c.Source t s u → P u) :
    c.decls.Forall P :=
  fun _ hd => ⟨fun _ hp => ⟨h _ (.constraint hd hp), h _ (.default hd hp)⟩, h _ (.body hd)⟩

theorem Reachable.recallsNormal {limit cacheSize : Int} {c : Checker} (h : Reachable Call.Normal limit cacheSize c) :
    c.Recalls fun t u => Normal t ∧ Normal u := by
  have bindings : ∀ {s : Subst}, s.Forall Normal → Normal s.toTy := by
    intro s hs
    unfold Subst.toTy
    split
    · exact Ty.normal_absent
    · refine ⟨trivial, fun u hu => ?_⟩
      obtain ⟨e, he, hu⟩ := List.mem_flatMap.1 hu
      rcases List.mem_cons.1 hu with rfl | hu
      · exact Ty.normal_literal _ _
      · exact List.mem_singleton.1 hu ▸ hs e he
  exact h.recalls (fun _ _ hn => hn) (fun _ _ hn => ⟨hn.1, bindings hn.2⟩) (fun _ _ hn => ⟨hn.1, bindings hn.2⟩)
    fun _ _ hn => ⟨normal_reference hn, Ty.normal_absent⟩

/-! ### Results -/

section Results
variable {known : String → Prop}

theorem fit_evaluateFresh {env : Evaluate.Env} (hd : Evaluate.Declared env known) {t : Ty} {s : Subst}
    (ht : Fit env known t) (hs : s.Forall (Fit env known)) : Evaluate.Yields (Fit env known) (evaluateFresh env t s) := by
  refine Results.evaluating.bind ((Evaluate.fit_closeBindings hd hs hs).reporting _) fun closed hc => ?_
  refine (Evaluate.fit_reduce hd _ ⟨Ty.normal_substitute ht.normal fun e he => (hc e he).normal, ?_⟩).reporting _
  exact Evaluate.closed_substitute ht.normal (fun e he => (hc e he).normal) (fun e he => (hc e he).closed) ht.closed

/-- Bindings to types in normal form that are alike to bindings of closed types are to such types. -/
theorem fit_alike {env : Evaluate.Env} {s s' : Subst} (h : s'.Alike s) (hs : s.Forall (Fit env known))
    (hn : Normal s'.toTy) : s'.Forall (Fit env known) := by
  intro e he
  obtain ⟨hl, hz⟩ := h
  obtain ⟨i, hi, rfl⟩ := List.mem_iff_getElem.1 he
  have hi' : i < s.entries.length := hl ▸ hi
  have pair : (s'.entries[i], s.entries[i]) ∈ s'.entries.zip s.entries := by
    rw [List.mem_iff_getElem]
    exact ⟨i, by simp [hi, hi'], by simp⟩
  obtain ⟨-, same⟩ := hz _ pair
  refine ⟨?_, ((hs _ (List.getElem_mem hi')).closed).of_identical (Ty.identical_symm same)⟩
  have shown : s'.toTy = .tuple (s'.entries.flatMap fun e => [Ty.stringLit e.1, e.2]) := by
    unfold Subst.toTy Subst.isEmpty
    rw [if_neg fun hempty => List.ne_nil_of_mem he (List.isEmpty_iff.1 hempty)]
  rw [shown] at hn
  exact hn.child (List.mem_flatMap.2 ⟨_, he, List.mem_cons_of_mem _ List.mem_cons_self⟩)

/-- Every result of a checker is closed, computed or remembered. -/
theorem closed_evaluate {limit cacheSize : Int} {c : Checker} (h : Reachable Call.Normal limit cacheSize c) {t r : Ty}
    {s : Subst} (hf : ∀ u, c.Source t s u → Fit c.env known u) (hr : (c.evaluate t s).1 = .ok r) :
    Closed c.env known r := by
  have decls : Evaluate.Declared c.env known := Evaluate.declared_of_fit (Source.decls hf)
  have bound : s.Forall (Fit c.env known) := fun _ he => hf _ (.bound he)
  have answered := evaluated c t s
  generalize c.evaluate t s = out at answered hr
  cases answered with
  | invalid => cases hr
  | failed => cases hr
  | computed _ ho _ =>
    cases hr
    exact (fit_evaluateFresh decls (hf t .asked) bound {} _ ho).closed
  | recalled _ hm hi hi' _ =>
    cases hr
    obtain ⟨-, s', hs', -, he⟩ := h.sound _ _ hm
    obtain ⟨nt, ns⟩ := h.recallsNormal _ _ hm
    rw [hs'] at hi' ns
    rw [evaluate_forgetful] at he
    split at he
    · cases he
    · exact (fit_evaluateFresh decls ⟨nt, (hf t .asked).closed.of_identical (Ty.identical_symm hi)⟩
        (fit_alike (Subst.alike_of_identical_toTy hi') bound ns) {} _ he).closed

/-- Evaluation invents no free parameters: those of a result are free in a type that the evaluation starts from, or
    named like a placeholder of one. If every name that a true branch relies on is held by its bound, they are free in a
    type that the evaluation starts from. -/
theorem no_invented_params {limit cacheSize : Int} {c : Checker} (h : Reachable Call.Normal limit cacheSize c) {t r : Ty}
    {s : Subst} (hb : ∀ u, c.Source t s u → Built u) (hr : (c.evaluate t s).1 = .ok r) :
    (∀ n ∈ r.freeParams, ∃ u, c.Source t s u ∧ (n ∈ u.freeParams ∨ n ∈ u.inferNames)) ∧
    ((∀ u, c.Source t s u → Closed c.env (fun n => ∃ v, c.Source t s v ∧ n ∈ v.freeParams) u) →
      ∀ n ∈ r.freeParams, ∃ u, c.Source t s u ∧ n ∈ u.freeParams) := by
  have free : ∀ {known : String → Prop}, (∀ u, c.Source t s u → Closed c.env known u) → ∀ n ∈ r.freeParams, known n := by
    intro known hc n hn
    have closed := closed_evaluate h (fun u hu => ⟨(hb u hu).normal, hc u hu⟩) hr
    exact (closed.free (Ty.mem_freeParams.1 hn)).resolve_right nofun
  refine ⟨free fun u hu => Evaluate.scoped_of_named ?_ (hb u hu).tidy, free⟩
  refine Ty.throughout_of_occurs (fun _ => rfl) fun n hn => ⟨u, hu, ?_⟩
  exact (Ty.free_or_declared hn).imp_left Ty.mem_freeParams.2

end Results

/-! ### Concrete evaluations -/

/-- A binding to a type that holds nothing to evaluate is substituted before the evaluation. -/
theorem evaluate_binding {c : Checker} (h : c.stored = []) {t v : Ty} {name : String} (ht : t.validate = .ok ())
    (hp : v.isAbsent = false) (hv : v.substitute ⟨[(name, v)]⟩ = v) (hi : Evaluate.isReducible c.env v = false) :
    (c.evaluate t ⟨[(name, v)]⟩).1 =
      ((Evaluate.reduce c.env c.env.limit (t.substitute ⟨[(name, v)]⟩)).run {}).1 := by
  have bindings : Evaluate.closeBindings c.env ⟨[(name, v)]⟩ [(name, v)] = pure ⟨[(name, v)]⟩ := by
    rw [Evaluate.closeBindings, if_neg (by rw [hp]; exact Bool.false_ne_true), hv, Evaluate.reduce_irreducible hi]
    rfl
  rw [evaluate_of_empty h, evaluate_forgetful, ht]
  dsimp only
  rw [evaluateFresh, bindings]
  exact (Evaluate.run_reporting _ _ _).1

/-- The element of an array, and a parameter beside it. -/
def elementBeside : Ty :=
  .conditional (.param "P" .absent .absent) (.array (.infer "X" .absent) false)
    (.tuple [.param "X" .absent .absent, .param "Q" .absent .absent]) .never true

theorem evaluate_elementBeside :
    ((Checker.new 5 2).evaluate elementBeside ⟨[("P", .array .string false)]⟩).1 =
      .ok (.tuple [.string, .param "Q" .absent .absent]) := by
  rw [evaluate_binding rfl (by cbv) rfl (by cbv) (by cbv)]
  rw [show elementBeside.substitute ⟨[("P", .array .string false)]⟩ = .conditional (.array .string false)
    (.array (.infer "X" .absent) false) (.tuple [.param "X" .absent .absent, .param "Q" .absent .absent]) .never false by cbv]
  exact Evaluate.reduce_matched (by cbv) (by cbv) (by cbv) rfl (by cbv) (by cbv) (by cbv) 4 List.not_mem_nil

theorem source_of_new {limit cacheSize : Int} {t u v : Ty} {name : String}
    (h : (Checker.new limit cacheSize).Source t ⟨[(name, v)]⟩ u) : u = t ∨ u = v := by
  cases h with
  | asked => exact .inl rfl
  | bound h => exact .inr (Prod.ext_iff.1 (List.mem_singleton.1 h)).2
  | body h | constraint h | default h => cases h

theorem no_invented_params_element :
    let c := Checker.new 5 2
    let s : Subst := ⟨[("P", .array .string false)]⟩
    (c.evaluate elementBeside s).1 = .ok (.tuple [.string, .param "Q" .absent .absent]) ∧
      "Q" ∈ elementBeside.freeParams ∧ "X" ∉ elementBeside.freeParams ∧
      ∀ n ∈ Ty.freeParams (.tuple [.string, .param "Q" .absent .absent]), ∃ u, c.Source elementBeside s u ∧ n ∈ u.freeParams := by
  intro c s
  have array : ∀ {t : Ty}, Built t → Built (.array t false) := fun h => Ty.built_plain rfl (List.forall_mem_singleton.2 h)
  have bound : Built (.array (.infer "X" .absent) false) := array (Ty.built_plain rfl nofun)
  have element : Built elementBeside := by
    refine Ty.built_conditional (fun _ => rfl) (Ty.built_param "P") bound (Ty.built_plain rfl ?_) (Ty.built_atom rfl)
    exact List.forall_mem_cons.2 ⟨Ty.built_param "X", List.forall_mem_singleton.2 (Ty.built_param "Q")⟩
  have strings : Built (.array .string false) := array (Ty.built_atom rfl)
  have built : ∀ u, c.Source elementBeside s u → Built u := fun u hu => by
    rcases source_of_new hu with rfl | rfl
    · exact element
    · exact strings
  have listed : elementBeside.freeParams = ["P", "Q"] := by cbv
  let known : String → Prop := fun n => ∃ v, c.Source elementBeside s v ∧ n ∈ v.freeParams
  have asked : ∀ {n : String} {now later}, n ∈ elementBeside.freeParams →
      Evaluate.Scoped c.env known now later (.param n .absent .absent) := fun hn => .param (.inl ⟨_, .asked, hn⟩)
  have plain : ∀ {t : Ty} {now later}, Built t → t.occurs Ty.isParam = false → Evaluate.Scoped c.env known now later t := by
    intro t now later ht hp
    refine Evaluate.scoped_of_named (Ty.throughout_of_occurs (fun _ => rfl) fun n hn => ?_) ht.tidy
    have hn : t.occurs Ty.isParam = true := Ty.occurs_imp rfl rfl (fun u hu => by cases u <;> first | rfl | cases hu) hn
    rw [hp] at hn
    cases hn
  -- The placeholder is the element of an array, and stays so.
  have held : Evaluate.Held c.env (.array (.infer "X" .absent) false) (fun _ => False) "X" :=
    .inl (.within rfl List.mem_cons_self (.here (by cbv)))
  have closed : ∀ u, c.Source elementBeside s u → Closed c.env known u := fun u hu => by
    rcases source_of_new hu with rfl | rfl
    · refine .conditional (asked (by simp [listed])) (plain bound rfl) (plain (Ty.built_atom rfl) rfl) ?_
      refine .node rfl rfl (Ty.tidyNode_of_structural rfl) (List.forall_mem_cons.2 ⟨.param (.inr (.inr held)), ?_⟩)
      exact List.forall_mem_singleton.2 (asked (by simp [listed]))
    · exact plain strings rfl
  have evaluated := evaluate_elementBeside
  refine ⟨evaluated, by simp [listed], by simp [listed], ?_⟩
  exact (no_invented_params .new built evaluated).2 closed

/-- The bound is `any` by the time the conditional is resolved, and declares nothing. -/
theorem placeholder_escapes :
    let c := Checker.new 5 2
    let s : Subst := ⟨[("P", .any)]⟩
    (c.evaluate Substitute.overshadowed s).1 = .ok (.param "X" .absent .absent) ∧
      "X" ∈ Ty.freeParams (.param "X" .absent .absent) ∧ ∀ u, c.Source Substitute.overshadowed s u → "X" ∉ u.freeParams := by
  intro c s
  refine ⟨?_, List.mem_singleton.2 rfl, fun u hu => ?_⟩
  · rw [evaluate_binding rfl (by cbv) rfl (by cbv) (by cbv), show Substitute.overshadowed.substitute ⟨[("P", .any)]⟩ =
      .conditional .string .any (.param "X" .absent .absent) .never false by cbv]
    exact Evaluate.reduce_matched (by cbv) (by cbv) (by cbv) rfl (by cbv) (by cbv) (by cbv) 4 List.not_mem_nil
  · rcases source_of_new hu with rfl | rfl
    · rw [show Substitute.overshadowed.freeParams = ["P"] by cbv]
      decide
    · exact List.not_mem_nil

end Checker
end TypeCalculus

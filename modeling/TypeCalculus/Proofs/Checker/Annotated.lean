import TypeCalculus.Proofs.Checker.Memo

/-! Where parameters of one name are annotated alike, memory cannot be seen at all. Identity looks past
    annotations, so a remembered answer may belong to other types than those asked for; if all types take their
    annotations from one assignment, identical operands are equal and every answer is the fresh one. -/

namespace TypeCalculus

/-! ### Bindings as one type -/

namespace Subst

theorem annotatedBy_toTy {α : Ty.Annotation} {s : Subst} (h : ∀ e ∈ s.entries, e.2.AnnotatedBy α) :
    s.toTy.AnnotatedBy α := by
  have all : ∀ es : List (String × Ty), (∀ e ∈ es, e.2.AnnotatedBy α) →
      Ty.annotatedAll α (es.flatMap fun e => [Ty.stringLit e.1, e.2]) =
        es.flatMap fun e => [Ty.stringLit e.1, e.2] := by
    intro es
    induction es with
    | nil => exact fun _ => rfl
    | cons e es ih =>
      intro h
      have head : e.2.annotated α = e.2 := h e List.mem_cons_self
      have tail := ih fun e he => h e (List.mem_cons_of_mem _ he)
      change Ty.stringLit e.1 :: e.2.annotated α :: Ty.annotatedAll α (es.flatMap _) = _
      rw [head, tail]
      rfl
  unfold toTy
  split
  · rfl
  · exact congrArg Ty.tuple (all s.entries h)

theorem toTy_inj {s s' : Subst} (h : s.toTy = s'.toTy) : s = s' := by
  have all : ∀ es es' : List (String × Ty), (es.flatMap fun e => [Ty.stringLit e.1, e.2]) =
      (es'.flatMap fun e => [Ty.stringLit e.1, e.2]) → es = es' := by
    intro es
    induction es with
    | nil =>
      intro es' h
      cases es' with
      | nil => rfl
      | cons => cases h
    | cons e es ih =>
      intro es' h
      cases es' with
      | nil => cases h
      | cons e' es' =>
        simp only [List.flatMap_cons, List.cons_append, List.nil_append, Ty.stringLit, List.cons.injEq,
          Ty.literal.injEq, true_and] at h
        obtain ⟨hn, ht, hr⟩ := h
        rw [ih es' hr, show e = e' from Prod.ext hn ht]
  obtain ⟨es⟩ := s
  obtain ⟨es'⟩ := s'
  cases es with
  | nil =>
    cases es' with
    | nil => rfl
    | cons => cases h
  | cons e es =>
    cases es' with
    | nil => cases h
    | cons e' es' => exact congrArg Subst.mk (all _ _ (Ty.tuple.inj h))

end Subst

namespace Checker

/-- `c'` goes by the limit and the declarations of `c`. -/
structure Steady (c c' : Checker) : Prop where
  limit : c'.limit = c.limit
  decls : c'.decls = c.decls

theorem Steady.env {c c' : Checker} (h : Steady c c') : c'.env = c.env := by
  rw [Checker.env, Checker.env, h.limit, h.decls]

theorem Keeps.steady {c c' : Checker} (h : Keeps c c') : Steady c c' := ⟨h.limit, h.decls⟩

theorem Compared.steady {c : Checker} {a b : Ty} {r : Bool × Checker} (h : Compared c a b r) : Steady c r.2 := by
  cases h with
  | missing => exact ⟨rfl, rfl⟩
  | recalled _ _ _ keeps => exact keeps.steady
  | computed keeps => exact ⟨keeps.limit, keeps.decls⟩

theorem Evaluated.steady {c : Checker} {t : Ty} {s : Subst} {r : Except TypeError Ty × Checker}
    (h : Evaluated c t s r) : Steady c r.2 := by
  cases h with
  | invalid => exact ⟨rfl, rfl⟩
  | recalled _ _ _ _ keeps | failed _ _ keeps => exact keeps.steady
  | computed _ _ keeps => exact ⟨keeps.limit, keeps.decls⟩

/-- Remembered answers are right, and the operands they belong to are annotated by one assignment. -/
structure Uniform (α : Ty.Annotation) (c : Checker) : Prop where
  sound : c.Sound
  operands : ∀ key e, (key, e) ∈ c.stored → e.first.AnnotatedBy α ∧ e.second.AnnotatedBy α

section Uniform
variable {α : Ty.Annotation} {c : Checker}

theorem uniform_of_empty (h : c.stored = []) : c.Uniform α := by
  refine ⟨fun key e he => ?_, fun key e he => ?_⟩
  · rw [h] at he
    cases he
  · rw [h] at he
    cases he

theorem Uniform.of_keeps {c' : Checker} (hc : c.Uniform α) (h : Keeps c c') : c'.Uniform α :=
  ⟨hc.sound.of_keeps h, fun key e he => hc.operands key e (h.stored he)⟩

theorem Uniform.remember (hc : c.Uniform α) {key : MemoKey} {e : MemoEntry} (hs : (c.remember key e).Sound)
    (hf : e.first.AnnotatedBy α) (he : e.second.AnnotatedBy α) : (c.remember key e).Uniform α := by
  refine ⟨hs, fun key' e' h => ?_⟩
  rcases List.mem_cons.1 (stored_remember c key e h) with h | h
  · cases h
    exact ⟨hf, he⟩
  · exact hc.operands key' e' h

theorem Compared.uniform {a b : Ty} {r : Bool × Checker} (h : Compared c a b r) (hc : c.Uniform α)
    (ha : a.AnnotatedBy α) (hb : b.AnnotatedBy α) : r.2.Uniform α := by
  have sound := h.sound hc.sound
  cases h with
  | missing => exact hc
  | recalled _ _ _ keeps => exact hc.of_keeps keeps
  | computed keeps => exact (hc.of_keeps keeps).remember sound ha hb

theorem Evaluated.uniform {t : Ty} {s : Subst} {r : Except TypeError Ty × Checker} (h : Evaluated c t s r)
    (hc : c.Uniform α) (ht : t.AnnotatedBy α) (hs : ∀ e ∈ s.entries, e.2.AnnotatedBy α) : r.2.Uniform α := by
  have sound := h.sound hc.sound
  cases h with
  | invalid => exact hc
  | recalled _ _ _ _ keeps | failed _ _ keeps => exact hc.of_keeps keeps
  | computed _ _ keeps => exact (hc.of_keeps keeps).remember sound ht (Subst.annotatedBy_toTy hs)

theorem Uniform.declare (hc : c.Uniform α) (d : Declaration) : (c.declare d).2.Uniform α := by
  rcases declare_cases c d with ⟨e, h⟩ | ⟨-, -, -, h⟩
  · rw [h]
    exact hc
  · exact uniform_of_empty h

/-! ### What callers see -/

/-- A comparison answers as it does without memory. -/
theorem isSubtype_of_uniform (hc : c.Uniform α) {a b : Ty} (ha : a.AnnotatedBy α) (hb : b.AnnotatedBy α) :
    (c.isSubtype a b).1 = (c.forgetful.isSubtype a b).1 := by
  rw [isSubtype_forgetful]
  have answered := compared c a b
  generalize c.isSubtype a b = r at answered ⊢
  cases answered with
  | missing hab => exact (run_of_missing hab c.limit).symm
  | recalled hm ia ib _ =>
    obtain ⟨-, -, hv⟩ := hc.sound _ _ hm
    obtain ⟨fa, fb⟩ := hc.operands _ _ hm
    rw [fa.eq_of_identical ha ia, fb.eq_of_identical hb ib] at hv
    exact hv.symm
  | computed => rfl

/-- An evaluation answers as it does without memory. -/
theorem evaluate_of_uniform (hc : c.Uniform α) {t : Ty} {s : Subst} (ht : t.AnnotatedBy α)
    (hs : ∀ e ∈ s.entries, e.2.AnnotatedBy α) : (c.evaluate t s).1 = (c.forgetful.evaluate t s).1 := by
  rw [evaluate_forgetful]
  have answered := evaluated c t s
  generalize c.evaluate t s = r at answered ⊢
  cases answered with
  | invalid hv => rw [hv]
  | recalled hv hm it is _ =>
    obtain ⟨-, s', hs', -, hr⟩ := hc.sound _ _ hm
    obtain ⟨ft, fs⟩ := hc.operands _ _ hm
    have first := ft.eq_of_identical ht it
    have second := Subst.toTy_inj (hs'.symm.trans (fs.eq_of_identical (Subst.annotatedBy_toTy hs) is))
    rw [first, second, evaluate_forgetful] at hr
    exact hr.symm
  | computed hv ho _ | failed hv ho _ =>
    rw [hv]
    exact ho.symm

end Uniform

end Checker

end TypeCalculus

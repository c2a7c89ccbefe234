import TypeCalculus.Proofs.Checker.Annotated
import TypeCalculus.Proofs.Document.Parse
import TypeCalculus.Proofs.Runner.Fingerprint
import TypeCalculus.Runner.Basic

/-! What a runner shows of a query depends on its limit and on what is declared, and on nothing that happened
    before: a fresh answer, an answer out of the memory of the checker, and a recalled answer are shown alike. -/

namespace TypeCalculus

/-! ### Answers of a checker -/

namespace Runner
open Checker (Uniform Steady)

/-- The types of the question are annotated by an assignment. -/
def AnnotatedQuestion (α : Ty.Annotation) (q : Question) : Prop := ∀ t ∈ q.types, t.AnnotatedBy α

theorem annotatedBy_instantiated {α : Ty.Annotation} {name : String} {args : List Ty}
    (h : AnnotatedQuestion α (.instantiate name args)) : (Ty.reference name args).AnnotatedBy α := by
  have all : ∀ ts : List Ty, (∀ t ∈ ts, t.AnnotatedBy α) → Ty.annotatedAll α ts = ts := by
    intro ts
    induction ts with
    | nil => exact fun _ => rfl
    | cons t ts ih =>
      intro h
      have head : t.annotated α = t := h t List.mem_cons_self
      rw [Ty.annotatedAll, head, ih fun u hu => h u (List.mem_cons_of_mem _ hu)]
  exact congrArg (Ty.reference name) (all args h)

theorem annotated_bindings {α : Ty.Annotation} {t : Ty} {s : Subst} (h : AnnotatedQuestion α (.evaluate t s)) :
    ∀ e ∈ s.entries, e.2.AnnotatedBy α :=
  fun e he => h e.2 (List.mem_cons_of_mem _ (List.mem_map_of_mem he))

theorem answer_capturing (c : Checker) (a b : Ty) :
    (answer c (.subtype a b true)).1 = .ok (match (c.capturing a b).1 with
      | none => verdict false
      | some s => verdict true ++ (if s.isEmpty then "" else " " ++ s.print), .absent) := by
  simp only [answer, if_true]
  split
  · rename_i h
    rw [h]
  · rename_i h
    rw [h]

/-- Memory does not show in answers. -/
theorem answer_of_uniform {α : Ty.Annotation} {c : Checker} (hc : c.Uniform α) {q : Question}
    (hq : AnnotatedQuestion α q) : (answer c q).1 = (answer c.forgetful q).1 := by
  cases q with
  | evaluate t s =>
    simp only [answer]
    rw [Checker.evaluate_of_uniform hc (hq t List.mem_cons_self) (annotated_bindings hq)]
  | subtype a b capture =>
    cases capture with
    | true =>
      rw [answer_capturing, answer_capturing]
      rfl
    | false =>
      simp only [answer, Bool.false_eq_true, if_false]
      rw [Checker.isSubtype_of_uniform hc (hq a List.mem_cons_self) (hq b (by simp [Question.types]))]
  | instantiate name args =>
    simp only [answer, Checker.instantiateDeclaration]
    have same : c.forgetful.decls = c.decls := rfl
    rw [same]
    split
    · rw [Checker.evaluate_of_uniform (s := {}) hc (annotatedBy_instantiated hq) (by simp)]
    · rfl
  | other kind => rfl

/-- Without memory, answers depend on the limit and the declarations. -/
theorem answer_of_steady {c c' : Checker} (h : Steady c c') (q : Question) :
    (answer c'.forgetful q).1 = (answer c.forgetful q).1 := by
  have env : c'.env = c.env := by
    unfold Checker.env
    rw [h.limit, h.decls]
  have evaluate : ∀ t s, (c'.forgetful.evaluate t s).1 = (c.forgetful.evaluate t s).1 := by
    intro t s
    rw [Checker.evaluate_forgetful, Checker.evaluate_forgetful, env]
  cases q with
  | evaluate t s =>
    simp only [answer]
    rw [evaluate]
  | subtype a b capture =>
    cases capture with
    | true =>
      rw [answer_capturing, answer_capturing]
      have same : (c'.forgetful.capturing a b).1 = (c.forgetful.capturing a b).1 := by
        change (if (Assignable.run { limit := c'.limit } a b).1 then
          some (Assignable.run { limit := c'.limit } a b).2.captures else none) = _
        rw [h.limit]
        rfl
      rw [same]
    | false =>
      simp only [answer, Bool.false_eq_true, if_false]
      rw [Checker.isSubtype_forgetful, Checker.isSubtype_forgetful, h.limit]
  | instantiate name args =>
    simp only [answer, Checker.instantiateDeclaration]
    rw [show c'.forgetful.decls = c.forgetful.decls from h.decls]
    split
    · rw [evaluate]
    · rfl
  | other kind => rfl

/-- Answering keeps the limit and the declarations, and what is remembered stays right. -/
theorem answer_keeps {α : Ty.Annotation} {c : Checker} (hc : c.Uniform α) {q : Question} (hq : AnnotatedQuestion α q) :
    Steady c (answer c q).2 ∧ (answer c q).2.Uniform α := by
  cases q with
  | evaluate t s =>
    exact ⟨(c.evaluated t s).steady, (c.evaluated t s).uniform hc (hq t List.mem_cons_self) (annotated_bindings hq)⟩
  | subtype a b capture =>
    cases capture with
    | true =>
      have captured : (answer c (.subtype a b true)).2 = (c.capturing a b).2 := by
        simp only [answer, if_true]
        split
        · rename_i h
          rw [h]
        · rename_i h
          rw [h]
      rw [captured]
      have keeps : Checker.Keeps c (c.capturing a b).2 := Checker.keeps_events c _
      exact ⟨keeps.steady, hc.of_keeps keeps⟩
    | false =>
      have answered := c.compared a b
      exact ⟨answered.steady, answered.uniform hc (hq a List.mem_cons_self) (hq b (by simp [Question.types]))⟩
  | instantiate name args =>
    simp only [answer, Checker.instantiateDeclaration]
    split
    · have answered := c.evaluated (.reference name args) {}
      exact ⟨answered.steady, answered.uniform hc (annotatedBy_instantiated hq) (by simp)⟩
    · exact ⟨⟨rfl, rfl⟩, hc⟩
  | other kind => exact ⟨⟨rfl, rfl⟩, hc⟩

end Runner

/-! ### Errors -/

theorem append_ne_empty {s : String} (hs : s ≠ "") (t : String) : s ++ t ≠ "" := by
  intro h
  have chars := congrArg String.toList h
  rw [String.toList_append] at chars
  exact hs (String.toList_inj.1 (List.append_eq_nil_iff.1 chars).1)

theorem TypeError.message_ne_empty (e : TypeError) : e.message ≠ "" := by
  unfold message
  split
  · exact append_ne_empty (by decide) _
  · exact append_ne_empty (append_ne_empty (append_ne_empty (by decide) _) _) _
  · exact append_ne_empty (append_ne_empty (append_ne_empty (append_ne_empty (append_ne_empty (by decide) _) _) _) _) _
  · exact append_ne_empty (append_ne_empty (append_ne_empty (append_ne_empty (by decide) _) _) _) _
  · exact append_ne_empty (append_ne_empty (append_ne_empty (by decide) _) _) _

/-- An error that a query meets has a text, so it is told from none when it is stored. -/
theorem Runner.message_ne_empty {c : Checker} {q : Question} {e : QueryError} (h : (Runner.answer c q).1 = .error e) :
    e.message ≠ "" := by
  have typed : ∀ {x : Except TypeError Ty}, ((x.map fun t => (t.print, t)).mapError QueryError.type) = .error e →
      e.message ≠ "" := by
    intro x h
    cases x with
    | error e' =>
      cases h
      exact e'.message_ne_empty
    | ok => cases h
  cases q with
  | evaluate t s => exact typed h
  | subtype a b capture =>
    cases capture with
    | true =>
      rw [answer_capturing] at h
      cases h
    | false => cases h
  | instantiate name args => exact typed h
  | other kind =>
    cases h
    exact append_ne_empty (by decide) _

end TypeCalculus

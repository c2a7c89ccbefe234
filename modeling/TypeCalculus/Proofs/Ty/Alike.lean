import TypeCalculus.Proofs.Ty.Annotated
import TypeCalculus.Proofs.Ty.Choices

/-! Types that differ in the defaults of their parameters only. The normalising constructors do not look at what is
    written beside parameters (`unionOf_annotated`, `templateOf_annotated`), so what they build from alike types is
    alike. -/

namespace TypeCalculus.Ty

/-- What is identical to a type without parts is that type. -/
theorem eq_of_identical_atom {t u : Ty} (hu : u.isAtom = true) (h : t.identical u = true) : t = u := by
  have same := (identical_iff t u).1 h
  cases u with
  | any | unknown | void | never | prim | literal => cases t <;> first | exact same | cases same
  | _ => cases hu

section Annotated
variable (α : Annotation)

theorem annotatedAll_append (xs ys : List Ty) : annotatedAll α (xs ++ ys) = annotatedAll α xs ++ annotatedAll α ys := by
  rw [annotatedAll_eq, annotatedAll_eq, annotatedAll_eq, List.map_append]

theorem identical_annotated (t u : Ty) : (t.annotated α).identical (u.annotated α) = t.identical u := by
  rw [Bool.eq_iff_iff, identical_iff, identical_iff, erased, erased, annotated_annotated, annotated_annotated]
  rfl

/-! ### Unions -/

mutual

theorem unionMembers_annotated : (t : Ty) → (t.annotated α).unionMembers = annotatedAll α t.unionMembers
  | union ms => unionMembersAll_annotated ms
  | absent | any | unknown | void | never | prim _ | literal .. | template _ | object .. | array .. | tuple _
  | intersection _ | param .. | infer .. | conditional .. | reference .. | function .. | keyOf _ | access ..
  | mapping .. => rfl

theorem unionMembersAll_annotated : (ts : List Ty) → unionMembersAll (annotatedAll α ts) = annotatedAll α (unionMembersAll ts)
  | [] => rfl
  | t :: ts => by
    rw [annotatedAll, unionMembersAll, unionMembersAll, annotatedAll_append, unionMembers_annotated t,
      unionMembersAll_annotated ts]

end

theorem any_annotated {p : Ty → Bool} (hp : ∀ t : Ty, p (t.annotated α) = p t) (ts : List Ty) :
    (annotatedAll α ts).any p = ts.any p := by
  rw [annotatedAll_eq, List.any_map]
  exact congrArg (ts.any ·) (funext hp)

theorem isRedundantIn_annotated (ts : List Ty) (t : Ty) : isRedundantIn (annotatedAll α ts) (t.annotated α) = isRedundantIn ts t := by
  have holds : ∀ p, holdsPrim (annotatedAll α ts) p = holdsPrim ts p := fun p =>
    any_annotated α (fun t => by cases t <;> rfl) ts
  cases t <;> first | rfl | exact holds _

theorem distinct_annotated (seen ts : List Ty) :
    distinct (annotatedAll α seen) (annotatedAll α ts) = annotatedAll α (distinct seen ts) := by
  induction ts generalizing seen with
  | nil => rfl
  | cons t ts ih =>
    have same : (annotatedAll α seen).any (·.identical (t.annotated α)) = seen.any (·.identical t) := by
      rw [annotatedAll_eq, List.any_map]
      exact congrArg (seen.any ·) (funext fun u => identical_annotated α u t)
    rw [annotatedAll, distinct, distinct, same]
    split
    · exact ih seen
    · rw [annotatedAll, ← ih (t :: seen), annotatedAll]

theorem sortByText_annotated (ts : List Ty) : sortByText (annotatedAll α ts) = annotatedAll α (sortByText ts) := by
  let texts := ts.map fun t => (t.print, t)
  have marked : (annotatedAll α ts).map (fun t => (t.print, t)) = texts.map fun p => (p.1, p.2.annotated α) := by
    rw [annotatedAll_eq, List.map_map, List.map_map]
    exact List.map_congr_left fun t _ => congrArg (·, t.annotated α) (print_annotated α t)
  unfold sortByText
  rw [marked, ← List.map_mergeSort (r := fun a b => decide (a.1 ≤ b.1)) fun _ _ _ _ => rfl, annotatedAll_eq, List.map_map,
    List.map_map]
  rfl

theorem unionOf_annotated (ts : List Ty) : (unionOf ts).annotated α = unionOf (annotatedAll α ts) := by
  have kept : (annotatedAll α (unionMembersAll ts)).filter (fun t => !isRedundantIn (annotatedAll α (unionMembersAll ts)) t) =
      annotatedAll α ((unionMembersAll ts).filter fun t => !isRedundantIn (unionMembersAll ts) t) := by
    have same : ((fun t => !isRedundantIn (annotatedAll α (unionMembersAll ts)) t) ∘ annotated α) =
        fun t => !isRedundantIn (unionMembersAll ts) t :=
      funext fun t => congrArg (!·) (isRedundantIn_annotated α (unionMembersAll ts) t)
    rw [annotatedAll_eq α (List.filter _ _), ← same, ← List.filter_map, ← annotatedAll_eq]
  unfold unionOf
  dsimp only
  rw [unionMembersAll_annotated, any_annotated α fun t => by cases t <;> rfl, any_annotated α fun t => by cases t <;> rfl, kept,
    show [] = annotatedAll α [] from rfl, distinct_annotated]
  split
  · rfl
  · split
    · rfl
    · rw [show annotatedAll α [] = [] from rfl]
      cases distinct [] ((unionMembersAll ts).filter fun t => !isRedundantIn (unionMembersAll ts) t) with
      | nil => rfl
      | cons t us =>
        cases us with
        | nil => rfl
        | cons u us => exact congrArg union (sortByText_annotated α (t :: u :: us)).symm

/-! ### Templates -/

theorem annotatedSegments_append (xs ys : List (Segment Ty)) :
    annotatedSegments α (xs ++ ys) = annotatedSegments α xs ++ annotatedSegments α ys := by
  induction xs with
  | nil => rfl
  | cons x xs ih => cases x <;> simp only [List.cons_append, annotatedSegments, ih]

theorem annotatedSegments_reverse (xs : List (Segment Ty)) :
    annotatedSegments α xs.reverse = (annotatedSegments α xs).reverse := by
  induction xs with
  | nil => rfl
  | cons x xs ih => cases x <;> simp only [List.reverse_cons, annotatedSegments_append, annotatedSegments, ih]

theorem pushText_annotated (done : List (Segment Ty)) (s : String) :
    annotatedSegments α (pushText done s) = pushText (annotatedSegments α done) s := by
  unfold pushText
  split
  · rfl
  · cases done with
    | nil => rfl
    | cons d done => cases d <;> rfl

theorem pushSegments_annotated (done inner : List (Segment Ty)) :
    annotatedSegments α (pushSegments done inner) = pushSegments (annotatedSegments α done) (annotatedSegments α inner) := by
  induction inner generalizing done with
  | nil => rfl
  | cons s inner ih =>
    cases s with
    | text s => rw [pushSegments, ih, pushText_annotated, annotatedSegments, pushSegments]
    | hole t => rw [pushSegments, ih, annotatedSegments, annotatedSegments, pushSegments]

theorem closeTemplate_annotated (segments : List (Segment Ty)) :
    (closeTemplate segments).annotated α = closeTemplate (annotatedSegments α segments) := by
  unfold closeTemplate
  split
  · rfl
  · rfl
  · rfl
  · rename_i h₀ h₁ h₂
    split
    · rename_i he
      cases segments with
      | nil => exact absurd rfl h₀
      | cons x rest => cases x <;> cases he
    · rename_i t he
      match segments, he with
      | [.text s], _ => exact absurd rfl (h₁ s)
    · rename_i he
      match segments, he with
      | [.hole (.prim .string)], _ => exact absurd rfl h₂
    · rfl

theorem isNever_annotated (t : Ty) : (t.annotated α).isNever = t.isNever := by
  cases t <;> rfl

mutual

theorem isStringLike_annotated : (t : Ty) → (t.annotated α).isStringLike = t.isStringLike
  | union ms => allStringLike_annotated ms
  | intersection ms => someStringLike_annotated ms
  | absent | any | unknown | void | never | prim _ | literal .. | template _ | object .. | array .. | tuple _
  | param .. | infer .. | conditional .. | reference .. | function .. | keyOf _ | access .. | mapping .. => rfl

theorem allStringLike_annotated : (ts : List Ty) → allStringLike (annotatedAll α ts) = allStringLike ts
  | [] => rfl
  | t :: ts => congrArg₂ (· && ·) (isStringLike_annotated t) (allStringLike_annotated ts)

theorem someStringLike_annotated : (ts : List Ty) → someStringLike (annotatedAll α ts) = someStringLike ts
  | [] => rfl
  | t :: ts => congrArg₂ (· || ·) (isStringLike_annotated t) (someStringLike_annotated ts)

end

/-- A template keeps a hole for the type, if the type may stand in a template at all. -/
def keepsHole : Ty → Bool
  | literal .. | template _ | union _ => false
  | prim .null | prim .undefined | prim .boolean | prim .symbol => false
  | _ => true

theorem keepsHole_of {t : Ty} (h₁ : ∀ base s, t = literal base s → False) (h₂ : t = prim .null → False)
    (h₃ : t = prim .undefined → False) (h₄ : t = prim .boolean → False) (h₅ : t = prim .symbol → False)
    (h₆ : ∀ inner, t = template inner → False) (h₇ : ∀ members, t = union members → False) : t.keepsHole = true := by
  unfold keepsHole
  split
  · exact (h₁ _ _ rfl).elim
  · exact (h₆ _ rfl).elim
  · exact (h₇ _ rfl).elim
  · exact (h₂ rfl).elim
  · exact (h₃ rfl).elim
  · exact (h₄ rfl).elim
  · exact (h₅ rfl).elim
  · rfl

theorem keepsHole_annotated (t : Ty) : (t.annotated α).keepsHole = t.keepsHole := by
  cases t <;> rfl

theorem templateAfter_kept (done rest : List (Segment Ty)) {t : Ty} (h : t.keepsHole = true) :
    templateAfter done (.hole t :: rest) =
      if !t.isStringLike || t.isNever then never else templateAfter (.hole t :: done) rest := by
  rw [templateAfter] <;> rintro _ <;> intros <;> subst_vars <;> cases h

theorem templateAfter_annotated (done segments : List (Segment Ty)) :
    (templateAfter done segments).annotated α = templateAfter (annotatedSegments α done) (annotatedSegments α segments) := by
  induction done, segments using templateAfter.induct with
  | case1 done => rw [templateAfter, closeTemplate_annotated, annotatedSegments_reverse, annotatedSegments, templateAfter]
  | case2 done s rest ih => rw [templateAfter, ih, pushText_annotated, annotatedSegments, templateAfter]
  | case3 done s rest =>
    change _ = templateAfter _ (.hole (literal .symbol s) :: annotatedSegments α rest)
    rw [templateAfter, if_pos rfl, templateAfter, if_pos rfl, annotated]
    all_goals
      intros
      contradiction
  | case4 done base s rest hb ih =>
    change _ = templateAfter _ (.hole (literal base s) :: annotatedSegments α rest)
    rw [templateAfter, if_neg hb, templateAfter, if_neg hb, ih, pushText_annotated]
  | case5 done rest ih =>
    change _ = templateAfter _ (.hole (prim .null) :: annotatedSegments α rest)
    rw [templateAfter, templateAfter, ih, pushText_annotated]
  | case6 done rest ih =>
    change _ = templateAfter _ (.hole (prim .undefined) :: annotatedSegments α rest)
    rw [templateAfter, templateAfter, ih, pushText_annotated]
  | case7 done rest ih₁ ih₂ =>
    change _ = templateAfter _ (.hole (prim .boolean) :: annotatedSegments α rest)
    rw [templateAfter, templateAfter, unionOf_annotated, annotatedAll, annotatedAll, annotatedAll, ih₁, ih₂, pushText_annotated,
      pushText_annotated]
  | case8 done rest =>
    change _ = templateAfter _ (.hole (prim .symbol) :: annotatedSegments α rest)
    rw [templateAfter, templateAfter]
    rfl
  | case9 done inner rest ih =>
    change _ = templateAfter _ (.hole (template (annotatedSegments α inner)) :: annotatedSegments α rest)
    rw [templateAfter, templateAfter, ih, pushSegments_annotated]
  | case10 done members rest ih ihm =>
    change _ = templateAfter _ (.hole (union (annotatedAll α members)) :: annotatedSegments α rest)
    rw [templateAfter_union, templateAfter_union, unionOf_annotated, annotatedAll_eq, annotatedAll_eq, List.map_map, List.map_map]
    refine congrArg unionOf (List.map_congr_left fun m hm => ?_)
    have absent : (m.annotated α).isAbsent = m.isAbsent := by cases m <;> rfl
    dsimp only [Function.comp_apply]
    rw [absent]
    split
    · exact ih
    · exact ihm m hm
  | case11 done t rest h₁ h₂ h₃ h₄ h₅ h₆ h₇ hc =>
    have kept := keepsHole_of h₁ h₂ h₃ h₄ h₅ h₆ h₇
    rw [annotatedSegments, templateAfter_kept _ _ kept, templateAfter_kept _ _ ((keepsHole_annotated α t).trans kept),
      isStringLike_annotated, isNever_annotated, if_pos hc, if_pos hc]
    rfl
  | case12 done t rest h₁ h₂ h₃ h₄ h₅ h₆ h₇ hc ih =>
    have kept := keepsHole_of h₁ h₂ h₃ h₄ h₅ h₆ h₇
    rw [annotatedSegments, templateAfter_kept _ _ kept, templateAfter_kept _ _ ((keepsHole_annotated α t).trans kept),
      isStringLike_annotated, isNever_annotated, if_neg hc, if_neg hc, ih, annotatedSegments]

theorem templateOf_annotated (segments : List (Segment Ty)) :
    (templateOf segments).annotated α = templateOf (annotatedSegments α segments) := templateAfter_annotated α [] segments

end Annotated
end TypeCalculus.Ty

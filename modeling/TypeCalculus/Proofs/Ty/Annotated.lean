import TypeCalculus.Proofs.Ty.Walk

/-! What the annotations of parameters do not matter for: the parts of a tree, its size and text, the names in it and
    every test that does not look at them. What holds of a tree in these terms holds of every tree identical to it. -/

namespace TypeCalculus.Ty

section Annotated
variable (α : Annotation)

/-! ### Parts -/

theorem annotatedAll_eq (ts : List Ty) : annotatedAll α ts = ts.map (annotated α) := by
  induction ts with
  | nil => rfl
  | cons t ts ih => rw [annotatedAll, ih, List.map_cons]

theorem holes_annotated (segments : List (Segment Ty)) :
    holes (annotatedSegments α segments) = (holes segments).map (annotated α) := by
  induction segments with
  | nil => rfl
  | cons s rest ih =>
    cases s with
    | text => rw [annotatedSegments, holes_text, holes_text, ih]
    | hole t => rw [annotatedSegments, holes_hole, holes_hole, List.map_cons, ih]

theorem types_annotated (props : List (Property Ty)) :
    (annotatedProps α props).map (·.type) = (props.map (·.type)).map (annotated α) := by
  induction props with
  | nil => rfl
  | cons p props ih => rw [annotatedProps, List.map_cons, List.map_cons, List.map_cons, ih]

theorem value_annotated (index : Option (IndexSignature Ty)) :
    ((annotatedIndex α index).map (·.value)).toList = (index.map (·.value)).toList.map (annotated α) := by
  cases index <;> rfl

theorem kind?_annotated (t : Ty) : (t.annotated α).kind? = t.kind? := by
  cases t <;> rfl

/-- The parts of an annotated tree are the parts of the tree, annotated. -/
theorem parts_annotated (t : Ty) : (t.annotated α).parts = t.parts.map (annotated α) := by
  cases t with
  | template segments => exact holes_annotated α segments
  | object props index =>
    simp only [annotated, parts, List.map_append, types_annotated, value_annotated]
  | tuple ts | union ts | intersection ts | reference _ ts => exact annotatedAll_eq α ts
  | function ts t => simp only [annotated, parts, annotatedAll_eq, List.map_append, List.map_cons, List.map_nil]
  | infer name constraint => cases constraint <;> rfl
  | _ => rfl

theorem annotatedAll_self {ts : List Ty} (h : ∀ t ∈ ts, t.annotated α = t) : annotatedAll α ts = ts := by
  rw [annotatedAll_eq, List.map_congr_left h, List.map_id']

theorem annotatedSegments_self {segments : List (Segment Ty)} (h : ∀ t ∈ holes segments, t.annotated α = t) :
    annotatedSegments α segments = segments := by
  induction segments with
  | nil => rfl
  | cons s rest ih =>
    cases s with
    | text => rw [annotatedSegments, ih h]
    | hole t =>
      rw [annotatedSegments, h t List.mem_cons_self, ih fun u hu => h u (List.mem_cons_of_mem _ hu)]

theorem annotatedProps_self {props : List (Property Ty)} (h : ∀ p ∈ props, p.type.annotated α = p.type) :
    annotatedProps α props = props := by
  induction props with
  | nil => rfl
  | cons p props ih =>
    rw [annotatedProps, h p List.mem_cons_self, ih fun q hq => h q (List.mem_cons_of_mem _ hq)]

/-- A tree whose parameters are annotated by the assignment stays as it is. -/
theorem annotated_self {t : Ty}
    (h : Throughout parts (fun u => ∀ name constraint default, u = param name constraint default →
      α name = (constraint, default)) t) : t.annotated α = t := by
  induction h with
  | @mk t hp _ ih =>
    cases t with
    | template segments => rw [annotated, annotatedSegments_self α ih]
    | object props index =>
      rw [annotated, annotatedProps_self α fun p hp => ih _ (List.mem_append_left _ (List.mem_map_of_mem hp))]
      cases index with
      | none => rfl
      | some i => rw [annotatedIndex, ih i.value (List.mem_append_right _ List.mem_cons_self)]
    | tuple ts | union ts | intersection ts | reference _ ts => rw [annotated, @annotatedAll_self α ts ih]
    | function ts t =>
      rw [annotated, annotatedAll_self α fun u hu => ih u (List.mem_append_left _ hu),
        ih t (List.mem_append_right _ List.mem_cons_self)]
    | array t | keyOf t | mapping _ t => rw [annotated, ih t List.mem_cons_self]
    | access t i => rw [annotated, ih t List.mem_cons_self, ih i (List.mem_cons_of_mem _ List.mem_cons_self)]
    | conditional c b y n =>
      rw [annotated, ih c (by simp [parts]), ih b (by simp [parts]), ih y (by simp [parts]), ih n (by simp [parts])]
    | infer name constraint =>
      cases constraint with
      | absent => rfl
      | _ => rw [annotated, ih _ List.mem_cons_self]
    | param name constraint default => rw [annotated, hp name constraint default rfl]
    | _ => rfl

/-! ### Size -/

mutual

theorem size_annotated : (t : Ty) → (t.annotated α).size = t.size
  | template xs => by simp only [annotated, size, sizeOfSegments_annotated xs]
  | object ps i => by simp only [annotated, size, sizeOfProps_annotated ps, sizeOfIndex_annotated i]
  | tuple xs | union xs | intersection xs | reference _ xs => by simp only [annotated, size, sizeOfAll_annotated xs]
  | array x _ | infer _ x | keyOf x | mapping _ x => by simp only [annotated, size, size_annotated x]
  | conditional c b y n _ => by
    simp only [annotated, size, size_annotated c, size_annotated b, size_annotated y, size_annotated n]
  | function xs x => by simp only [annotated, size, sizeOfAll_annotated xs, size_annotated x]
  | access x i => by simp only [annotated, size, size_annotated x, size_annotated i]
  | absent | any | unknown | void | never | prim _ | literal .. | param .. => by simp only [annotated, size]

theorem sizeOfAll_annotated : (ts : List Ty) → sizeOfAll (annotatedAll α ts) = sizeOfAll ts
  | [] => rfl
  | t :: ts => by simp only [annotatedAll, sizeOfAll, size_annotated t, sizeOfAll_annotated ts]

theorem sizeOfSegments_annotated : (xs : List (Segment Ty)) → sizeOfSegments (annotatedSegments α xs) = sizeOfSegments xs
  | [] => rfl
  | .text _ :: xs => by simp only [annotatedSegments, sizeOfSegments, sizeOfSegments_annotated xs]
  | .hole t :: xs => by
    simp only [annotatedSegments, sizeOfSegments, size_annotated t, sizeOfSegments_annotated xs]

theorem sizeOfProps_annotated : (ps : List (Property Ty)) → sizeOfProps (annotatedProps α ps) = sizeOfProps ps
  | [] => rfl
  | ⟨_, t, _, _⟩ :: ps => by simp only [annotatedProps, sizeOfProps, size_annotated t, sizeOfProps_annotated ps]

theorem sizeOfIndex_annotated : (i : Option (IndexSignature Ty)) → sizeOfIndex (annotatedIndex α i) = sizeOfIndex i
  | none => rfl
  | some ⟨_, t⟩ => by simp only [annotatedIndex, sizeOfIndex, size_annotated t]

end

/-! ### Tests and names -/

/-- A test that does not look at annotations succeeds in the annotated tree where it did. -/
theorem occurs_annotated {p : Ty → Bool} (h₀ : p absent = false) (hp : ∀ u, p (u.annotated α) = p u) (t : Ty) :
    (t.annotated α).occurs p = t.occurs p := by
  induction t using parts_induction with
  | step t part =>
    rw [Bool.eq_iff_iff, occurs_iff h₀, occurs_iff h₀, hp, parts_annotated]
    refine or_congr_right ⟨?_, ?_⟩
    · rintro ⟨v, hv, ho⟩
      obtain ⟨u, hu, rfl⟩ := List.mem_map.1 hv
      exact ⟨u, hu, part u hu ▸ ho⟩
    · rintro ⟨u, hu, ho⟩
      exact ⟨_, List.mem_map_of_mem hu, (part u hu).trans ho⟩

mutual

theorem inferNamesAfter_annotated : (t : Ty) → (found : List String) →
    inferNamesAfter found (t.annotated α) = inferNamesAfter found t
  | template xs, _ => by simp only [annotated, inferNamesAfter, inferNamesInSegments_annotated xs]
  | object ps i, _ => by
    simp only [annotated, inferNamesAfter, inferNamesInProps_annotated ps, inferNamesInIndex_annotated i]
  | tuple xs, _ | union xs, _ | intersection xs, _ | reference _ xs, _ => by
    simp only [annotated, inferNamesAfter, inferNamesInAll_annotated xs]
  | array x _, _ | infer _ x, _ | keyOf x, _ | mapping _ x, _ => by
    simp only [annotated, inferNamesAfter, inferNamesAfter_annotated x]
  | conditional c b y n _, _ => by
    simp only [annotated, inferNamesAfter, inferNamesAfter_annotated c, inferNamesAfter_annotated b,
      inferNamesAfter_annotated y, inferNamesAfter_annotated n]
  | function xs x, _ => by
    simp only [annotated, inferNamesAfter, inferNamesInAll_annotated xs, inferNamesAfter_annotated x]
  | access x i, _ => by simp only [annotated, inferNamesAfter, inferNamesAfter_annotated x, inferNamesAfter_annotated i]
  | absent, _ | any, _ | unknown, _ | void, _ | never, _ | prim _, _ | literal .., _ | param .., _ => by
    simp only [annotated, inferNamesAfter]

theorem inferNamesInAll_annotated : (ts : List Ty) → (found : List String) →
    inferNamesInAll found (annotatedAll α ts) = inferNamesInAll found ts
  | [], _ => rfl
  | t :: ts, _ => by
    simp only [annotatedAll, inferNamesInAll, inferNamesAfter_annotated t, inferNamesInAll_annotated ts]

theorem inferNamesInSegments_annotated : (xs : List (Segment Ty)) → (found : List String) →
    inferNamesInSegments found (annotatedSegments α xs) = inferNamesInSegments found xs
  | [], _ => rfl
  | .text _ :: xs, _ => by simp only [annotatedSegments, inferNamesInSegments, inferNamesInSegments_annotated xs]
  | .hole t :: xs, _ => by
    simp only [annotatedSegments, inferNamesInSegments, inferNamesAfter_annotated t, inferNamesInSegments_annotated xs]

theorem inferNamesInProps_annotated : (ps : List (Property Ty)) → (found : List String) →
    inferNamesInProps found (annotatedProps α ps) = inferNamesInProps found ps
  | [], _ => rfl
  | ⟨_, t, _, _⟩ :: ps, _ => by
    simp only [annotatedProps, inferNamesInProps, inferNamesAfter_annotated t, inferNamesInProps_annotated ps]

theorem inferNamesInIndex_annotated : (i : Option (IndexSignature Ty)) → (found : List String) →
    inferNamesInIndex found (annotatedIndex α i) = inferNamesInIndex found i
  | none, _ => rfl
  | some ⟨_, t⟩, _ => by simp only [annotatedIndex, inferNamesInIndex, inferNamesAfter_annotated t]

end

theorem inferNames_annotated (t : Ty) : (t.annotated α).inferNames = t.inferNames := inferNamesAfter_annotated α t []

mutual

theorem freeInto_annotated : (t : Ty) → (bound found : List String) →
    freeInto bound found (t.annotated α) = freeInto bound found t
  | template xs, _, _ => by simp only [annotated, freeInto, freeInSegments_annotated xs]
  | object ps i, _, _ => by simp only [annotated, freeInto, freeInProps_annotated ps, freeInIndex_annotated i]
  | tuple xs, _, _ | union xs, _, _ | intersection xs, _, _ | reference _ xs, _, _ => by
    simp only [annotated, freeInto, freeInAll_annotated xs]
  | array x _, _, _ | infer _ x, _, _ | keyOf x, _, _ | mapping _ x, _, _ => by
    simp only [annotated, freeInto, freeInto_annotated x]
  | conditional c b y n _, _, _ => by
    simp only [annotated, freeInto, inferNames_annotated, freeInto_annotated c, freeInto_annotated b,
      freeInto_annotated y, freeInto_annotated n]
  | function xs x, _, _ => by simp only [annotated, freeInto, freeInAll_annotated xs, freeInto_annotated x]
  | access x i, _, _ => by simp only [annotated, freeInto, freeInto_annotated x, freeInto_annotated i]
  | absent, _, _ | any, _, _ | unknown, _, _ | void, _, _ | never, _, _ | prim _, _, _ | literal .., _, _
  | param .., _, _ => by simp only [annotated, freeInto]

theorem freeInAll_annotated : (ts : List Ty) → (bound found : List String) →
    freeInAll bound found (annotatedAll α ts) = freeInAll bound found ts
  | [], _, _ => rfl
  | t :: ts, _, _ => by simp only [annotatedAll, freeInAll, freeInto_annotated t, freeInAll_annotated ts]

theorem freeInSegments_annotated : (xs : List (Segment Ty)) → (bound found : List String) →
    freeInSegments bound found (annotatedSegments α xs) = freeInSegments bound found xs
  | [], _, _ => rfl
  | .text _ :: xs, _, _ => by simp only [annotatedSegments, freeInSegments, freeInSegments_annotated xs]
  | .hole t :: xs, _, _ => by
    simp only [annotatedSegments, freeInSegments, freeInto_annotated t, freeInSegments_annotated xs]

theorem freeInProps_annotated : (ps : List (Property Ty)) → (bound found : List String) →
    freeInProps bound found (annotatedProps α ps) = freeInProps bound found ps
  | [], _, _ => rfl
  | ⟨_, t, _, _⟩ :: ps, _, _ => by
    simp only [annotatedProps, freeInProps, freeInto_annotated t, freeInProps_annotated ps]

theorem freeInIndex_annotated : (i : Option (IndexSignature Ty)) → (bound found : List String) →
    freeInIndex bound found (annotatedIndex α i) = freeInIndex bound found i
  | none, _, _ => rfl
  | some ⟨_, t⟩, _, _ => by simp only [annotatedIndex, freeInIndex, freeInto_annotated t]

end

theorem hasFreeParams_annotated (t : Ty) : (t.annotated α).hasFreeParams = t.hasFreeParams := by
  unfold hasFreeParams freeParams
  rw [freeInto_annotated]

/-! ### Texts -/

mutual

theorem hasText_annotated : (t : Ty) → (t.annotated α).hasText = t.hasText
  | template xs => by simp only [annotated, hasText, segmentsHaveText_annotated xs]
  | object ps i => by simp only [annotated, hasText, propsHaveText_annotated ps]
  | tuple xs | union xs | intersection xs | reference _ xs => by simp only [annotated, hasText, allHaveText_annotated xs]
  | array x _ | keyOf x => by simp only [annotated, hasText, hasText_annotated x]
  | conditional c b y n _ => by simp only [annotated, hasText, hasText_annotated c, hasText_annotated b]
  | access x i => by simp only [annotated, hasText, hasText_annotated x, hasText_annotated i]
  | absent | any | unknown | void | never | prim _ | literal .. | param .. | infer .. | function .. | mapping .. => by
    simp only [annotated, hasText]

theorem allHaveText_annotated : (ts : List Ty) → allHaveText (annotatedAll α ts) = allHaveText ts
  | [] => rfl
  | t :: ts => by simp only [annotatedAll, allHaveText, hasText_annotated t, allHaveText_annotated ts]

theorem segmentsHaveText_annotated : (xs : List (Segment Ty)) →
    segmentsHaveText (annotatedSegments α xs) = segmentsHaveText xs
  | [] => rfl
  | .text _ :: xs => by simp only [annotatedSegments, segmentsHaveText, segmentsHaveText_annotated xs]
  | .hole t :: xs => by
    simp only [annotatedSegments, segmentsHaveText, hasText_annotated t, segmentsHaveText_annotated xs]

theorem propsHaveText_annotated : (ps : List (Property Ty)) → propsHaveText (annotatedProps α ps) = propsHaveText ps
  | [] => rfl
  | ⟨_, t, _, _⟩ :: ps => by simp only [annotatedProps, propsHaveText, hasText_annotated t, propsHaveText_annotated ps]

end

theorem bindsLoosely_annotated (t : Ty) : (t.annotated α).bindsLoosely = t.bindsLoosely := by
  cases t <;> rfl

theorem mark_annotated (t : Ty) : (t.annotated α).mark = t.mark := by
  cases t <;> rfl

mutual

theorem print_annotated : (t : Ty) → (t.annotated α).print = t.print
  | template xs => by simp only [annotated, print, printSegments_annotated xs]
  | object [] none => by simp only [annotated, annotatedProps, annotatedIndex, print]
  | object [] (some i) => by
    have := printIndex_annotated (some i)
    simp only [annotated, annotatedProps, annotatedIndex, print, printProps] at this ⊢
    rw [this]
  | object (p :: ps) i => by
    have := printProps_annotated (p :: ps)
    simp only [annotated, annotatedProps, print, printIndex_annotated i] at this ⊢
    rw [this]
  | tuple xs => by simp only [annotated, print, printAll_annotated xs]
  | union xs => by
    simp only [annotated, print, printMembers_annotated looseInUnion (fun t => by cases t <;> rfl) xs]
  | intersection xs => by
    simp only [annotated, print, printMembers_annotated looseInIntersection (fun t => by cases t <;> rfl) xs]
  | reference _ [] => by simp only [annotated, annotatedAll, print]
  | reference _ (x :: xs) => by
    have := printAll_annotated (x :: xs)
    simp only [annotated, annotatedAll, print] at this ⊢
    rw [this]
  | array x _ | keyOf x => by simp only [annotated, print, bindsLoosely_annotated, print_annotated x]
  | mapping _ x => by simp only [annotated, print, hasText_annotated, mark_annotated, print_annotated x]
  | conditional c b y n _ => by
    simp only [annotated, print, bindsLoosely_annotated, hasText_annotated, mark_annotated, print_annotated c,
      print_annotated b, print_annotated y, print_annotated n]
  | function xs x => by
    simp only [annotated, print, hasText_annotated, mark_annotated, printParams_annotated 0 xs, print_annotated x]
  | access x i => by simp only [annotated, print, bindsLoosely_annotated, print_annotated x, print_annotated i]
  | infer n x => by
    by_cases hx : x = absent
    · rw [hx]
      rfl
    · have hx' : x.annotated α ≠ absent := by
        intro he
        have := kind?_annotated α x
        rw [he] at this
        cases x with
        | absent => exact hx rfl
        | _ => cases this
      rw [annotated, print, print, hasText_annotated, mark_annotated, print_annotated x]
      · exact hx
      · exact hx'
  | absent | any | unknown | void | never | prim _ | literal .. | param .. => by simp only [annotated, print]

theorem printAll_annotated : (ts : List Ty) → printAll (annotatedAll α ts) = printAll ts
  | [] => rfl
  | t :: ts => by simp only [annotatedAll, printAll, print_annotated t, printAll_annotated ts]

theorem printMembers_annotated (loose : Ty → Bool) (h : ∀ t : Ty, loose (t.annotated α) = loose t) :
    (ts : List Ty) → printMembers loose (annotatedAll α ts) = printMembers loose ts
  | [] => rfl
  | t :: ts => by simp only [annotatedAll, printMembers, h, print_annotated t, printMembers_annotated loose h ts]

theorem printParams_annotated : (i : Nat) → (ts : List Ty) → printParams i (annotatedAll α ts) = printParams i ts
  | _, [] => rfl
  | i, t :: ts => by
    simp only [annotatedAll, printParams, hasText_annotated, mark_annotated, print_annotated t,
      printParams_annotated (i + 1) ts]

theorem printSegments_annotated : (xs : List (Segment Ty)) → printSegments (annotatedSegments α xs) = printSegments xs
  | [] => rfl
  | .text _ :: xs => by simp only [annotatedSegments, printSegments, printSegments_annotated xs]
  | .hole t :: xs => by simp only [annotatedSegments, printSegments, print_annotated t, printSegments_annotated xs]

theorem printProps_annotated : (ps : List (Property Ty)) → printProps (annotatedProps α ps) = printProps ps
  | [] => rfl
  | ⟨_, t, _, _⟩ :: ps => by simp only [annotatedProps, printProps, print_annotated t, printProps_annotated ps]

theorem printIndex_annotated : (i : Option (IndexSignature Ty)) → printIndex (annotatedIndex α i) = printIndex i
  | none => rfl
  | some ⟨_, t⟩ => by simp only [annotatedIndex, printIndex, hasText_annotated, mark_annotated, print_annotated t]

end

/-! ### Members of an intersection -/

theorem isConcrete_annotated (t : Ty) : (t.annotated α).isConcrete = t.isConcrete :=
  congrArg not (occurs_annotated α rfl (fun u => by cases u <;> rfl) t)

/-- A concrete type has no parameters to annotate. -/
theorem annotated_concrete {t : Ty} (h : t.isConcrete = true) : t.annotated α = t := by
  have none : Throughout parts (fun u => ∀ _ : Unit, u.isPending = true → False) t :=
    throughout_of_occurs (fun _ => rfl) fun _ ho => by
      rw [isConcrete, ho] at h
      cases h
  refine annotated_self α (none.imp fun u hu name constraint default he => ?_)
  subst he
  exact (hu () rfl).elim

theorem absent_mem_annotatedAll {ts : List Ty} : absent ∈ annotatedAll α ts ↔ absent ∈ ts := by
  rw [annotatedAll_eq, List.mem_map]
  constructor
  · rintro ⟨t, ht, he⟩
    cases t with
    | absent => exact ht
    | _ => cases he
  · exact fun h => ⟨absent, h, rfl⟩

theorem coexist_annotated {x y : Ty} : Coexist (x.annotated α) (y.annotated α) ↔ Coexist x y := by
  unfold Coexist
  rw [isConcrete_annotated, isConcrete_annotated]
  refine forall_congr' fun hx => forall_congr' fun hy => ?_
  rw [annotated_concrete α hx, annotated_concrete α hy]

theorem met_annotated {ms : List Ty} : Met (annotatedAll α ms) ↔ Met ms := by
  have shape : ∀ t : Ty, (t.annotated α).isShape = t.isShape := fun t => by cases t <;> rfl
  have present := not_congr (@absent_mem_annotatedAll α ms)
  have coexist : (annotatedAll α ms).Pairwise Coexist ↔ ms.Pairwise Coexist := by
    rw [annotatedAll_eq, List.pairwise_map]
    simp only [coexist_annotated]
  have last : ((annotatedAll α ms).Pairwise fun a b => a.isShape = true → a.print ≠ b.print) ↔
      ms.Pairwise fun a b => a.isShape = true → a.print ≠ b.print := by
    rw [annotatedAll_eq, List.pairwise_map]
    simp only [shape, print_annotated]
  exact ⟨fun h => ⟨present.1 h.1, coexist.1 h.2, last.1 h.3⟩, fun h => ⟨present.2 h.1, coexist.2 h.2, last.2 h.3⟩⟩

/-- A property of all nodes that does not look at annotations holds of the annotated tree where it did. -/
theorem throughout_annotated {sub : Ty → List Ty} {p : Ty → Prop}
    (hsub : ∀ t : Ty, sub (t.annotated α) = (sub t).map (annotated α)) (hp : ∀ t : Ty, p (t.annotated α) ↔ p t) {t : Ty} :
    Throughout sub p (t.annotated α) ↔ Throughout sub p t := by
  constructor
  · intro h
    generalize hu : t.annotated α = u at h
    induction h generalizing t with
    | mk hn _ ih =>
      subst hu
      refine ⟨(hp t).1 hn, fun v hv => ih (v.annotated α) ?_ rfl⟩
      rw [hsub]
      exact List.mem_map_of_mem hv
  · intro h
    induction h with
    | mk hn _ ih =>
      refine ⟨(hp _).2 hn, fun v hv => ?_⟩
      rw [hsub] at hv
      obtain ⟨u, hu, rfl⟩ := List.mem_map.1 hv
      exact ih u hu

end Annotated

/-! ### Trees annotated throughout -/

/-- Every parameter of the tree has the constraint and the default that an assignment gives its name, and so has every
    parameter in what is written beside one. -/
def Uniform (α : Annotation) : Ty → Prop :=
  Throughout children fun u => ∀ name constraint default, u = param name constraint default → α name = (constraint, default)

theorem Uniform.annotatedBy {α : Annotation} {t : Ty} (h : Uniform α t) : t.AnnotatedBy α := by
  refine annotated_self α ?_
  induction h with
  | @mk t hp _ ih =>
    refine ⟨hp, fun u hu => ih u ?_⟩
    cases t with
    | param => cases hu
    | _ => exact hu

/-- A property that only parameters may lack holds throughout what is built from trees with the property throughout. -/
theorem carried_throughout {p : Ty → Prop} (hp : ∀ {t : Ty}, t.isParam = false → p t) : Carried (Throughout children p) := by
  have build : ∀ {t : Ty}, t.isParam = false → (∀ u ∈ t.parts, Throughout children p u) → Throughout children p t := by
    refine fun {t} ht h => ⟨hp ht, fun u hu => h u ?_⟩
    cases t with
    | param => cases ht
    | _ => exact hu
  have inherited : Inherited (Throughout children p) := by
    refine inherited_throughout (fun {t} ht => ?_) (fun _ => rfl) (fun _ => rfl) (fun {t} ht => hp ?_)
      (fun _ => hp rfl) fun _ => hp rfl
    · cases t with
      | param => cases ht
      | _ => rfl
    · cases t with
      | param => cases ht
      | _ => rfl
  exact {
    absent := build rfl nofun
    atom := fun {t} ht => by
      cases t with
      | any | unknown | void | never | prim | literal => exact build rfl nofun
      | _ => cases ht
    child := fun h hu => h.under hu
    plain := fun {t} ht h => by
      cases t with
      | param => cases ht
      | _ => exact build rfl h
    conditional := fun _ hc hb hy hn => by
      refine build rfl fun u hu => ?_
      simp only [parts, List.mem_cons, List.not_mem_nil, or_false] at hu
      rcases hu with rfl | rfl | rfl | rfl
      · exact hc
      · exact hb
      · exact hy
      · exact hn
    unionOf := inherited.unionOf
    meetOf := inherited.meetOf
    templateOf := inherited.templateOf
    ofProps := inherited.ofProps }

/-- Trees annotated throughout by one assignment are closed under all constructors. -/
theorem carried_uniform (α : Annotation) : Carried (Uniform α) := by
  refine carried_throughout fun {t} ht => ?_
  rintro name constraint default rfl
  cases ht

end TypeCalculus.Ty

import TypeCalculus.Proofs.Ty.Walk

/-! The names of a tree told by its parts: which placeholders it declares (`mem_inferNames`) and which parameters it
    refers to freely (`mem_freeParams`). A conditional binds in its true branch what its bound declares. -/

namespace TypeCalculus.Ty

/-- The placeholder of a name. -/
def isInferOf (name : String) : Ty → Bool
  | infer n _ => n == name
  | _ => false

/-! ### Placeholders -/

section Infer
variable {x : String}

mutual

theorem mem_inferNamesAfter : (t : Ty) → (found : List String) →
    (x ∈ inferNamesAfter found t ↔ x ∈ found ∨ t.occurs (isInferOf x) = true)
  | infer name t, found => by
    rw [inferNamesAfter, mem_inferNamesAfter t]
    by_cases h : found.contains name = true
    · rw [if_pos h]
      rw [List.contains_iff_mem] at h
      simp only [occurs, isInferOf, Bool.or_eq_true, beq_iff_eq]
      grind
    · rw [if_neg h]
      simp only [occurs, isInferOf, Bool.or_eq_true, beq_iff_eq, List.mem_append, List.mem_singleton]
      grind
  | template xs, found => by simp [inferNamesAfter, occurs, isInferOf, mem_inferNamesInSegments xs]
  | object ps i, found => by
    simp [inferNamesAfter, occurs, isInferOf, mem_inferNamesInProps ps, mem_inferNamesInIndex i, or_assoc]
  | tuple ts, found | union ts, found | intersection ts, found | reference _ ts, found => by
    simp [inferNamesAfter, occurs, isInferOf, mem_inferNamesInAll ts]
  | array t _, found | keyOf t, found | mapping _ t, found => by
    simp [inferNamesAfter, occurs, isInferOf, mem_inferNamesAfter t]
  | conditional c b y n _, found => by
    simp [inferNamesAfter, occurs, isInferOf, mem_inferNamesAfter c, mem_inferNamesAfter b, mem_inferNamesAfter y,
      mem_inferNamesAfter n, or_assoc]
  | function ts t, found => by
    simp [inferNamesAfter, occurs, isInferOf, mem_inferNamesInAll ts, mem_inferNamesAfter t, or_assoc]
  | access t i, found => by
    simp [inferNamesAfter, occurs, isInferOf, mem_inferNamesAfter t, mem_inferNamesAfter i, or_assoc]
  | absent, found | any, found | unknown, found | void, found | never, found | prim _, found | literal .., found
  | param .., found => by simp [inferNamesAfter, occurs, isInferOf]

theorem mem_inferNamesInAll : (ts : List Ty) → (found : List String) →
    (x ∈ inferNamesInAll found ts ↔ x ∈ found ∨ occursInAll (isInferOf x) ts = true)
  | [], found => by simp [inferNamesInAll, occursInAll]
  | t :: ts, found => by
    simp [inferNamesInAll, occursInAll, mem_inferNamesAfter t, mem_inferNamesInAll ts, or_assoc]

theorem mem_inferNamesInSegments : (xs : List (Segment Ty)) → (found : List String) →
    (x ∈ inferNamesInSegments found xs ↔ x ∈ found ∨ occursInSegments (isInferOf x) xs = true)
  | [], found => by simp [inferNamesInSegments, occursInSegments]
  | .text _ :: xs, found => by simp [inferNamesInSegments, occursInSegments, mem_inferNamesInSegments xs]
  | .hole t :: xs, found => by
    simp [inferNamesInSegments, occursInSegments, mem_inferNamesAfter t, mem_inferNamesInSegments xs, or_assoc]

theorem mem_inferNamesInProps : (ps : List (Property Ty)) → (found : List String) →
    (x ∈ inferNamesInProps found ps ↔ x ∈ found ∨ occursInProps (isInferOf x) ps = true)
  | [], found => by simp [inferNamesInProps, occursInProps]
  | ⟨_, t, _, _⟩ :: ps, found => by
    simp [inferNamesInProps, occursInProps, mem_inferNamesAfter t, mem_inferNamesInProps ps, or_assoc]

theorem mem_inferNamesInIndex : (i : Option (IndexSignature Ty)) → (found : List String) →
    (x ∈ inferNamesInIndex found i ↔ x ∈ found ∨ occursInIndex (isInferOf x) i = true)
  | none, found => by simp [inferNamesInIndex, occursInIndex]
  | some ⟨_, t⟩, found => by simp [inferNamesInIndex, occursInIndex, mem_inferNamesAfter t]

end

/-- A name is declared exactly if its placeholder occurs. -/
theorem mem_inferNames {t : Ty} : x ∈ t.inferNames ↔ t.occurs (isInferOf x) = true := by
  simp [inferNames, mem_inferNamesAfter]

end Infer

/-! ### Free parameters -/

/-- The parts in which a type binds no names. -/
def openParts : Ty → List Ty
  | conditional check bound _ no _ => [check, bound, no]
  | t => t.parts

/-- The parameter of the name occurs in the tree where no bound declares it. -/
inductive Free (x : String) : Ty → Prop
  | here {constraint default : Ty} : Free x (param x constraint default)
  | part {t u : Ty} : u ∈ openParts t → Free x u → Free x t
  | yes {check bound yes no : Ty} {distribute : Bool} : x ∉ bound.inferNames → Free x yes →
      Free x (conditional check bound yes no distribute)

theorem openParts_eq {t : Ty} (h : t.isConditional = false) : openParts t = t.parts := by
  cases t with
  | conditional => cases h
  | _ => rfl

theorem mem_parts_of_open {t u : Ty} (h : u ∈ openParts t) : u ∈ t.parts := by
  cases t with
  | conditional =>
    simp only [openParts, List.mem_cons, List.not_mem_nil, or_false] at h
    rcases h with rfl | rfl | rfl <;> simp [parts]
  | _ => exact h

section Free
variable {x : String}

theorem free_param {name : String} {constraint default : Ty} : Free x (param name constraint default) ↔ x = name := by
  constructor
  · intro h
    cases h with
    | here => rfl
    | part hu => cases hu
  · rintro rfl
    exact .here

theorem free_conditional {check bound yes no : Ty} {distribute : Bool} :
    Free x (conditional check bound yes no distribute) ↔
      Free x check ∨ Free x bound ∨ Free x no ∨ x ∉ bound.inferNames ∧ Free x yes := by
  constructor
  · intro h
    cases h with
    | part hu h =>
      simp only [openParts, List.mem_cons, List.not_mem_nil, or_false] at hu
      rcases hu with rfl | rfl | rfl
      · exact .inl h
      · exact .inr (.inl h)
      · exact .inr (.inr (.inl h))
    | yes hx h => exact .inr (.inr (.inr ⟨hx, h⟩))
  · rintro (h | h | h | ⟨hx, h⟩)
    · exact .part (by simp [openParts]) h
    · exact .part (by simp [openParts]) h
    · exact .part (by simp [openParts]) h
    · exact .yes hx h

theorem free_iff {t : Ty} (hp : t.isParam = false) (hc : t.isConditional = false) : Free x t ↔ ∃ u ∈ t.parts, Free x u := by
  constructor
  · intro h
    cases h with
    | here => cases hp
    | part hu h => exact ⟨_, openParts_eq hc ▸ hu, h⟩
    | yes => cases hc
  · rintro ⟨u, hu, h⟩
    exact .part (by rwa [openParts_eq hc]) h

/-- What is free in a tree occurs in it. -/
theorem Free.occurs {p : Ty → Bool} (h₀ : p absent = false) (hp : ∀ c d, p (param x c d) = true) {t : Ty} (h : Free x t) :
    t.occurs p = true := by
  induction h with
  | here => exact occurs_self h₀ (hp _ _)
  | part hu _ ih => exact occurs_of_part h₀ (mem_parts_of_open hu) ih
  | yes _ _ ih => exact occurs_of_part h₀ (by simp [parts]) ih

theorem not_concrete_of_free {t : Ty} (h : Free x t) : t.isConcrete = false := by
  rw [isConcrete, h.occurs rfl fun _ _ => rfl]
  rfl

theorem mem_insertName {name : String} {ns : List String} : x ∈ insertName name ns ↔ x = name ∨ x ∈ ns := by
  induction ns with
  | nil => simp [insertName]
  | cons n ns ih =>
    rw [insertName]
    split
    · exact List.mem_cons
    · split
      · grind
      · rw [List.mem_cons, ih, List.mem_cons]
        exact or_left_comm

mutual

theorem mem_freeInto : (t : Ty) → (bound found : List String) →
    (x ∈ freeInto bound found t ↔ x ∈ found ∨ x ∉ bound ∧ Free x t)
  | param name _ _, bound, found => by
    rw [freeInto, free_param]
    by_cases h : bound.contains name = true
    · rw [if_pos h]
      rw [List.contains_iff_mem] at h
      grind
    · rw [if_neg h, mem_insertName]
      rw [List.contains_iff_mem] at h
      grind
  | conditional c b y n _, bound, found => by
    rw [freeInto, mem_freeInto y, mem_freeInto n, mem_freeInto b, mem_freeInto c, free_conditional, List.mem_append]
    grind
  | template xs, bound, found => by
    rw [free_iff rfl rfl, freeInto, mem_freeInSegments xs]
    rfl
  | object ps i, bound, found => by
    rw [free_iff rfl rfl, freeInto, mem_freeInIndex i, mem_freeInProps ps]
    simp only [parts, List.mem_append, or_and_right, exists_or]
    grind
  | array t _, bound, found | keyOf t, bound, found | mapping _ t, bound, found => by
    rw [free_iff rfl rfl, freeInto, mem_freeInto t]
    simp [parts]
  | tuple ts, bound, found | union ts, bound, found | intersection ts, bound, found | reference _ ts, bound, found => by
    rw [free_iff rfl rfl, freeInto, mem_freeInAll ts]
    rfl
  | infer name t, bound, found => by
    rw [free_iff rfl rfl, freeInto, mem_freeInto t]
    cases t with
    | absent => simp [parts, present?, show ¬Free x absent from fun h => by cases h; contradiction]
    | _ => simp [parts, present?]
  | function ts t, bound, found => by
    rw [free_iff rfl rfl, freeInto, mem_freeInto t, mem_freeInAll ts]
    simp only [parts, List.mem_append, List.mem_singleton, or_and_right, exists_or, exists_eq_left]
    grind
  | access t i, bound, found => by
    rw [free_iff rfl rfl, freeInto, mem_freeInto i, mem_freeInto t]
    simp only [parts, List.mem_cons, List.not_mem_nil, or_false, or_and_right, exists_or, exists_eq_left]
    grind
  | absent, bound, found | any, bound, found | unknown, bound, found | void, bound, found | never, bound, found
  | prim _, bound, found | literal .., bound, found => by
    rw [free_iff rfl rfl, freeInto]
    · simp [parts]
    all_goals simp

theorem mem_freeInAll : (ts : List Ty) → (bound found : List String) →
    (x ∈ freeInAll bound found ts ↔ x ∈ found ∨ x ∉ bound ∧ ∃ u ∈ ts, Free x u)
  | [], bound, found => by simp [freeInAll]
  | t :: ts, bound, found => by
    rw [freeInAll, mem_freeInAll ts, mem_freeInto t]
    grind

theorem mem_freeInSegments : (xs : List (Segment Ty)) → (bound found : List String) →
    (x ∈ freeInSegments bound found xs ↔ x ∈ found ∨ x ∉ bound ∧ ∃ u ∈ holes xs, Free x u)
  | [], bound, found => by simp [freeInSegments, holes]
  | .text _ :: xs, bound, found => by rw [freeInSegments, mem_freeInSegments xs, holes_text]
  | .hole t :: xs, bound, found => by
    rw [freeInSegments, mem_freeInSegments xs, mem_freeInto t, holes_hole]
    grind

theorem mem_freeInProps : (ps : List (Property Ty)) → (bound found : List String) →
    (x ∈ freeInProps bound found ps ↔ x ∈ found ∨ x ∉ bound ∧ ∃ u ∈ ps.map (·.type), Free x u)
  | [], bound, found => by simp [freeInProps]
  | ⟨_, t, _, _⟩ :: ps, bound, found => by
    rw [freeInProps, mem_freeInProps ps, mem_freeInto t, List.map_cons]
    grind

theorem mem_freeInIndex : (i : Option (IndexSignature Ty)) → (bound found : List String) →
    (x ∈ freeInIndex bound found i ↔ x ∈ found ∨ x ∉ bound ∧ ∃ u ∈ (i.map (·.value)).toList, Free x u)
  | none, bound, found => by simp [freeInIndex]
  | some ⟨_, t⟩, bound, found => by
    rw [freeInIndex, mem_freeInto t]
    simp

end

theorem mem_freeParams {t : Ty} : x ∈ t.freeParams ↔ Free x t := by
  simp [freeParams, mem_freeInto]

theorem hasFreeParams_eq_false {t : Ty} : t.hasFreeParams = false ↔ ∀ x, ¬Free x t := by
  simp only [hasFreeParams, Bool.not_eq_false', List.isEmpty_iff, List.eq_nil_iff_forall_not_mem, mem_freeParams]

end Free

/-- Constructors bring no free parameters with them. -/
theorem inherited_notFree (x : String) : Inherited fun t => ¬Free x t := by
  have structural : ∀ {t : Ty}, t.isStructural = true → (Free x t ↔ ∃ u ∈ t.parts, Free x u) := by
    intro t ht
    refine free_iff ?_ ?_ <;> cases t <;> first | rfl | cases ht
  refine ⟨fun ht h hu hf => h ((structural ht).2 ⟨_, hu, hf⟩), fun ht h hf => ?_, fun h hm hf => h (.part hm hf), fun h _ hf => ?_,
    fun h hm hf => h (.part hm hf), fun h _ hf => ?_⟩
  · obtain ⟨u, hu, hf⟩ := (structural ht).1 hf
    exact h u hu hf
  · obtain ⟨u, hu, hf⟩ := (free_iff rfl rfl).1 hf
    exact h u hu hf
  · obtain ⟨u, hu, hf⟩ := (free_iff rfl rfl).1 hf
    exact h u hu hf

end TypeCalculus.Ty

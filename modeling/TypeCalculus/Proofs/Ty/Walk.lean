import TypeCalculus.Proofs.Ty.Inherited

/-! Walks over a tree told by its parts: what occurs in a tree is the tree itself or occurs in a part, and parts are
    smaller. -/

namespace TypeCalculus.Ty

@[simp]
theorem holes_text (s : String) (rest : List (Segment Ty)) : holes (.text s :: rest) = holes rest := rfl

@[simp]
theorem holes_hole (t : Ty) (rest : List (Segment Ty)) : holes (.hole t :: rest) = t :: holes rest := rfl

/-! ### Size -/

theorem sizeOfAll_holes_le (segments : List (Segment Ty)) : sizeOfAll (holes segments) ≤ sizeOfSegments segments := by
  induction segments with
  | nil => exact Nat.le_refl _
  | cons s rest ih =>
    cases s with
    | text =>
      rw [holes_text, sizeOfSegments]
      omega
    | hole t =>
      rw [holes_hole, sizeOfSegments, sizeOfAll]
      omega

theorem sizeOfProps_eq (props : List (Property Ty)) : sizeOfAll (props.map (·.type)) = sizeOfProps props := by
  induction props with
  | nil => rfl
  | cons p props ih => rw [List.map_cons, sizeOfAll, ih, sizeOfProps]

theorem sizeOfAll_parts_lt (t : Ty) : sizeOfAll t.parts < t.size := by
  cases t with
  | template segments =>
    have := sizeOfAll_holes_le segments
    simp only [parts, size]
    omega
  | object props index =>
    cases index with
    | none => simp [parts, size, sizeOfProps_eq, sizeOfIndex]
    | some i =>
      simp only [parts, size, sizeOfAll_append, sizeOfProps_eq, sizeOfIndex, Option.map_some, Option.toList_some, sizeOfAll]
      omega
  | infer name constraint =>
    cases constraint with
    | absent =>
      simp only [parts, present?, Option.toList_none, sizeOfAll, size]
      omega
    | _ =>
      simp only [parts, present?, Option.toList_some, sizeOfAll, size]
      omega
  | function params result =>
    simp only [parts, size, sizeOfAll_append, sizeOfAll]
    omega
  | _ =>
    simp only [parts, size, sizeOfAll]
    omega

theorem size_lt_of_part {t u : Ty} (h : u ∈ t.parts) : u.size < t.size :=
  Nat.lt_of_le_of_lt (size_le_of_mem h) (sizeOfAll_parts_lt t)

/-- What holds of a type as soon as it holds of its parts holds of all types. -/
theorem parts_induction {P : Ty → Prop} (step : ∀ t, (∀ u ∈ t.parts, P u) → P t) (t : Ty) : P t := by
  induction hn : t.size using Nat.strongRecOn generalizing t with
  | ind n ih => exact step t fun u hu => ih _ (hn ▸ size_lt_of_part hu) u rfl

/-! ### Occurrences -/

section Occurs
variable {p : Ty → Bool}

theorem occursInAll_iff {ts : List Ty} : occursInAll p ts = true ↔ ∃ t ∈ ts, t.occurs p = true := by
  induction ts with
  | nil => simp [occursInAll]
  | cons t ts ih => simp [occursInAll, ih]

theorem occursInSegments_iff {segments : List (Segment Ty)} :
    occursInSegments p segments = true ↔ ∃ t ∈ holes segments, t.occurs p = true := by
  induction segments with
  | nil => simp [occursInSegments, holes]
  | cons s rest ih =>
    cases s with
    | text => rw [occursInSegments, ih, holes_text]
    | hole t => simp [occursInSegments, ih]

theorem occursInProps_iff {props : List (Property Ty)} :
    occursInProps p props = true ↔ ∃ q ∈ props, q.type.occurs p = true := by
  induction props with
  | nil => simp [occursInProps]
  | cons q props ih => simp [occursInProps, ih]

theorem occursInIndex_iff {index : Option (IndexSignature Ty)} :
    occursInIndex p index = true ↔ ∃ i, index = some i ∧ i.value.occurs p = true := by
  cases index <;> simp [occursInIndex]

/-- A test succeeds somewhere in a tree exactly if it does at the root or somewhere in a part. -/
theorem occurs_iff (hp : p absent = false) {t : Ty} :
    t.occurs p = true ↔ p t = true ∨ ∃ u ∈ t.parts, u.occurs p = true := by
  cases t with
  | absent => simp [occurs, parts, hp]
  | template segments => simp [occurs, parts, occursInSegments_iff]
  | object props index =>
    simp only [occurs, parts, Bool.or_eq_true, occursInProps_iff, occursInIndex_iff, List.mem_append, List.mem_map,
      Option.mem_toList, Option.map_eq_some_iff]
    constructor
    · rintro ((h | ⟨q, hq, h⟩) | ⟨i, hi, h⟩)
      · exact Or.inl h
      · exact Or.inr ⟨_, Or.inl ⟨q, hq, rfl⟩, h⟩
      · exact Or.inr ⟨_, Or.inr ⟨i, hi, rfl⟩, h⟩
    · rintro (h | ⟨u, ⟨q, hq, rfl⟩ | ⟨i, hi, rfl⟩, h⟩)
      · exact Or.inl (Or.inl h)
      · exact Or.inl (Or.inr ⟨q, hq, h⟩)
      · exact Or.inr ⟨i, hi, h⟩
  | tuple ts | union ts | intersection ts | reference _ ts => simp [occurs, parts, occursInAll_iff]
  | function ts t =>
    simp only [occurs, parts, Bool.or_eq_true, occursInAll_iff, List.mem_append, List.mem_singleton, or_and_right,
      exists_or, exists_eq_left, or_assoc]
  | infer name constraint =>
    cases constraint with
    | absent => simp [occurs, parts, present?]
    | _ => simp [occurs, parts, present?]
  | conditional c b y n d => simp [occurs, parts, or_assoc]
  | access t i => simp [occurs, parts, or_assoc]
  | _ => simp [occurs, parts]

theorem occurs_self (hp : p absent = false) {t : Ty} (h : p t = true) : t.occurs p = true :=
  (occurs_iff hp).2 (Or.inl h)

theorem occurs_of_part (hp : p absent = false) {t u : Ty} (hu : u ∈ t.parts) (h : u.occurs p = true) :
    t.occurs p = true :=
  (occurs_iff hp).2 (Or.inr ⟨u, hu, h⟩)

/-- What occurs to one test occurs to every weaker one. -/
theorem occurs_imp {q : Ty → Bool} (hp : p absent = false) (hq : q absent = false) (h : ∀ t, p t = true → q t = true) {t : Ty}
    (ht : t.occurs p = true) : t.occurs q = true := by
  induction t using parts_induction with
  | step t ih =>
    rcases (occurs_iff hp).1 ht with ht | ⟨u, hu, ht⟩
    · exact occurs_self hq (h t ht)
    · exact occurs_of_part hq hu (ih u hu ht)

end Occurs

/-- What every test that succeeds somewhere in a tree implies holds at every node. -/
theorem throughout_of_occurs {ι : Type} {p : ι → Ty → Bool} (hp : ∀ i, p i absent = false) {q : ι → Prop} {t : Ty}
    (h : ∀ i, t.occurs (p i) = true → q i) : Throughout parts (fun u => ∀ i, p i u = true → q i) t := by
  induction t using parts_induction with
  | step t ih =>
    refine ⟨fun i hi => h i (occurs_self (hp i) hi), fun u hu => ?_⟩
    exact ih u hu fun i hi => h i (occurs_of_part (hp i) hu hi)

end TypeCalculus.Ty

import Mathlib.Data.Set.Function
import TypeCalculus.Proofs.Ty.Free
import TypeCalculus.Proofs.Ty.Inherited

/-! The tree with all its names mapped, those of parameters and of placeholders alike (`rename`). Renaming bound names
    can be told by the way back: mapped back, the new names give the tree they were brought into. A mapping that takes
    no two names of a scope to one (`Faithful`) leaves every parameter with the placeholder that declares it. -/

namespace TypeCalculus.Ty

/-! ### Mapping names -/

mutual

/-- The tree with the names of its parameters and placeholders mapped. -/
def rename (φ : String → String) : Ty → Ty
  | template segments => template (renameSegments φ segments)
  | object props index => object (renameProps φ props) (renameIndex φ index)
  | array elem readonly => array (elem.rename φ) readonly
  | tuple elems => tuple (renameAll φ elems)
  | union members => union (renameAll φ members)
  | intersection members => intersection (renameAll φ members)
  | param name constraint default => param (φ name) constraint default
  | infer name constraint => infer (φ name) (constraint.rename φ)
  | conditional check bound yes no distribute =>
    conditional (check.rename φ) (bound.rename φ) (yes.rename φ) (no.rename φ) distribute
  | reference name args => reference name (renameAll φ args)
  | function params result => function (renameAll φ params) (result.rename φ)
  | keyOf target => keyOf (target.rename φ)
  | access target index => access (target.rename φ) (index.rename φ)
  | mapping op arg => mapping op (arg.rename φ)
  | t => t
termination_by structural t => t

def renameAll (φ : String → String) : List Ty → List Ty
  | [] => []
  | t :: ts => t.rename φ :: renameAll φ ts
termination_by structural ts => ts

def renameSegments (φ : String → String) : List (Segment Ty) → List (Segment Ty)
  | [] => []
  | .text s :: rest => .text s :: renameSegments φ rest
  | .hole t :: rest => .hole (t.rename φ) :: renameSegments φ rest
termination_by structural segments => segments

def renameProps (φ : String → String) : List (Property Ty) → List (Property Ty)
  | [] => []
  | ⟨key, type, optional, readonly⟩ :: rest => ⟨key, type.rename φ, optional, readonly⟩ :: renameProps φ rest
termination_by structural props => props

def renameIndex (φ : String → String) : Option (IndexSignature Ty) → Option (IndexSignature Ty)
  | none => none
  | some ⟨key, value⟩ => some ⟨key, value.rename φ⟩
termination_by structural index => index

end

section Rename
variable (φ : String → String)

/-- The segment with the names in its hole mapped. -/
def renameSegment : Segment Ty → Segment Ty
  | .text s => .text s
  | .hole t => .hole (t.rename φ)

/-- The property with the names in its type mapped. -/
def renameProp (p : Property Ty) : Property Ty := { p with type := p.type.rename φ }

theorem renameAll_eq (ts : List Ty) : renameAll φ ts = ts.map (rename φ) := by
  induction ts with
  | nil => rfl
  | cons t ts ih => exact congrArg (_ :: ·) ih

theorem renameSegments_eq (xs : List (Segment Ty)) : renameSegments φ xs = xs.map (renameSegment φ) := by
  induction xs with
  | nil => rfl
  | cons x xs ih => cases x <;> exact congrArg (_ :: ·) ih

theorem renameProps_eq (ps : List (Property Ty)) : renameProps φ ps = ps.map (renameProp φ) := by
  induction ps with
  | nil => rfl
  | cons p ps ih => exact congrArg (_ :: ·) ih

theorem holes_rename (xs : List (Segment Ty)) : holes (renameSegments φ xs) = (holes xs).map (rename φ) := by
  induction xs with
  | nil => rfl
  | cons x xs ih =>
    cases x with
    | text => exact ih
    | hole => exact congrArg (_ :: ·) ih

theorem types_rename (ps : List (Property Ty)) : (renameProps φ ps).map (·.type) = (ps.map (·.type)).map (rename φ) := by
  induction ps with
  | nil => rfl
  | cons p ps ih => exact congrArg (_ :: ·) ih

theorem value_rename (i : Option (IndexSignature Ty)) :
    ((renameIndex φ i).map (·.value)).toList = (i.map (·.value)).toList.map (rename φ) := by
  cases i <;> rfl

/-- The parts of a renamed tree are the parts of the tree, renamed. -/
theorem parts_rename (t : Ty) : (t.rename φ).parts = t.parts.map (rename φ) := by
  cases t with
  | template xs => exact holes_rename φ xs
  | object ps i => simp only [rename, parts, List.map_append, types_rename, value_rename]
  | tuple ts | union ts | intersection ts | reference _ ts => exact renameAll_eq φ ts
  | function ts t => simp only [rename, parts, renameAll_eq, List.map_append, List.map_cons, List.map_nil]
  | infer name c => cases c <;> rfl
  | _ => rfl

mutual

theorem annotated_rename : (t : Ty) → (t.rename φ).annotated bare = (t.annotated bare).rename φ
  | template xs => by simp only [rename, annotated, annotatedSegments_rename xs]
  | object ps i => by simp only [rename, annotated, annotatedProps_rename ps, annotatedIndex_rename i]
  | tuple ts | union ts | intersection ts | reference _ ts => by simp only [rename, annotated, annotatedAll_rename ts]
  | array t _ | infer _ t | keyOf t | mapping _ t => by simp only [rename, annotated, annotated_rename t]
  | conditional c b y n _ => by
    simp only [rename, annotated, annotated_rename c, annotated_rename b, annotated_rename y, annotated_rename n]
  | function ts t => by simp only [rename, annotated, annotatedAll_rename ts, annotated_rename t]
  | access t i => by simp only [rename, annotated, annotated_rename t, annotated_rename i]
  | absent | any | unknown | void | never | prim _ | literal .. | param .. => rfl

theorem annotatedAll_rename : (ts : List Ty) → annotatedAll bare (renameAll φ ts) = renameAll φ (annotatedAll bare ts)
  | [] => rfl
  | t :: ts => by simp only [renameAll, annotatedAll, annotated_rename t, annotatedAll_rename ts]

theorem annotatedSegments_rename : (xs : List (Segment Ty)) →
    annotatedSegments bare (renameSegments φ xs) = renameSegments φ (annotatedSegments bare xs)
  | [] => rfl
  | .text _ :: xs => by simp only [renameSegments, annotatedSegments, annotatedSegments_rename xs]
  | .hole t :: xs => by simp only [renameSegments, annotatedSegments, annotated_rename t, annotatedSegments_rename xs]

theorem annotatedProps_rename : (ps : List (Property Ty)) →
    annotatedProps bare (renameProps φ ps) = renameProps φ (annotatedProps bare ps)
  | [] => rfl
  | ⟨_, t, _, _⟩ :: ps => by simp only [renameProps, annotatedProps, annotated_rename t, annotatedProps_rename ps]

theorem annotatedIndex_rename : (i : Option (IndexSignature Ty)) →
    annotatedIndex bare (renameIndex φ i) = renameIndex φ (annotatedIndex bare i)
  | none => rfl
  | some ⟨_, t⟩ => by simp only [renameIndex, annotatedIndex, annotated_rename t]

end

/-! ### Names of a renamed tree -/

variable {φ : String → String} {t u : Ty}

theorem mem_inferNames_iff {x : String} : x ∈ t.inferNames ↔ t.isInferOf x = true ∨ ∃ u ∈ t.parts, x ∈ u.inferNames := by
  simp only [mem_inferNames]
  exact occurs_iff rfl

/-- The placeholders of a renamed tree are those of the tree, renamed. -/
theorem mem_inferNames_rename {x : String} : x ∈ (t.rename φ).inferNames ↔ ∃ z ∈ t.inferNames, φ z = x := by
  induction t using parts_induction with
  | step t part =>
    have node : (t.rename φ).isInferOf x = true ↔ ∃ z, t.isInferOf z = true ∧ φ z = x := by
      cases t <;> simp [rename, isInferOf]
    rw [mem_inferNames_iff, node, parts_rename]
    constructor
    · rintro (⟨z, hz, he⟩ | ⟨_, hv, hx⟩)
      · exact ⟨z, mem_inferNames_iff.2 (.inl hz), he⟩
      · obtain ⟨u, hu, rfl⟩ := List.mem_map.1 hv
        obtain ⟨z, hz, he⟩ := (part u hu).1 hx
        exact ⟨z, mem_inferNames_iff.2 (.inr ⟨u, hu, hz⟩), he⟩
    · rintro ⟨z, hz, he⟩
      rcases mem_inferNames_iff.1 hz with hz | ⟨u, hu, hz⟩
      · exact .inl ⟨z, hz, he⟩
      · exact .inr ⟨_, List.mem_map_of_mem hu, (part u hu).2 ⟨z, hz, he⟩⟩

theorem openParts_rename : openParts (t.rename φ) = (openParts t).map (rename φ) := by
  cases hc : t.isConditional with
  | true =>
    cases t with
    | conditional => rfl
    | _ => cases hc
  | false => rw [openParts_eq hc, openParts_eq (by cases t <;> exact hc), parts_rename]

/-- What is free in a renamed tree comes from a name that is free in the tree. -/
theorem free_of_rename {m : String} (h : Free m (t.rename φ)) : ∃ n, Free n t ∧ φ n = m := by
  generalize he : t.rename φ = t' at h
  induction h generalizing t with
  | here =>
    cases t with
    | param n => exact ⟨n, .here, (param.inj he).1⟩
    | _ => cases he
  | part hu _ ih =>
    subst he
    rw [openParts_rename] at hu
    obtain ⟨v, hv, rfl⟩ := List.mem_map.1 hu
    obtain ⟨n, hn, he⟩ := ih rfl
    exact ⟨n, .part hv hn, he⟩
  | yes hx _ ih =>
    cases t with
    | conditional c b y n d =>
      obtain ⟨-, rfl, rfl, -, -⟩ := conditional.inj he
      obtain ⟨n, hn, rfl⟩ := ih rfl
      exact ⟨n, .yes (fun hb => hx (mem_inferNames_rename.2 ⟨n, hb, rfl⟩)) hn, rfl⟩
    | _ => cases he

/-- In the scope of every conditional of the tree, names stay apart: those that the bound declares and those that are free
    in the true branch. -/
def Faithful (φ : String → String) : Ty → Prop :=
  Throughout parts fun u => ∀ check bound yes no distribute, u = conditional check bound yes no distribute →
    Set.InjOn φ {x | x ∈ bound.inferNames ∨ Free x yes}

/-- A mapping that keeps names apart sets free parameters free. -/
theorem free_rename {n : String} (hn : Free n t) (h : Faithful φ t) : Free (φ n) (t.rename φ) := by
  induction hn with
  | here => exact .here
  | part hu _ ih =>
    refine .part ?_ (ih (h.under (mem_parts_of_open hu)))
    rw [openParts_rename]
    exact List.mem_map_of_mem hu
  | @yes c b y m d hx hn ih =>
    refine .yes (fun hb => ?_) (ih (h.under (by simp [parts])))
    obtain ⟨z, hz, he⟩ := mem_inferNames_rename.1 hb
    exact hx (h.node _ _ _ _ _ rfl (.inl hz) (.inr hn) he ▸ hz)

/-! ### Names that stay -/

/-- The name of a parameter or of a placeholder. -/
def name? : Ty → Option String
  | param name _ _ => some name
  | infer name _ => some name
  | _ => none

/-- The mapping leaves all names in the tree as they are. -/
def Fixes (φ : String → String) : Ty → Prop := Throughout parts fun u => ∀ n, u.name? = some n → φ n = n

theorem name?_structural (h : t.isStructural = true) : t.name? = none := by
  cases t <;> first | rfl | cases h

theorem inherited_fixes (φ : String → String) : Inherited (Fixes φ) :=
  inherited_throughout (fun _ => rfl) (fun _ => rfl) (fun _ => rfl)
    (fun ht n hn => by
      rw [name?_structural ht] at hn
      cases hn)
    (fun _ => nofun) fun _ => nofun

theorem renameAll_self {ts : List Ty} (h : ∀ t ∈ ts, t.rename φ = t) : renameAll φ ts = ts := by
  rw [renameAll_eq, List.map_congr_left h, List.map_id']

theorem renameSegments_self {xs : List (Segment Ty)} (h : ∀ t ∈ holes xs, t.rename φ = t) : renameSegments φ xs = xs := by
  induction xs with
  | nil => rfl
  | cons x xs ih =>
    cases x with
    | text => rw [renameSegments, ih h]
    | hole t => rw [renameSegments, h t List.mem_cons_self, ih fun u hu => h u (List.mem_cons_of_mem _ hu)]

theorem renameProps_self {ps : List (Property Ty)} (h : ∀ p ∈ ps, p.type.rename φ = p.type) : renameProps φ ps = ps := by
  induction ps with
  | nil => rfl
  | cons p ps ih => rw [renameProps, h p List.mem_cons_self, ih fun q hq => h q (List.mem_cons_of_mem _ hq)]

/-- A tree all of whose names stay is not changed. -/
theorem Fixes.rename_eq (h : Fixes φ t) : t.rename φ = t := by
  induction h with
  | @mk t hn _ ih =>
    cases t with
    | template xs => rw [rename, renameSegments_self ih]
    | object ps i =>
      rw [rename, renameProps_self fun p hp => ih _ (List.mem_append_left _ (List.mem_map_of_mem hp))]
      cases i with
      | none => rfl
      | some i => rw [renameIndex, ih i.value (List.mem_append_right _ List.mem_cons_self)]
    | tuple ts | union ts | intersection ts | reference _ ts => rw [rename, @renameAll_self φ ts ih]
    | function ts t =>
      rw [rename, renameAll_self fun u hu => ih u (List.mem_append_left _ hu), ih t (List.mem_append_right _ List.mem_cons_self)]
    | array t | keyOf t | mapping _ t => rw [rename, ih t List.mem_cons_self]
    | access t i => rw [rename, ih t List.mem_cons_self, ih i (List.mem_cons_of_mem _ List.mem_cons_self)]
    | conditional c b y n =>
      rw [rename, ih c (by simp [parts]), ih b (by simp [parts]), ih y (by simp [parts]), ih n (by simp [parts])]
    | infer name c =>
      rw [rename, hn name rfl]
      cases c with
      | absent => rfl
      | _ => rw [ih _ List.mem_cons_self]
    | param name c d => rw [rename, hn name rfl]
    | _ => rfl

/-- The names of a tree that is not changed stay. -/
theorem fixes_of_rename (h : t.rename φ = t) : Fixes φ t := by
  induction t using parts_induction with
  | step t ih =>
    refine ⟨fun n hn => ?_, fun u hu => ih u hu ?_⟩
    · cases t with
      | param => exact Option.some.inj hn ▸ (param.inj h).1
      | infer => exact Option.some.inj hn ▸ (infer.inj h).1
      | _ => cases hn
    · have same : t.parts.map (rename φ) = t.parts.map id := by rw [← parts_rename, h, List.map_id]
      exact List.map_inj_left.1 same u hu

theorem rename_eq_self : t.rename φ = t ↔ Fixes φ t := ⟨fixes_of_rename, Fixes.rename_eq⟩

theorem Fixes.free (h : Fixes φ t) {n : String} (hn : Free n t) : φ n = n := by
  induction hn with
  | here => exact h.node _ rfl
  | part hu _ ih => exact ih (h.under (mem_parts_of_open hu))
  | yes _ _ ih => exact ih (h.under (by simp [parts]))

theorem Fixes.declared (h : Fixes φ t) {x : String} (hx : x ∈ t.inferNames) : φ x = x := by
  induction h with
  | @mk t hn _ ih =>
    rcases mem_inferNames_iff.1 hx with hi | ⟨u, hu, hx⟩
    · cases t with
      | infer name => exact hn x (congrArg some (beq_iff_eq.1 hi))
      | _ => cases hi
    · exact ih u hu hx

/-- A mapping keeps names apart where it leaves them as they are. -/
theorem Fixes.faithful (h : Fixes φ t) : Faithful φ t := by
  induction h with
  | @mk t hn hp ih =>
    refine ⟨?_, ih⟩
    rintro c b y n d rfl x hx z hz he
    have hb : Fixes φ b := hp b (by simp [parts])
    have hy : Fixes φ y := hp y (by simp [parts])
    have stays : ∀ w, w ∈ b.inferNames ∨ Free w y → φ w = w := fun w hw => hw.elim hb.declared hy.free
    rwa [stays x hx, stays z hz] at he

theorem isConcrete_rename (φ : String → String) (t : Ty) : (t.rename φ).isConcrete = t.isConcrete := by
  have occurs : (t.rename φ).occurs isPending = t.occurs isPending := by
    induction t using parts_induction with
    | step t ih =>
      have node : (t.rename φ).isPending = t.isPending := by cases t <;> rfl
      rw [Bool.eq_iff_iff, occurs_iff rfl, occurs_iff rfl, node, parts_rename]
      simp only [List.mem_map, exists_exists_and_eq_and]
      exact or_congr_right (exists_congr fun u => and_congr_right fun hu => by rw [ih u hu])
  rw [isConcrete, isConcrete, occurs]

/-- A known type has no names. -/
theorem fixes_concrete (φ : String → String) (h : t.isConcrete = true) : Fixes φ t := by
  induction t using parts_induction with
  | step t ih =>
    have quiet : t.occurs isPending = false := by simpa [isConcrete] using h
    refine ⟨fun n hn => ?_, fun u hu => ih u hu ?_⟩
    · cases t with
      | param | infer => cases quiet
      | _ => cases hn
    · rw [isConcrete, Bool.not_eq_true']
      exact Bool.eq_false_iff.2 fun ho => by rw [occurs_of_part rfl hu ho] at quiet; cases quiet

end Rename
end TypeCalculus.Ty

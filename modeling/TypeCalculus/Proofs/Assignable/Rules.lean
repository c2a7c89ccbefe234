import TypeCalculus.Proofs.Assignable.Derived
import TypeCalculus.Proofs.Assignable.FirstOrder

/-! When the answer of a comparison is yes, rule by rule and apart from captures. Of a choice it only counts that some
    alternative succeeds, so the rules have no negative premises (`accepts_iff_permits`). -/

namespace TypeCalculus.Assignable
open Ty (holes)

/-! ### Rules over given answers -/

section Rules
variable (A : Ty → Ty → Prop)

/-- A placeholder with the constraint may take the type. -/
def Takeable (constraint t : Ty) : Prop := constraint.isAbsent = true ∨ A t constraint

mutual

/-- The text belongs to the type of a hole. -/
def Filled (region : String) : Ty → Prop
  | .infer _ constraint => Takeable A constraint (captured region constraint)
  | .template segments =>
    ∃ pieces regions, Piece.readAll? (Piece.ofSegments segments) = some pieces ∧
      Piece.regions? pieces region.toList = some regions ∧ FilledEach regions segments
  | .union members => FilledSome region members
  | t => A (captured region t) t
termination_by structural t => t

def FilledSome (region : String) : List Ty → Prop
  | [] => False
  | t :: ts => Filled region t ∨ FilledSome region ts
termination_by structural ts => ts

def FilledEach (regions : List String) : List (Segment Ty) → Prop
  | [] => True
  | .text _ :: rest => FilledEach regions rest
  | .hole t :: rest =>
    match regions with
    | [] => False
    | region :: regions => Filled region t ∧ FilledEach regions rest
termination_by structural segments => segments

end

/-- Two segments at the same place of two templates. -/
inductive Abreast : Segment Ty → Segment Ty → Prop
  | text {s} : Abreast (.text s) (.text s)
  | hole {x y} : A x y → Abreast (.hole x) (.hole y)

/-- The properties of a shape have one that is asked for. -/
def HasProp (source : List (Property Ty)) (want : Property Ty) : Prop :=
  match Shape.find? source want.key with
  | none => want.optional = true
  | some got => (got.optional = true → want.optional = true) ∧ (got.readonly = true → want.readonly = true) ∧
      A got.type want.type

/-- A shape has an index signature that is asked for. -/
def HasIndex (source : Shape) (want : IndexSignature Ty) : Prop :=
  (∀ p ∈ source.props, want.covers p.key = true → A p.type want.value) ∧
    ∀ got, source.index = some got → got.key = want.key ∨ want.key = .string → A got.value want.value

/-- The rules for types that are neither unions, intersections, placeholders nor open. -/
inductive Matches : Ty → Ty → Prop
  | undefined : Matches .undefined .void
  | literal {base text} : Matches (.literal base text) (.prim base)
  | template {segments} : Matches (.template segments) .string
  | mapping {op arg} : Matches (.mapping op arg) .string
  | filled {text segments} : Filled A text (.template segments) → Matches (.literal .string text) (.template segments)
  | aligned {source target} : List.Forall₂ (Abreast A) source target → Matches (.template source) (.template target)
  | peeled {source target single rest} : Ty.singleHole? target = some single → peeled? source single = some rest →
      A (Ty.templateOf rest) single.hole → Matches (.template source) (.template target)
  | mapped {text op arg} : op.apply text = text → A (.literal .string text) arg →
      Matches (.literal .string text) (.mapping op arg)
  | object {a s props index} : apparentShape? a = some s → (∀ want ∈ props, HasProp A s.props want) →
      (∀ want, index = some want → HasIndex A s want) → Matches a (.object props index)
  | array {x y readonly readonly'} : (readonly = true → readonly' = true) → A x y →
      Matches (.array x readonly) (.array y readonly')
  | elements {xs y readonly} : A (Ty.unionOf xs) y → Matches (.tuple xs) (.array y readonly)
  | tuple {xs ys} : xs.length = ys.length → Pointwise A xs ys → Matches (.tuple xs) (.tuple ys)
  | reference {name xs ys} : xs.length = ys.length → Pointwise A xs ys → Matches (.reference name xs) (.reference name ys)
  | function {xs ys x y} : xs.length ≤ ys.length → Pointwise (fun x y => A y x) xs ys → A x y →
      Matches (.function xs x) (.function ys y)

/-- The type is neither a union nor an intersection. -/
def Lone (t : Ty) : Prop := (∀ ms, t ≠ .union ms) ∧ ∀ ms, t ≠ .intersection ms

inductive Permits : Ty → Ty → Prop
  | sourceMembers {members b} : (∀ m ∈ members, A m b) → Permits (.union members) b
  | splitBoolean {a members} : SplitBoolean a members → Permits a (.union members)
  | targetMember {a members m} : (∀ ms, a ≠ .union ms) → m ∈ members → A a m → Permits a (.union members)
  | targetBound {a members u} : upperBound? a = some u → A u (.union members) → Permits a (.union members)
  | sourcePart {members b m} : (∀ ms, b ≠ .union ms) → m ∈ members → A m b → Permits (.intersection members) b
  | targetParts {a members} : Lone a → (∀ m ∈ members, A a m) → Permits a (.intersection members)
  | targetInfer {a name constraint} : Lone a → Takeable A constraint a → Permits a (.infer name constraint)
  | sourceInfer {name constraint b} : Lone b → (∀ n c, b ≠ .infer n c) → Takeable A constraint b →
      Permits (.infer name constraint) b
  | bound {a b u} : Lone b → (∀ n c, b ≠ .infer n c) → upperBound? a = some u → A u b → Permits a b
  | structural {a b} : Lone a → Matches A a b → Permits a b

theorem union_or_intersection_or_lone (t : Ty) : (∃ ms, t = .union ms) ∨ (∃ ms, t = .intersection ms) ∨ Lone t := by
  cases t <;> first | exact .inl ⟨_, rfl⟩ | exact .inr (.inl ⟨_, rfl⟩) | exact .inr (.inr ⟨nofun, nofun⟩)

variable {A} in
/-- The rules for a source that is known: neither a union nor an intersection, and neither open nor a placeholder. -/
theorem permits_known {a b : Ty} (hl : Lone a) (hu : upperBound? a = none) (hi : ∀ n k, a ≠ .infer n k) (h : Permits A a b) :
    (∃ ms, b = .union ms ∧ (SplitBoolean a ms ∨ ∃ m ∈ ms, A a m)) ∨ (∃ ms, b = .intersection ms ∧ ∀ m ∈ ms, A a m) ∨
      (∃ n k, b = .infer n k ∧ Takeable A k a) ∨ Matches A a b := by
  cases h with
  | sourceMembers => exact absurd rfl (hl.1 _)
  | splitBoolean h => exact .inl ⟨_, rfl, .inl h⟩
  | targetMember _ hm h => exact .inl ⟨_, rfl, .inr ⟨_, hm, h⟩⟩
  | targetBound h => cases hu.symm.trans h
  | sourcePart => exact absurd rfl (hl.2 _)
  | targetParts _ h => exact .inr (.inl ⟨_, rfl, h⟩)
  | targetInfer _ h => exact .inr (.inr (.inl ⟨_, _, rfl, h⟩))
  | sourceInfer => exact absurd rfl (hi _ _)
  | bound _ _ h => cases hu.symm.trans h
  | structural _ h => exact .inr (.inr (.inr h))

end Rules

/-! ### Derivations and rules -/

section Derivations
variable {D : Derivation} {a b : Ty}

/-- The pair has a derivation. -/
def Derivable (D : Derivation) (a b : Ty) : Prop := ∃ cs, D a b cs

theorem exists_takes {name : String} {constraint t : Ty} :
    (∃ cs, Takes D name constraint t cs) ↔ Takeable (Derivable D) constraint t := by
  constructor
  · rintro ⟨_, ht⟩
    cases ht with
    | unconstrained => exact .inl rfl
    | allowed _ hd => exact .inr ⟨_, hd⟩
  · intro h
    cases hc : constraint.isAbsent with
    | true =>
      obtain rfl : constraint = .absent := by cases constraint <;> first | rfl | cases hc
      exact ⟨_, .unconstrained⟩
    | false =>
      obtain ⟨cs, hd⟩ := h.resolve_left (by rw [hc]; nofun)
      exact ⟨_, .allowed hc hd⟩

mutual

theorem exists_fills {region : String} : (t : Ty) → ((∃ cs, Fills D region t cs) ↔ Filled (Derivable D) region t)
  | .infer name constraint => by
    simp only [Fills, Filled]
    exact exists_takes
  | .template segments => by
    simp only [Fills, Filled, ← exists_fillsEach segments]
    constructor
    · rintro ⟨cs, pieces, regions, hp, hr, h⟩
      exact ⟨pieces, regions, hp, hr, cs, h⟩
    · rintro ⟨pieces, regions, hp, hr, cs, h⟩
      exact ⟨cs, pieces, regions, hp, hr, h⟩
  | .union members => by
    simp only [Fills, Filled]
    exact exists_fillsFirst members
  | .absent | .any | .unknown | .void | .never | .prim _ | .literal .. | .object .. | .array .. | .tuple _
  | .intersection _ | .param .. | .conditional .. | .reference .. | .function .. | .keyOf _ | .access ..
  | .mapping .. => Iff.rfl

theorem exists_fillsFirst {region : String} :
    (ts : List Ty) → ((∃ cs, FillsFirst D region ts cs) ↔ FilledSome (Derivable D) region ts)
  | [] => ⟨fun ⟨_, h⟩ => h, fun h => h.elim⟩
  | t :: ts => by
    simp only [FillsFirst, FilledSome, ← exists_fills t, ← exists_fillsFirst ts, exists_or, exists_and_left]
    by_cases h : ∃ cs, Fills D region t cs <;> simp [h]

theorem exists_fillsEach {regions : List String} :
    (segments : List (Segment Ty)) → ((∃ cs, FillsEach D regions segments cs) ↔ FilledEach (Derivable D) regions segments)
  | [] => ⟨fun _ => trivial, fun _ => ⟨[], rfl⟩⟩
  | .text _ :: rest => exists_fillsEach rest
  | .hole t :: rest => by
    cases regions with
    | nil => exact ⟨fun ⟨_, h⟩ => h, fun h => h.elim⟩
    | cons region regions =>
      simp only [FillsEach, FilledEach, ← exists_fills t, ← exists_fillsEach rest]
      constructor
      · rintro ⟨_, ds, es, hd, he, rfl⟩
        exact ⟨⟨ds, hd⟩, es, he⟩
      · rintro ⟨⟨ds, hd⟩, es, he⟩
        exact ⟨_, ds, es, hd, he, rfl⟩

end

theorem exists_aligned {source target : List (Segment Ty)} :
    (∃ cs, Aligned D source target cs) ↔ List.Forall₂ (Abreast (Derivable D)) source target := by
  constructor
  · rintro ⟨cs, h⟩
    induction h with
    | nil => exact .nil
    | text _ ih => exact .cons .text ih
    | hole hd _ ih => exact .cons (.hole ⟨_, hd⟩) ih
  · intro h
    induction h with
    | nil => exact ⟨_, .nil⟩
    | cons h _ ih =>
      obtain ⟨ds, hds⟩ := ih
      cases h with
      | text => exact ⟨_, .text hds⟩
      | hole h =>
        obtain ⟨cs, hcs⟩ := h
        exact ⟨_, .hole hcs hds⟩

theorem exists_providesProp {source : List (Property Ty)} {want : Property Ty} :
    (∃ cs, ProvidesProp D source want cs) ↔ HasProp (Derivable D) source want := by
  unfold HasProp
  constructor
  · rintro ⟨_, h⟩
    cases h with
    | missing hn ho => rwa [hn]
    | found hf ho hr hd => rw [hf]; exact ⟨ho, hr, _, hd⟩
  · intro h
    cases hf : Shape.find? source want.key with
    | none =>
      rw [hf] at h
      exact ⟨_, .missing hf h⟩
    | some got =>
      rw [hf] at h
      obtain ⟨ho, hr, cs, hd⟩ := h
      exact ⟨_, .found hf ho hr hd⟩

theorem exists_providesIndex {source : Shape} {index : Option (IndexSignature Ty)} :
    (∃ cs, ProvidesIndex D source index cs) ↔ ∀ want, index = some want → HasIndex (Derivable D) source want := by
  have values : ∀ {want}, (∃ cs, ProvidesValues D source want cs) ↔
      ∀ got, source.index = some got → got.key = want.key ∨ want.key = .string → Derivable D got.value want.value := by
    intro want
    constructor
    · rintro ⟨_, h⟩ got hs hk
      cases h with
      | other hn => exact absurd hk (hn got hs)
      | same hs' _ hd =>
        cases hs.symm.trans hs'
        exact ⟨_, hd⟩
    · intro h
      by_cases hn : ∀ got, source.index = some got → ¬(got.key = want.key ∨ want.key = .string)
      · exact ⟨_, .other hn⟩
      · simp only [not_forall, not_not] at hn
        obtain ⟨got, hs, hk⟩ := hn
        obtain ⟨cs, hd⟩ := h got hs hk
        exact ⟨_, .same hs hk hd⟩
  constructor
  · rintro ⟨_, h⟩ want rfl
    cases h with
    | some hcovered hvalues =>
      refine ⟨fun p hp hc => ?_, values.1 ⟨_, hvalues⟩⟩
      exact exists_each.1 ⟨_, hcovered⟩ p (List.mem_filter.2 ⟨hp, hc⟩)
  · intro h
    cases index with
    | none => exact ⟨_, .none⟩
    | some want =>
      obtain ⟨hcovered, hvalues⟩ := h want rfl
      obtain ⟨cs, hcs⟩ := exists_each.2 fun p hp => hcovered p (List.mem_filter.1 hp).1 (List.mem_filter.1 hp).2
      obtain ⟨ds, hds⟩ := values.2 hvalues
      exact ⟨_, .some hcs hds⟩

theorem exists_pointwise {xs ys : List Ty} :
    (∃ cs, Each (fun p : Ty × Ty => D p.1 p.2) (xs.zip ys) cs) ↔ Pointwise (Derivable D) xs ys := by
  rw [exists_each]
  constructor
  · intro h i x y hx hy
    exact h (x, y) (List.mem_of_getElem? (List.getElem?_zip_eq_some.2 ⟨hx, hy⟩))
  · rintro h ⟨x, y⟩ hp
    obtain ⟨i, hi⟩ := List.mem_iff_getElem?.1 hp
    obtain ⟨hx, hy⟩ := List.getElem?_zip_eq_some.1 hi
    exact h i x y hx hy

theorem matches_of_structural {cs : List Capture} (h : Structural D a b cs) : Matches (Derivable D) a b := by
  cases h with
  | undefined => exact .undefined
  | literal => exact .literal
  | template => exact .template
  | mapping => exact .mapping
  | filled h => exact .filled ((exists_fills _).1 ⟨_, h⟩)
  | aligned _ h => exact .aligned (exists_aligned.1 ⟨_, h⟩)
  | peeled _ hs hr h => exact .peeled hs hr ⟨_, h⟩
  | mapped ho h => exact .mapped ho ⟨_, h⟩
  | object hs hp hi =>
    refine .object hs (fun want hw => ?_) (exists_providesIndex.1 ⟨_, hi⟩)
    exact exists_providesProp.1 (exists_each.1 ⟨_, hp⟩ want hw)
  | array hr h => exact .array hr ⟨_, h⟩
  | elements h => exact .elements ⟨_, h⟩
  | tuple hl h => exact .tuple hl (exists_pointwise.1 ⟨_, h⟩)
  | reference hl h => exact .reference hl (exists_pointwise.1 ⟨_, h⟩)
  | function hl h h' => exact .function hl ((exists_pointwise (D := fun x y => D y x)).1 ⟨_, h⟩) ⟨_, h'⟩

theorem exists_structural : (∃ cs, Structural D a b cs) ↔ Matches (Derivable D) a b := by
  refine ⟨fun ⟨_, h⟩ => matches_of_structural h, fun h => ?_⟩
  have peel : ∀ {source target single rest}, Ty.singleHole? target = some single → peeled? source single = some rest →
      Derivable D (Ty.templateOf rest) single.hole → ∃ cs, Structural D (.template source) (.template target) cs := by
    rintro source target single rest hs hr ⟨_, h⟩
    by_cases ha : source.length = target.length ∧ ∃ ds, Aligned D source target ds
    · obtain ⟨hl, _, ha⟩ := ha
      exact ⟨_, .aligned hl ha⟩
    · exact ⟨_, .peeled (fun hl ha' => ha ⟨hl, ha'⟩) hs hr h⟩
  cases h with
  | undefined => exact ⟨_, .undefined⟩
  | literal => exact ⟨_, .literal⟩
  | template => exact ⟨_, .template⟩
  | mapping => exact ⟨_, .mapping⟩
  | filled h =>
    obtain ⟨_, h⟩ := (exists_fills _).2 h
    exact ⟨_, .filled h⟩
  | aligned h =>
    obtain ⟨_, ha⟩ := exists_aligned.2 h
    exact ⟨_, .aligned h.length_eq ha⟩
  | peeled hs hr h => exact peel hs hr h
  | mapped ho h =>
    obtain ⟨_, h⟩ := h
    exact ⟨_, .mapped ho h⟩
  | object hs hp hi =>
    obtain ⟨_, hp⟩ := exists_each.2 fun want hw => exists_providesProp.2 (hp want hw)
    obtain ⟨_, hi⟩ := exists_providesIndex.2 hi
    exact ⟨_, .object hs hp hi⟩
  | array hr h =>
    obtain ⟨_, h⟩ := h
    exact ⟨_, .array hr h⟩
  | elements h =>
    obtain ⟨_, h⟩ := h
    exact ⟨_, .elements h⟩
  | tuple hl h =>
    obtain ⟨_, h⟩ := exists_pointwise.2 h
    exact ⟨_, .tuple hl h⟩
  | reference hl h =>
    obtain ⟨_, h⟩ := exists_pointwise.2 h
    exact ⟨_, .reference hl h⟩
  | function hl h h' =>
    obtain ⟨_, h⟩ := (exists_pointwise (D := fun x y => D y x)).2 h
    obtain ⟨_, h'⟩ := h'
    exact ⟨_, .function hl h h'⟩

theorem permits_of_rule {cs : List Capture} (h : Rule D a b cs) : Permits (Derivable D) a b := by
  cases h with
  | sourceMembers h => exact .sourceMembers (exists_each.1 ⟨_, h⟩)
  | splitBoolean h => exact .splitBoolean h
  | targetMember ha _ h =>
    obtain ⟨m, hm, hd⟩ := exists_first.1 ⟨_, h⟩
    exact .targetMember ha hm hd
  | targetBound _ _ _ hu h => exact .targetBound hu ⟨_, h⟩
  | sourcePart hb h =>
    obtain ⟨m, hm, hd⟩ := exists_first.1 ⟨_, h⟩
    exact .sourcePart hb hm hd
  | targetParts ha ham h => exact .targetParts ⟨ha, ham⟩ (exists_each.1 ⟨_, h⟩)
  | single ha hb ham hbm h =>
    cases h with
    | targetInfer h => exact .targetInfer ⟨ha, ham⟩ (exists_takes.1 ⟨_, h⟩)
    | sourceInfer hn h => exact .sourceInfer ⟨hb, hbm⟩ hn (exists_takes.1 ⟨_, h⟩)
    | bound hn hu h => exact .bound ⟨hb, hbm⟩ hn hu ⟨_, h⟩
    | structural h => exact .structural ⟨ha, ham⟩ (matches_of_structural h)

theorem lone_of_upperBound? {u : Ty} (h : upperBound? a = some u) : Lone a := by
  constructor <;> rintro ms rfl <;> cases h

theorem lone_of_matches {A : Ty → Ty → Prop} (h : Matches A a b) : Lone b := by
  constructor <;> rintro ms rfl <;> cases h

theorem exists_rule : (∃ cs, Rule D a b cs) ↔ Permits (Derivable D) a b := by
  refine ⟨fun ⟨_, h⟩ => permits_of_rule h, fun h => ?_⟩
  have union : ∀ {members}, (∀ ms, a ≠ .union ms) →
      (SplitBoolean a members ∨ (∃ m ∈ members, Derivable D a m) ∨
        ∃ u, upperBound? a = some u ∧ Derivable D u (.union members)) → ∃ cs, Rule D a (.union members) cs := by
    intro members ha h
    by_cases hs : SplitBoolean a members
    · exact ⟨_, .splitBoolean hs⟩
    · by_cases hm : ∃ m ∈ members, Derivable D a m
      · obtain ⟨_, hf⟩ := exists_first.2 hm
        exact ⟨_, .targetMember ha hs hf⟩
      · obtain ⟨u, hu, _, hd⟩ := (h.resolve_left hs).resolve_left hm
        exact ⟨_, .targetBound ha hs (fun m hm' hd => hm ⟨m, hm', hd⟩) hu hd⟩
  cases h with
  | sourceMembers h =>
    obtain ⟨_, h⟩ := exists_each.2 h
    exact ⟨_, .sourceMembers h⟩
  | splitBoolean h => exact ⟨_, .splitBoolean h⟩
  | targetMember ha hm h => exact union ha (.inr (.inl ⟨_, hm, h⟩))
  | targetBound hu h => exact union (lone_of_upperBound? hu).1 (.inr (.inr ⟨_, hu, h⟩))
  | sourcePart hb hm h =>
    obtain ⟨_, h⟩ := (exists_first (E := fun m => D m b)).2 ⟨_, hm, h⟩
    exact ⟨_, .sourcePart hb h⟩
  | targetParts ha h =>
    obtain ⟨_, h⟩ := exists_each.2 h
    exact ⟨_, .targetParts ha.1 ha.2 h⟩
  | targetInfer ha h =>
    obtain ⟨_, h⟩ := exists_takes.2 h
    exact ⟨_, .single ha.1 nofun ha.2 nofun (.targetInfer h)⟩
  | sourceInfer hb hn h =>
    obtain ⟨_, h⟩ := exists_takes.2 h
    exact ⟨_, .single nofun hb.1 nofun hb.2 (.sourceInfer hn h)⟩
  | bound hb hn hu h =>
    obtain ⟨_, h⟩ := h
    have ha := lone_of_upperBound? hu
    exact ⟨_, .single ha.1 hb.1 ha.2 hb.2 (.bound hn hu h)⟩
  | structural ha h =>
    obtain ⟨_, h⟩ := exists_structural.2 h
    have hb := lone_of_matches ‹_›
    exact ⟨_, .single ha.1 hb.1 ha.2 hb.2 (.structural h)⟩

end Derivations

/-- The answer for two types is yes at once or by a rule. -/
theorem accepts_iff_permits {a b : Ty} (ha : a.isAbsent = false) (hb : b.isAbsent = false) :
    accepts a b = true ↔ evident ⟨0, false⟩ a b = true ∨ Permits (accepts · · = true) a b := by
  let D : Derivation := fun x y cs => accepts x y = true ∧ cs = []
  have same : Derivable D = (accepts · · = true) := by
    funext x y
    exact propext ⟨fun ⟨_, h, _⟩ => h, fun h => ⟨[], h, rfl⟩⟩
  have derived := @Derived.rule (fun x y => pure (accepts x y)) D (fun x y => .answer fun _ => Iff.rfl) ⟨0, false⟩ a b
  rw [accepts_eq_check ha hb, ← same, ← exists_rule]
  constructor
  · intro h
    obtain ⟨cs, hs⟩ := derived.complete {} h
    cases hs with
    | evident he => exact .inl he
    | rule _ hr => exact .inr ⟨_, hr⟩
  · rintro (he | ⟨cs, hr⟩)
    · exact (derived.sound _ (.evident he) {}).1
    · cases he : evident ⟨0, false⟩ a b with
      | true => exact (derived.sound _ (.evident he) {}).1
      | false => exact (derived.sound _ (.rule he hr) {}).1

theorem evident_iff {o : Options} (ho : o.anyFits = false) {a b : Ty} :
    evident o a b = true ↔ a = .never ∨ b = .any ∨ b = .unknown ∨ a.identical b = true := by
  have never : a.isNever = true ↔ a = .never := by cases a <;> simp [Ty.isNever]
  have any : b.isAny = true ↔ b = .any := by cases b <;> simp [Ty.isAny]
  have unknown : b.isUnknown = true ↔ b = .unknown := by cases b <;> simp [Ty.isUnknown]
  simp only [evident, ho, Bool.or_eq_true, Bool.and_false, Bool.false_eq_true, or_false, never, any, unknown, or_assoc]

section Accepts
variable {a b : Ty} (ha : a.isAbsent = false) (hb : b.isAbsent = false)
include ha hb

/-- The answer for two types is yes at once or by a rule. -/
theorem accepts_cases (h : accepts a b = true) :
    a = .never ∨ b = .any ∨ b = .unknown ∨ a.identical b = true ∨ Permits (accepts · · = true) a b := by
  have := (accepts_iff_permits ha hb).1 h
  rwa [evident_iff rfl, or_assoc, or_assoc, or_assoc] at this

theorem accepts_of_permits (h : Permits (accepts · · = true) a b) : accepts a b = true :=
  (accepts_iff_permits ha hb).2 (.inr h)

theorem accepts_at_once (h : a = .never ∨ b = .any ∨ b = .unknown ∨ a.identical b = true) : accepts a b = true :=
  (accepts_iff_permits ha hb).2 (.inl ((evident_iff rfl).2 h))

end Accepts

theorem exists_identical_member {ms : List Ty} {c m : Ty} (h : (Ty.union ms).identical c = true) (hm : m ∈ ms) :
    ∃ ns, c = .union ns ∧ ∃ n ∈ ns, m.identical n = true := by
  have same := (Ty.identical_iff _ _).1 h
  cases c with
  | union ns =>
    simp only [Ty.erased, Ty.annotated, Ty.annotatedAll_eq, Ty.union.injEq] at same
    obtain ⟨n, hn, he⟩ := List.mem_map.1 (same ▸ List.mem_map_of_mem hm)
    exact ⟨ns, rfl, n, hn, (Ty.identical_iff m n).2 he.symm⟩
  | _ => cases same

/-- What a union is assignable to, its members are assignable to. -/
theorem accepts_member {ms : List Ty} {c m : Ty} (h : accepts (.union ms) c = true) (hm : m ∈ ms) (hp : m.isAbsent = false)
    (flat : ∀ ns, m ≠ .union ns) : accepts m c = true := by
  have hc := (present_of_accepts h).2
  rcases accepts_cases rfl hc h with h | he | he | he | hr
  · cases h
  · exact accepts_at_once hp hc (.inr (.inl he))
  · exact accepts_at_once hp hc (.inr (.inr (.inl he)))
  · obtain ⟨ns, rfl, n, hn, hi⟩ := exists_identical_member he hm
    have erased : ∀ t : Ty, t.erased.isAbsent = t.isAbsent := fun t => by cases t <;> rfl
    have hpn : n.isAbsent = false := by rw [← erased, ← (Ty.identical_iff m n).1 hi, erased, hp]
    refine accepts_of_permits hp hc (.targetMember flat hn ?_)
    exact accepts_at_once hp hpn (.inr (.inr (.inr hi)))
  · cases hr with
    | sourceMembers h => exact h m hm
    | splitBoolean hs => cases hs.1
    | targetMember hn => exact absurd rfl (hn ms)
    | targetBound hu => cases hu
    | targetParts hl | targetInfer hl | structural hl => exact absurd rfl (hl.1 ms)
    | bound _ _ hu => cases hu

end TypeCalculus.Assignable

import TypeCalculus.Proofs.Assignable.Verdict
import TypeCalculus.Proofs.Ty.Annotated
import TypeCalculus.Proofs.Ty.NormalForm

/-! The first-order types, without parameters, placeholders, operators, intersections and templates, and the rules by
    which they are assignable to each other: a union is assignable member by member, something else is assignable to a
    union as to one of its members, and all other pairs follow `Conforms`. -/

namespace TypeCalculus
open Ty

/-! ### The fragment -/

/-- A node of a first-order type. Literals are those of a base type that has literals. -/
def Ty.isFirstOrder : Ty → Bool
  | any | unknown | void | never | prim _ | array .. | tuple _ | union _ | reference .. | function .. => true
  | literal .boolean text => text = "true" || text = "false"
  | literal .null _ | literal .undefined _ => false
  | literal .. => true
  | object props index => index.isNone && props.all fun p => !p.optional
  | _ => false

structure FirstOrder (t : Ty) : Prop where
  normal : Normal t
  nodes : Throughout parts (fun u => u.isFirstOrder = true) t

/-- Every literal that is read from a text belongs to the fragment. -/
theorem firstOrder_of_readLiteral {base : Prim} {text : String} {t : Ty} (h : readLiteral base text = .ok t) :
    FirstOrder t := by
  have leaf : ∀ base text, (literal base text).isFirstOrder = true → FirstOrder (literal base text) :=
    fun base text hn => ⟨normal_literal base text, hn, nofun⟩
  unfold readLiteral at h
  split at h
  · cases h
    exact leaf _ _ rfl
  · split at h
    · split at h
      · cases h
        exact leaf _ _ rfl
      · cases h
    · cases h
  · split at h
    · rename_i b _
      cases h
      exact leaf _ _ (by cases b <;> rfl)
    · cases h
  · split at h
    · cases h
      exact leaf _ _ rfl
    · cases h
  · split at h
    · cases h
    · cases h
      exact leaf _ _ rfl
  · cases h
  · cases h

namespace FirstOrder
variable {t u a b : Ty}

theorem node (h : FirstOrder t) : t.isFirstOrder = true := h.nodes.node

theorem part (h : FirstOrder t) (hu : u ∈ t.parts) : FirstOrder u := by
  refine ⟨?_, h.nodes.under hu⟩
  cases t with
  | param => cases hu
  | _ => exact h.normal.child hu

theorem present (h : FirstOrder t) : t.isAbsent = false := by
  have := h.node
  cases t <;> first | rfl | cases this

/-- Without parameters there are no annotations for the identity of types to leave out. -/
theorem eq_of_identical (ha : FirstOrder a) (hb : FirstOrder b) (h : a.identical b = true) : a = b := by
  have plain : ∀ {t}, FirstOrder t → t.AnnotatedBy bare := by
    refine fun ht => annotated_self bare (ht.nodes.imp ?_)
    rintro u hu name constraint default rfl
    cases hu
  exact (plain ha).eq_of_identical (plain hb) h

theorem member {ms : List Ty} (h : FirstOrder (union ms)) (hu : u ∈ ms) : FirstOrder u := h.part hu

theorem unionForm {ms : List Ty} (h : FirstOrder (union ms)) : UnionForm ms := h.normal.form

theorem leaf (hn : t.isFirstOrder = true) (hform : NodeForm t) (hc : t.children = []) (hp : t.parts = []) :
    FirstOrder t :=
  ⟨.leaf hform hc, hn, fun u hu => by rw [hp] at hu; cases hu⟩

theorem boolean : FirstOrder Ty.boolean := .leaf rfl trivial rfl rfl

theorem number : FirstOrder Ty.number := .leaf rfl trivial rfl rfl

theorem boolLit (v : Bool) : FirstOrder (Ty.boolLit v) := .leaf (by cases v <;> rfl) trivial rfl rfl

theorem natLit (n : Nat) : FirstOrder (Ty.natLit n) := .leaf rfl trivial rfl rfl

theorem boolean_literal {text : String} (h : FirstOrder (literal .boolean text)) : ∃ v, literal .boolean text = Ty.boolLit v := by
  have := h.node
  simp only [isFirstOrder, Bool.or_eq_true, decide_eq_true_eq] at this
  rcases this with rfl | rfl
  · exact ⟨true, rfl⟩
  · exact ⟨false, rfl⟩

theorem object {props : List (Property Ty)} {index : Option (IndexSignature Ty)} (h : FirstOrder (object props index)) :
    index = none ∧ (∀ p ∈ props, p.optional = false ∧ FirstOrder p.type) ∧ Shape.Ascending props := by
  have node := h.node
  simp only [isFirstOrder, Bool.and_eq_true, Option.isNone_iff_eq_none, List.all_eq_true, Bool.not_eq_true'] at node
  exact ⟨node.1, fun p hp => ⟨node.2 p hp, h.part (List.mem_append_left _ (List.mem_map_of_mem hp))⟩, h.normal.form⟩

end FirstOrder

namespace Assignable
variable {a b : Ty}

/-! ### Answers at once -/

/-- The answer is yes before any parts are compared. -/
def Immediate (a b : Ty) : Prop := a = never ∨ b = any ∨ b = unknown ∨ a = b

theorem immediate_iff (ha : FirstOrder a) (hb : FirstOrder b) : Immediate a b ↔
    (a.isNever || b.isAny || b.isUnknown || (a.isAny && (Options.mk 0 false).anyFits) || a.identical b) = true := by
  have never : a.isNever = true ↔ a = never := by cases a <;> simp [isNever]
  have any : b.isAny = true ↔ b = any := by cases b <;> simp [isAny]
  have unknown : b.isUnknown = true ↔ b = unknown := by cases b <;> simp [isUnknown]
  have same : a.identical b = true ↔ a = b := ⟨ha.eq_of_identical hb, fun h => h ▸ identical_refl a⟩
  simp only [Immediate, Bool.or_eq_true, Bool.and_false, Bool.false_eq_true, or_false, never, any, unknown, same, or_assoc]

theorem accepts_of_immediate (ha : FirstOrder a) (hb : FirstOrder b) (h : Immediate a b) : accepts a b = true := by
  rw [accepts_eq_check ha.present hb.present]
  unfold check
  rw [if_pos ((immediate_iff ha hb).1 h)]
  rfl

theorem accepts_refl (ha : FirstOrder a) : accepts a a = true :=
  accepts_of_immediate ha ha (Or.inr (Or.inr (Or.inr rfl)))

/-! ### Unions -/

def isUnion : Ty → Bool
  | .union _ => true
  | _ => false

/-- Comparison with a union over given answers, for a source without an upper bound. -/
theorem checkUnion_pure (f : Ty → Ty → Bool) {a b : Ty} {ms : List Ty} (h : upperBound? a = none) {p : Progress} :
    (checkUnion (fun x y => pure (f x y)) a b ms p).1 = true ↔
      (∃ m ∈ ms, f a m = true) ∨ a = Ty.boolean ∧ hasMember ms (boolLit true) = true ∧ hasMember ms (boolLit false) = true := by
  have answer : ∀ v : Bool, ((pure v : Relating Bool) p).1 = v := fun _ => rfl
  unfold checkUnion checkBound
  rw [first_pure, h, ← List.any_eq_true]
  simp only [pure_bind]
  split
  · cases hasMember ms (boolLit true) <;> cases hasMember ms (boolLit false) <;> cases ms.any (f _) <;>
      simp [answer, Ty.boolean]
  · rename_i hn
    have : a ≠ Ty.boolean := fun h => hn h
    cases ms.any (f a) <;> simp [answer, this]

/-- Something else than a union is assignable to a union as to one of its members, and `boolean` also where both its
    literals are members. -/
theorem accepts_union_right {ms : List Ty} (ha : FirstOrder a) (hb : FirstOrder (union ms)) (hu : isUnion a = false) :
    accepts a (union ms) = true ↔
      (∃ m ∈ ms, accepts a m = true) ∨ a = Ty.boolean ∧ boolLit true ∈ ms ∧ boolLit false ∈ ms := by
  have member : ∀ v, hasMember ms (boolLit v) = true ↔ boolLit v ∈ ms := by
    refine fun v => List.any_eq_true.trans ⟨fun ⟨m, hm, hi⟩ => ?_, fun hm => ⟨_, hm, identical_refl _⟩⟩
    exact (hb.member hm).eq_of_identical (.boolLit v) hi ▸ hm
  by_cases hi : Immediate a (union ms)
  · refine iff_of_true (accepts_of_immediate ha hb hi) ?_
    rcases hi with rfl | h | h | rfl
    · obtain ⟨m, hm⟩ := List.exists_mem_of_length_pos (Nat.lt_of_lt_of_le Nat.two_pos hb.unionForm.two)
      exact Or.inl ⟨m, hm, accepts_of_immediate ha (hb.member hm) (Or.inl rfl)⟩
    · cases h
    · cases h
    · cases hu
  · have unbounded : upperBound? a = none := by
      have := ha.node
      cases a <;> first | rfl | cases this
    have step : accepts a (union ms) = (checkUnion (fun x y => pure (accepts x y)) a (union ms) ms {}).1 := by
      rw [accepts_eq_check ha.present hb.present]
      unfold check
      rw [if_neg (hi ∘ (immediate_iff ha hb).2)]
      cases a <;> first | rfl | cases hu
    rw [step, checkUnion_pure accepts unbounded, member, member]

/-- A union is assignable member by member. -/
theorem accepts_union_left {ms : List Ty} (ha : FirstOrder (union ms)) (hb : FirstOrder b) :
    accepts (union ms) b = true ↔ ∀ m ∈ ms, accepts m b = true := by
  by_cases hi : Immediate (union ms) b
  · refine iff_of_true (accepts_of_immediate ha hb hi) fun m hm => ?_
    rcases hi with h | rfl | rfl | rfl
    · cases h
    · exact accepts_of_immediate (ha.member hm) hb (by simp [Immediate])
    · exact accepts_of_immediate (ha.member hm) hb (by simp [Immediate])
    · have single : isUnion m = false := by
        have := ha.unionForm.single m hm
        cases m <;> first | rfl | cases this
      exact (accepts_union_right (ha.member hm) ha single).2 (Or.inl ⟨m, hm, accepts_refl (ha.member hm)⟩)
  · rw [accepts_eq_check ha.present hb.present]
    unfold check
    rw [if_neg (hi ∘ (immediate_iff ha hb).2)]
    dsimp only
    rw [every_pure]
    exact List.all_eq_true

/-! ### Other pairs -/

/-- Elements at the same position are related. -/
def Pointwise (R : Ty → Ty → Prop) (xs ys : List Ty) : Prop :=
  ∀ (i : Nat) x y, xs[i]? = some x → ys[i]? = some y → R x y

theorem all_zip_iff {f : Ty × Ty → Bool} {xs ys : List Ty} :
    (xs.zip ys).all f = true ↔ Pointwise (fun x y => f (x, y) = true) xs ys := by
  rw [List.all_eq_true]
  constructor
  · intro h i x y hx hy
    exact h (x, y) (List.mem_of_getElem? (List.getElem?_zip_eq_some.2 ⟨hx, hy⟩))
  · rintro h ⟨x, y⟩ hp
    obtain ⟨i, hi⟩ := List.mem_iff_getElem?.1 hp
    obtain ⟨hx, hy⟩ := List.getElem?_zip_eq_some.1 hi
    exact h i x y hx hy

theorem every_iff {α : Type} {f : α → Relating Bool} {P : α → Prop} {xs : List α}
    (h : ∀ x ∈ xs, ∀ p, (f x p).1 = true ↔ P x) (p : Progress) : (every f xs p).1 = true ↔ ∀ x ∈ xs, P x := by
  induction xs generalizing p with
  | nil => exact iff_of_true rfl nofun
  | cons x xs ih =>
    change ((if (f x p).1 then every f xs else pure false : Relating Bool) _).1 = true ↔ _
    rw [List.forall_mem_cons, ← h x List.mem_cons_self p]
    split
    · rename_i hx
      rw [ih fun y hy => h y (List.mem_cons_of_mem _ hy)]
      exact (and_iff_right hx).symm
    · rename_i hx
      exact iff_of_false nofun fun h => hx h.1

/-- A shape has a property that is asked for. -/
def Provides (s : Shape) (want : Property Ty) : Prop :=
  ∃ got, Shape.find? s.props want.key = some got ∧ got.optional = false ∧ (got.readonly = true → want.readonly = true) ∧
    accepts got.type want.type = true

/-- The rules for types that are no unions. -/
inductive Conforms : Ty → Ty → Prop
  | undefined : Conforms Ty.undefined void
  | literal {base : Prim} {text : String} : Conforms (literal base text) (prim base)
  | array {x y : Ty} {readonly readonly' : Bool} : (readonly = true → readonly' = true) → accepts x y = true →
      Conforms (array x readonly) (array y readonly')
  | elements {xs : List Ty} {y : Ty} {readonly : Bool} : accepts (unionOf xs) y = true →
      Conforms (tuple xs) (array y readonly)
  | tuple {xs ys : List Ty} : xs.length = ys.length → Pointwise (accepts · · = true) xs ys →
      Conforms (tuple xs) (tuple ys)
  | reference {name : String} {xs ys : List Ty} : xs.length = ys.length → Pointwise (accepts · · = true) xs ys →
      Conforms (reference name xs) (reference name ys)
  | function {xs ys : List Ty} {x y : Ty} : xs.length ≤ ys.length → Pointwise (fun x y => accepts y x = true) xs ys →
      accepts x y = true → Conforms (function xs x) (function ys y)
  | object {a : Ty} {s : Shape} {props : List (Property Ty)} : apparentShape? a = some s →
      (∀ want ∈ props, Provides s want) → Conforms a (object props none)

theorem propFits_pure {s : Shape} {want : Property Ty} (h : want.optional = false) {p : Progress} :
    (propFits (fun x y => pure (accepts x y)) s.props want p).1 = true ↔ Provides s want := by
  have answer : ∀ v : Bool, ((pure v : Relating Bool) p).1 = v := fun _ => rfl
  unfold propFits Provides
  cases hf : Shape.find? s.props want.key with
  | none => simp [answer, h]
  | some got =>
    simp only [h, Option.some.injEq, exists_eq_left']
    cases got.optional <;> cases got.readonly <;> cases want.readonly <;> simp [answer]

/-- Comparison of shapes over given answers, for a target whose properties are required. -/
theorem shapeFits_pure {s : Shape} {props : List (Property Ty)} (h : ∀ want ∈ props, want.optional = false) {p : Progress} :
    (shapeFits (fun x y => pure (accepts x y)) s ⟨props, none⟩ p).1 = true ↔ ∀ want ∈ props, Provides s want := by
  have all := @every_iff _ (propFits (fun x y => pure (accepts x y)) s.props) (Provides s) props
    (fun want hw p => propFits_pure (h want hw)) p
  rw [← all]
  unfold shapeFits
  change ((if !(every _ props p).1 then pure false else pure true : Relating Bool) _).1 = true ↔ _
  cases (every (propFits (fun x y => pure (accepts x y)) s.props) props p).1
  · exact iff_of_false nofun nofun
  · exact iff_of_true rfl rfl

/-! Comparison by the variant of the target, over given answers. -/

section Target
variable {p : Progress}

theorem array_iff {y : Ty} {readonly' : Bool} :
    (checkStructure (fun x y => pure (accepts x y)) a (.array y readonly') p).1 = true ↔ Conforms a (.array y readonly') := by
  cases a with
  | array x readonly =>
    have answer : ∀ v : Bool, ((pure v : Relating Bool) p).1 = v := fun _ => rfl
    have inverse : Conforms (.array x readonly) (.array y readonly') ↔
        (readonly = true → readonly' = true) ∧ accepts x y = true :=
      ⟨fun h => by cases h with | array hr h => exact ⟨hr, h⟩, fun h => .array h.1 h.2⟩
    rw [inverse, checkStructure]
    cases readonly <;> cases readonly' <;> simp [answer]
  | tuple => exact ⟨.elements, fun h => by cases h with | elements h => exact h⟩
  | _ => exact iff_of_false nofun nofun

theorem tuple_iff {ys : List Ty} :
    (checkStructure (fun x y => pure (accepts x y)) a (.tuple ys) p).1 = true ↔ Conforms a (.tuple ys) := by
  cases a with
  | tuple xs =>
    rw [checkStructure]
    by_cases hl : xs.length = ys.length
    · rw [if_pos hl, every_pure fun p : Ty × Ty => accepts p.1 p.2]
      refine all_zip_iff.trans ⟨.tuple hl, fun h => ?_⟩
      cases h with
      | tuple _ h => exact h
    · rw [if_neg hl]
      exact iff_of_false nofun fun h => by cases h with | tuple h => exact hl h
  | _ => exact iff_of_false nofun nofun

theorem reference_iff {m : String} {ys : List Ty} :
    (checkStructure (fun x y => pure (accepts x y)) a (.reference m ys) p).1 = true ↔ Conforms a (.reference m ys) := by
  cases a with
  | reference n xs =>
    rw [checkStructure]
    by_cases hl : n = m ∧ xs.length = ys.length
    · obtain ⟨rfl, hl⟩ := hl
      rw [if_pos (by simp [hl]), every_pure fun p : Ty × Ty => accepts p.1 p.2]
      refine all_zip_iff.trans ⟨.reference hl, fun h => ?_⟩
      cases h with
      | reference _ h => exact h
    · rw [if_neg (by simpa using hl)]
      exact iff_of_false nofun fun h => by cases h with | reference h => exact hl ⟨rfl, h⟩
  | _ => exact iff_of_false nofun nofun

theorem function_iff {ys : List Ty} {y : Ty} :
    (checkStructure (fun x y => pure (accepts x y)) a (.function ys y) p).1 = true ↔ Conforms a (.function ys y) := by
  cases a with
  | function xs x =>
    rw [checkStructure]
    by_cases hl : xs.length > ys.length
    · rw [if_pos hl]
      exact iff_of_false nofun fun h => by cases h with | function h => omega
    · have inverse : Conforms (.function xs x) (.function ys y) ↔
          Pointwise (fun x y => accepts y x = true) xs ys ∧ accepts x y = true :=
        ⟨fun h => by cases h with | function _ hp h => exact ⟨hp, h⟩, fun h => .function (Nat.le_of_not_lt hl) h.1 h.2⟩
      rw [if_neg hl, every_pure fun p : Ty × Ty => accepts p.2 p.1, inverse, ← all_zip_iff (f := fun p => accepts p.2 p.1)]
      cases (xs.zip ys).all fun p : Ty × Ty => accepts p.2 p.1
      · exact iff_of_false nofun nofun
      · exact (and_iff_right rfl).symm
  | _ => exact iff_of_false nofun nofun

theorem object_iff {props : List (Property Ty)} (hb : FirstOrder (.object props none)) :
    (checkStructure (fun x y => pure (accepts x y)) a (.object props none) p).1 = true ↔ Conforms a (.object props none) := by
  rw [checkStructure]
  cases hs : apparentShape? a with
  | some s =>
    dsimp only
    rw [shapeFits_pure fun want hw => (hb.object.2.1 want hw).1]
    refine ⟨.object hs, ?_⟩
    rintro (_ | _ | _ | _ | _ | _ | _ | ⟨hs', h⟩)
    cases hs.symm.trans hs'
    exact h
  | none =>
    refine iff_of_false nofun ?_
    rintro (_ | _ | _ | _ | _ | _ | _ | ⟨hs', -⟩)
    cases hs.symm.trans hs'

end Target

theorem checkStructure_iff (ha : FirstOrder a) (hb : FirstOrder b) {p : Progress} :
    (checkStructure (fun x y => pure (accepts x y)) a b p).1 = true ↔ Conforms a b := by
  cases b with
  | void =>
    unfold checkStructure
    dsimp only
    split
    · exact iff_of_true rfl .undefined
    · rename_i hu
      refine iff_of_false nofun ?_
      rintro ⟨⟩
      exact hu rfl
  | prim q =>
    cases a with
    | literal base text =>
      refine decide_eq_true_iff.trans ⟨?_, fun h => by cases h; rfl⟩
      rintro rfl
      exact .literal
    | template | mapping => cases ha.node
    | _ => exact iff_of_false nofun nofun
  | template | mapping => cases hb.node
  | object props index =>
    obtain ⟨rfl, -⟩ := hb.object
    exact object_iff hb
  | array => exact array_iff
  | tuple => exact tuple_iff
  | reference => exact reference_iff
  | function => exact function_iff
  | _ => exact iff_of_false nofun nofun

/-- Two types that are no unions follow the rules, unless the answer is yes at once. -/
theorem accepts_iff_conforms (ha : FirstOrder a) (hb : FirstOrder b) (hua : isUnion a = false) (hub : isUnion b = false) :
    accepts a b = true ↔ Immediate a b ∨ Conforms a b := by
  by_cases hi : Immediate a b
  · exact iff_of_true (accepts_of_immediate ha hb hi) (Or.inl hi)
  · have step : accepts a b = (checkSingle (fun x y => pure (accepts x y)) a b {}).1 := by
      have nodes := And.intro ha.node hb.node
      rw [accepts_eq_check ha.present hb.present]
      unfold check
      rw [if_neg (hi ∘ (immediate_iff ha hb).2)]
      split
      · cases hua
      · cases hub
      · cases nodes.1
      · cases nodes.2
      · rfl
    rw [step, or_iff_right hi]
    unfold checkSingle
    split
    · cases hb.node
    · split
      · cases ha.node
      · exact iff_of_false nofun fun h => by cases h with | object hs => cases hs
      · exact iff_of_false nofun fun h => by cases h with | object hs => cases hs
      · exact iff_of_false nofun fun h => by cases h with | object hs => cases hs
      · exact absurd (Or.inl rfl) hi
      · cases ha.node
      · cases ha.node
      · cases ha.node
      · exact checkStructure_iff ha hb

end Assignable
end TypeCalculus

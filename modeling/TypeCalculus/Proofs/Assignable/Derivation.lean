import TypeCalculus.Proofs.Assignable.Captures
import TypeCalculus.Proofs.Ty.Inherited

/-! The derivations of a comparison. A derivation fixes the first alternative that succeeds wherever the comparison may
    choose, and has the captures of the alternatives it fixes, in their order, and none of those tried before. -/

namespace TypeCalculus.Assignable
open Ty (holes)

/-! ### Captures -/

/-- A placeholder takes a type. -/
structure Capture where
  name : String
  constraint : Ty
  type : Ty

/-- The captures after one more; those of one name are united. -/
def Capture.record (captures : Subst) (c : Capture) : Subst :=
  captures.insert c.name <|
    match captures.find? c.name with
    | some previous => Ty.unionOf [previous, c.type]
    | none => c.type

/-- The captures after some more, one after the other. -/
def replay (cs : List Capture) (captures : Subst) : Subst := cs.foldl Capture.record captures

/-- Which pairs of types have a derivation with which captures. -/
abbrev Derivation := Ty → Ty → List Capture → Prop

/-! ### Choices and sequences -/

/-- Derivations of all elements, in their order. -/
inductive Each {α : Type} (E : α → List Capture → Prop) : List α → List Capture → Prop
  | nil : Each E [] []
  | cons {x xs cs ds} : E x cs → Each E xs ds → Each E (x :: xs) (cs ++ ds)

/-- A derivation of the first element that has one. -/
inductive First {α : Type} (E : α → List Capture → Prop) : List α → List Capture → Prop
  | here {x xs cs} : E x cs → First E (x :: xs) cs
  | later {x xs cs} : (¬∃ ds, E x ds) → First E xs cs → First E (x :: xs) cs

section Choices
variable {α : Type} {E : α → List Capture → Prop} {x : α} {xs : List α} {cs : List Capture}

theorem each_nil : Each E [] cs ↔ cs = [] :=
  ⟨fun h => by cases h; rfl, fun h => h ▸ .nil⟩

theorem each_cons : Each E (x :: xs) cs ↔ ∃ ds es, E x ds ∧ Each E xs es ∧ cs = ds ++ es :=
  ⟨fun h => by cases h with | cons hx hxs => exact ⟨_, _, hx, hxs, rfl⟩, fun ⟨_, _, hx, hxs, he⟩ => he ▸ .cons hx hxs⟩

theorem first_nil : ¬First E [] cs := nofun

theorem first_cons : First E (x :: xs) cs ↔ E x cs ∨ (¬∃ ds, E x ds) ∧ First E xs cs := by
  constructor
  · rintro (h | ⟨hn, h⟩)
    · exact .inl h
    · exact .inr ⟨hn, h⟩
  · rintro (h | ⟨hn, h⟩)
    · exact .here h
    · exact .later hn h

/-- All elements have derivations. -/
theorem exists_each : (∃ cs, Each E xs cs) ↔ ∀ x ∈ xs, ∃ cs, E x cs := by
  induction xs with
  | nil => exact iff_of_true ⟨[], .nil⟩ nofun
  | cons x xs ih =>
    rw [List.forall_mem_cons, ← ih]
    constructor
    · rintro ⟨_, hx | ⟨hx, hxs⟩⟩
      exact ⟨⟨_, hx⟩, _, hxs⟩
    · rintro ⟨⟨_, hx⟩, _, hxs⟩
      exact ⟨_, .cons hx hxs⟩

theorem Each.mem (h : Each E xs cs) (hx : x ∈ xs) : ∃ ds, E x ds ∧ ∀ c ∈ ds, c ∈ cs := by
  induction h with
  | nil => cases hx
  | cons h _ ih =>
    rcases List.mem_cons.1 hx with rfl | hx
    · exact ⟨_, h, fun c hc => List.mem_append_left _ hc⟩
    · obtain ⟨ds, hds, hsub⟩ := ih hx
      exact ⟨ds, hds, fun c hc => List.mem_append_right _ (hsub c hc)⟩

theorem First.mem (h : First E xs cs) : ∃ x ∈ xs, E x cs := by
  induction h with
  | here h => exact ⟨_, List.mem_cons_self, h⟩
  | later _ _ ih =>
    obtain ⟨x, hx, h⟩ := ih
    exact ⟨x, List.mem_cons_of_mem _ hx, h⟩

/-- Some element has a derivation. -/
theorem exists_first : (∃ cs, First E xs cs) ↔ ∃ x ∈ xs, ∃ cs, E x cs := by
  induction xs with
  | nil => exact iff_of_false nofun nofun
  | cons x xs ih =>
    simp only [first_cons, exists_or, exists_and_left, List.mem_cons, exists_eq_or_imp, ih]
    by_cases h : ∃ cs, E x cs <;> simp [h]

end Choices

/-! ### Rules -/

section Rules
variable (D : Derivation)

/-- A placeholder takes a type that its constraint allows. -/
inductive Takes (name : String) : Ty → Ty → List Capture → Prop
  | unconstrained {t} : Takes name .absent t [⟨name, .absent, t⟩]
  | allowed {constraint t cs} : constraint.isAbsent = false → D t constraint cs →
      Takes name constraint t (cs ++ [⟨name, constraint, t⟩])

mutual

/-- The text fills the hole. A union takes the text in its first member that does. -/
def Fills (region : String) : Ty → List Capture → Prop
  | .infer name constraint, cs => Takes D name constraint (captured region constraint) cs
  | .template segments, cs =>
    ∃ pieces regions, Piece.readAll? (Piece.ofSegments segments) = some pieces ∧
      Piece.regions? pieces region.toList = some regions ∧ FillsEach regions segments cs
  | .union members, cs => FillsFirst region members cs
  | t, cs => D (captured region t) t cs
termination_by structural t => t

def FillsFirst (region : String) : List Ty → List Capture → Prop
  | [], _ => False
  | t :: ts, cs => Fills region t cs ∨ (¬∃ ds, Fills region t ds) ∧ FillsFirst region ts cs
termination_by structural ts => ts

/-- Each region fills the hole it was found for. -/
def FillsEach (regions : List String) : List (Segment Ty) → List Capture → Prop
  | [], cs => cs = []
  | .text _ :: rest, cs => FillsEach regions rest cs
  | .hole t :: rest, cs =>
    match regions with
    | [] => False
    | region :: regions => ∃ ds es, Fills region t ds ∧ FillsEach regions rest es ∧ cs = ds ++ es
termination_by structural segments => segments

end

/-- Two templates of the same layout, hole by hole. -/
inductive Aligned : List (Segment Ty) → List (Segment Ty) → List Capture → Prop
  | nil : Aligned [] [] []
  | text {s xs ys cs} : Aligned xs ys cs → Aligned (.text s :: xs) (.text s :: ys) cs
  | hole {x y xs ys cs ds} : D x y cs → Aligned xs ys ds → Aligned (.hole x :: xs) (.hole y :: ys) (cs ++ ds)

/-- The properties of a shape provide one that is asked for. -/
inductive ProvidesProp (source : List (Property Ty)) (want : Property Ty) : List Capture → Prop
  | missing : Shape.find? source want.key = none → want.optional = true → ProvidesProp source want []
  | found {got cs} : Shape.find? source want.key = some got → (got.optional = true → want.optional = true) →
      (got.readonly = true → want.readonly = true) → D got.type want.type cs → ProvidesProp source want cs

/-- The index signature of a shape provides one that is asked for, unless it is for other keys. -/
inductive ProvidesValues (source : Shape) (want : IndexSignature Ty) : List Capture → Prop
  | other : (∀ got, source.index = some got → ¬(got.key = want.key ∨ want.key = .string)) → ProvidesValues source want []
  | same {got cs} : source.index = some got → (got.key = want.key ∨ want.key = .string) → D got.value want.value cs →
      ProvidesValues source want cs

/-- A shape provides the index signature that is asked for, also with the properties under its keys. -/
inductive ProvidesIndex (source : Shape) : Option (IndexSignature Ty) → List Capture → Prop
  | none : ProvidesIndex source .none []
  | some {want cs ds} : Each (fun p => D p.type want.value) (source.props.filter fun p => want.covers p.key) cs →
      ProvidesValues D source want ds → ProvidesIndex source (.some want) (cs ++ ds)

/-- The rules for types that are neither unions, intersections, placeholders nor open. -/
inductive Structural : Ty → Ty → List Capture → Prop
  | undefined : Structural .undefined .void []
  | literal {base text} : Structural (.literal base text) (.prim base) []
  | template {segments} : Structural (.template segments) .string []
  | mapping {op arg} : Structural (.mapping op arg) .string []
  | filled {text segments cs} : Fills D text (.template segments) cs →
      Structural (.literal .string text) (.template segments) cs
  | aligned {source target cs} : source.length = target.length → Aligned D source target cs →
      Structural (.template source) (.template target) cs
  | peeled {source target single rest cs} : (source.length = target.length → ¬∃ ds, Aligned D source target ds) →
      Ty.singleHole? target = some single → peeled? source single = some rest →
      D (Ty.templateOf rest) single.hole cs → Structural (.template source) (.template target) cs
  | mapped {text op arg cs} : op.apply text = text → D (.literal .string text) arg cs →
      Structural (.literal .string text) (.mapping op arg) cs
  | object {a s props index cs ds} : apparentShape? a = some s → Each (ProvidesProp D s.props) props cs →
      ProvidesIndex D s index ds → Structural a (.object props index) (cs ++ ds)
  | array {x y readonly readonly' cs} : (readonly = true → readonly' = true) → D x y cs →
      Structural (.array x readonly) (.array y readonly') cs
  | elements {xs y readonly cs} : D (Ty.unionOf xs) y cs → Structural (.tuple xs) (.array y readonly) cs
  | tuple {xs ys cs} : xs.length = ys.length → Each (fun p : Ty × Ty => D p.1 p.2) (xs.zip ys) cs →
      Structural (.tuple xs) (.tuple ys) cs
  | reference {name xs ys cs} : xs.length = ys.length → Each (fun p : Ty × Ty => D p.1 p.2) (xs.zip ys) cs →
      Structural (.reference name xs) (.reference name ys) cs
  | function {xs ys x y cs ds} : xs.length ≤ ys.length → Each (fun p : Ty × Ty => D p.2 p.1) (xs.zip ys) cs →
      D x y ds → Structural (.function xs x) (.function ys y) (cs ++ ds)

/-- The rules for a source that is no union or intersection and a target that is no union or intersection. -/
inductive Single : Ty → Ty → List Capture → Prop
  | targetInfer {a name constraint cs} : Takes D name constraint a cs → Single a (.infer name constraint) cs
  | sourceInfer {name constraint b cs} : (∀ n c, b ≠ .infer n c) → Takes D name constraint b cs →
      Single (.infer name constraint) b cs
  | bound {a b u cs} : (∀ n c, b ≠ .infer n c) → upperBound? a = some u → D u b cs → Single a b cs
  | structural {a b cs} : Structural D a b cs → Single a b cs

end Rules

/-- The answer is yes before any parts are compared. -/
def evident (o : Options) (a b : Ty) : Bool :=
  a.isNever || b.isAny || b.isUnknown || (a.isAny && o.anyFits) || a.identical b

/-- `boolean` is compared with a union that has both its literals. -/
def SplitBoolean (a : Ty) (members : List Ty) : Prop :=
  a = .boolean ∧ Ty.hasMember members (Ty.boolLit true) = true ∧ Ty.hasMember members (Ty.boolLit false) = true

/-- The rules for types where the answer is not yes at once. -/
inductive Rule (D : Derivation) : Ty → Ty → List Capture → Prop
  | sourceMembers {members b cs} : Each (fun m => D m b) members cs → Rule D (.union members) b cs
  | splitBoolean {a members} : SplitBoolean a members → Rule D a (.union members) []
  | targetMember {a members cs} : (∀ ms, a ≠ .union ms) → ¬SplitBoolean a members → First (D a) members cs →
      Rule D a (.union members) cs
  | targetBound {a members u cs} : (∀ ms, a ≠ .union ms) → ¬SplitBoolean a members → (∀ m ∈ members, ¬∃ ds, D a m ds) →
      upperBound? a = some u → D u (.union members) cs → Rule D a (.union members) cs
  | sourcePart {members b cs} : (∀ ms, b ≠ .union ms) → First (fun m => D m b) members cs →
      Rule D (.intersection members) b cs
  | targetParts {a members cs} : (∀ ms, a ≠ .union ms) → (∀ ms, a ≠ .intersection ms) → Each (D a) members cs →
      Rule D a (.intersection members) cs
  | single {a b cs} : (∀ ms, a ≠ .union ms) → (∀ ms, b ≠ .union ms) → (∀ ms, a ≠ .intersection ms) →
      (∀ ms, b ≠ .intersection ms) → Single D a b cs → Rule D a b cs

/-- One step of a derivation, over the derivations of the pairs it leads to. -/
inductive Step (o : Options) (D : Derivation) (a b : Ty) : List Capture → Prop
  | evident : evident o a b = true → Step o D a b []
  | rule {cs} : evident o a b = false → Rule D a b cs → Step o D a b cs

/-- A derivation of at most the given depth. -/
def Derives (o : Options) : Nat → Derivation
  | 0, _, _, _ => False
  | depth + 1, a, b, cs => a.isAbsent = false ∧ b.isAbsent = false ∧ Step o (Derives o depth) a b cs

/-! ### Where the captures come from -/

/-- A placeholder of the name occurs in the type. -/
inductive Placed (name : String) : Ty → Prop
  | here {constraint} : Placed name (.infer name constraint)
  | inside {t u : Ty} : u ∈ t.children → Placed name u → Placed name t

theorem throughout_iff_placed {N : String → Prop} {t : Ty} :
    Ty.Throughout Ty.children (fun u => ∀ name c, u = .infer name c → N name) t ↔ ∀ name, Placed name t → N name := by
  constructor
  · intro h name hp
    induction hp with
    | here => exact h.node _ _ rfl
    | inside hu _ ih => exact ih (h.under hu)
  · intro h
    induction t using Ty.children_induction with
    | step t ih =>
      refine ⟨?_, fun u hu => ih u hu fun name hp => h name (.inside hu hp)⟩
      rintro name c rfl
      exact h name .here

/-- Comparisons hand on what all nodes have, if nodes of known types have it and unions and intersections where they are
    built. -/
theorem handed_throughout {p : Ty → Prop} (hp : ∀ {t : Ty}, t.isStructural = true → p t)
    (hunion : ∀ {ms : List Ty}, Ty.absent ∉ ms → p (.union ms)) (hmeet : ∀ {ms : List Ty}, Ty.Met ms → p (.intersection ms)) :
    Handed (Ty.Throughout Ty.children p) := by
  have inherited := @Ty.inherited_throughout Ty.children p (fun {t} ht => by cases t <;> first | rfl | cases ht)
    (fun _ => rfl) (fun _ => rfl) hp hunion hmeet
  exact {
    absent := inherited.leaf rfl rfl
    atom := fun {t} ht => by
      cases t with
      | any | unknown | void | never | prim | literal => exact inherited.leaf rfl rfl
      | _ => cases ht
    child := fun h hu => h.under hu
    unionOf := inherited.unionOf
    templateOf := inherited.templateOf }

/-- Comparisons lead to no placeholders but those of their operands. -/
theorem handed_placed (N : String → Prop) : Handed fun t => ∀ name, Placed name t → N name := by
  simp only [← throughout_iff_placed]
  refine handed_throughout (fun {t} ht => ?_) (fun _ => nofun) fun _ => nofun
  rintro name c rfl
  cases ht

section Origin
variable {D : Derivation} {Q : Capture → Prop}

theorem Each.origin {α : Type} {E : α → List Capture → Prop} {xs : List α} {cs : List Capture} (h : Each E xs cs)
    (hE : ∀ x ∈ xs, ∀ ds, E x ds → ∀ c ∈ ds, Q c) : ∀ c ∈ cs, Q c := by
  induction h with
  | nil => nofun
  | cons hx _ ih =>
    exact List.forall_mem_append.2 ⟨hE _ List.mem_cons_self _ hx, ih fun x hx => hE x (List.mem_cons_of_mem _ hx)⟩

theorem First.origin {α : Type} {E : α → List Capture → Prop} {xs : List α} {cs : List Capture} (h : First E xs cs)
    (hE : ∀ x ∈ xs, ∀ ds, E x ds → ∀ c ∈ ds, Q c) : ∀ c ∈ cs, Q c := by
  obtain ⟨x, hx, h⟩ := h.mem
  exact hE x hx _ h

/-- The constraint of a placeholder allows what it takes. -/
def Capture.Allowed (D : Derivation) (c : Capture) : Prop := c.constraint.isAbsent = false → ∃ ds, D c.type c.constraint ds

theorem Takes.origin {name : String} {constraint t : Ty} {cs : List Capture} (h : Takes D name constraint t cs)
    (hD : ∀ ds, D t constraint ds → ∀ c ∈ ds, Q c) (hQ : Capture.Allowed D ⟨name, constraint, t⟩ → Q ⟨name, constraint, t⟩) :
    ∀ c ∈ cs, Q c := by
  cases h with
  | unconstrained => exact List.forall_mem_singleton.2 (hQ fun h => by cases h)
  | allowed _ hd => exact List.forall_mem_append.2 ⟨hD _ hd, List.forall_mem_singleton.2 (hQ fun _ => ⟨_, hd⟩)⟩

mutual

theorem fills_origin {region : String} {cs : List Capture} : (t : Ty) → Fills D region t cs →
    (∀ u region ds, Matched t u → D (captured region u) u ds → ∀ c ∈ ds, Q c) →
    (∀ c, Placed c.name t → c.Allowed D → Q c) → ∀ c ∈ cs, Q c
  | .infer name constraint, h, hD, hQ => by
    rw [Fills] at h
    exact h.origin (fun ds hd => hD _ _ ds .constraint hd) (hQ _ .here)
  | .template segments, h, hD, hQ => by
    rw [Fills] at h
    obtain ⟨_, regions, -, -, h⟩ := h
    exact fillsEach_origin segments h (fun t ht u region ds hu => hD u region ds (.hole ht hu))
      fun t ht c hp => hQ c (.inside ht hp)
  | .union members, h, hD, hQ => by
    rw [Fills] at h
    exact fillsFirst_origin members h (fun t ht u region ds hu => hD u region ds (.member ht hu))
      fun t ht c hp => hQ c (.inside ht hp)
  | .absent, h, hD, _ | .any, h, hD, _ | .unknown, h, hD, _ | .void, h, hD, _ | .never, h, hD, _ | .prim _, h, hD, _
  | .literal .., h, hD, _ | .object .., h, hD, _ | .array .., h, hD, _ | .tuple _, h, hD, _ | .intersection _, h, hD, _
  | .param .., h, hD, _ | .conditional .., h, hD, _ | .reference .., h, hD, _ | .function .., h, hD, _
  | .keyOf _, h, hD, _ | .access .., h, hD, _ | .mapping .., h, hD, _ => hD _ _ _ .self h

theorem fillsFirst_origin {region : String} {cs : List Capture} : (ts : List Ty) → FillsFirst D region ts cs →
    (∀ t ∈ ts, ∀ u region ds, Matched t u → D (captured region u) u ds → ∀ c ∈ ds, Q c) →
    (∀ t ∈ ts, ∀ c : Capture, Placed c.name t → c.Allowed D → Q c) → ∀ c ∈ cs, Q c
  | t :: ts, h, hD, hQ => by
    rcases h with h | ⟨-, h⟩
    · exact fills_origin t h (hD t List.mem_cons_self) (hQ t List.mem_cons_self)
    · exact fillsFirst_origin ts h (fun u hu => hD u (List.mem_cons_of_mem _ hu))
        fun u hu => hQ u (List.mem_cons_of_mem _ hu)

theorem fillsEach_origin {regions : List String} {cs : List Capture} : (segments : List (Segment Ty)) →
    FillsEach D regions segments cs →
    (∀ t ∈ holes segments, ∀ u region ds, Matched t u → D (captured region u) u ds → ∀ c ∈ ds, Q c) →
    (∀ t ∈ holes segments, ∀ c : Capture, Placed c.name t → c.Allowed D → Q c) → ∀ c ∈ cs, Q c
  | [], h, _, _ => by
    rw [show cs = [] from h]
    nofun
  | .text _ :: rest, h, hD, hQ => fillsEach_origin rest h hD hQ
  | .hole t :: rest, h, hD, hQ => by
    cases regions with
    | nil => exact h.elim
    | cons region regions =>
      obtain ⟨ds, es, hd, he, rfl⟩ := h
      refine List.forall_mem_append.2 ⟨fills_origin t hd (hD t List.mem_cons_self) (hQ t List.mem_cons_self), ?_⟩
      exact fillsEach_origin rest he (fun u hu => hD u (List.mem_cons_of_mem _ hu))
        fun u hu => hQ u (List.mem_cons_of_mem _ hu)

end

theorem Aligned.origin {source target : List (Segment Ty)} {cs : List Capture} (h : Aligned D source target cs)
    (hD : ∀ x ∈ holes source, ∀ y ∈ holes target, ∀ ds, D x y ds → ∀ c ∈ ds, Q c) : ∀ c ∈ cs, Q c := by
  induction h with
  | nil => nofun
  | text _ ih => exact ih hD
  | hole hxy _ ih =>
    refine List.forall_mem_append.2 ⟨hD _ List.mem_cons_self _ List.mem_cons_self _ hxy, ih fun u hu v hv => ?_⟩
    exact hD u (List.mem_cons_of_mem _ hu) v (List.mem_cons_of_mem _ hv)

section Operands
variable {a b : Ty} {cs : List Capture} (hD : ∀ x y, Compares a b x y → ∀ ds, D x y ds → ∀ c ∈ ds, Q c)
include hD

theorem Structural.origin (hQ : ∀ c, Placed c.name b → c.Allowed D → Q c) (h : Structural D a b cs) : ∀ c ∈ cs, Q c := by
  cases h with
  | undefined | literal | template | mapping => nofun
  | filled h =>
    rw [Fills] at h
    obtain ⟨_, regions, -, -, h⟩ := h
    exact fillsEach_origin _ h (fun t ht u region ds hu => hD _ _ (.hole ht hu) ds) fun t ht c hp => hQ c (.inside ht hp)
  | aligned _ h => exact h.origin fun x hx y hy => hD x y (.aligned hx hy)
  | peeled _ hs hr h => exact hD _ _ (.peeled hs hr) _ h
  | mapped _ h => exact hD _ _ .mapping _ h
  | @object a s props index _ _ hs hprops hindex =>
    refine List.forall_mem_append.2 ⟨hprops.origin fun q hq ds h => ?_, ?_⟩
    · cases h with
      | missing => nofun
      | found hf _ _ h => exact hD _ _ (.prop hs (Shape.mem_of_find? hf) hq) _ h
    · cases hindex with
      | none => nofun
      | some hcovered hvalues =>
        refine List.forall_mem_append.2 ⟨hcovered.origin fun p hp => ?_, ?_⟩
        · exact hD _ _ (.covered hs (List.mem_filter.1 hp).1)
        · cases hvalues with
          | other => nofun
          | same hi _ h => exact hD _ _ (.index hs hi) _ h
  | array _ h => exact hD _ _ .element _ h
  | elements h => exact hD _ _ .elements _ h
  | tuple _ h => exact h.origin fun p hp => hD _ _ (.position (List.of_mem_zip hp).1 (List.of_mem_zip hp).2)
  | reference _ h => exact h.origin fun p hp => hD _ _ (.argument (List.of_mem_zip hp).1 (List.of_mem_zip hp).2)
  | function _ hps h =>
    refine List.forall_mem_append.2 ⟨hps.origin fun p hp => ?_, hD _ _ .result _ h⟩
    exact hD _ _ (.parameter (List.of_mem_zip hp).1 (List.of_mem_zip hp).2)

/-- A capture is one of a pair that the step leads to, or one that a placeholder of the operands allows. -/
theorem Step.origin {o : Options} (hQ : ∀ c, Placed c.name a ∨ Placed c.name b → c.Allowed D → Q c)
    (h : Step o D a b cs) : ∀ c ∈ cs, Q c := by
  cases h with
  | evident => nofun
  | rule _ h =>
    cases h with
    | sourceMembers h => exact h.origin fun m hm => hD m _ (.sourceMember hm)
    | splitBoolean => nofun
    | targetMember _ _ h => exact h.origin fun m hm => hD _ m (.targetMember hm)
    | targetBound _ _ _ hu h => exact hD _ _ (.bound hu) _ h
    | sourcePart _ h => exact h.origin fun m hm => hD m _ (.sourcePart hm)
    | targetParts _ _ h => exact h.origin fun m hm => hD _ m (.targetPart hm)
    | single _ _ _ _ h =>
      cases h with
      | targetInfer h => exact h.origin (hD _ _ .targetInfer) (hQ _ (.inr .here))
      | sourceInfer _ h => exact h.origin (hD _ _ .sourceInfer) (hQ _ (.inl .here))
      | bound _ hu h => exact hD _ _ (.bound hu) _ h
      | structural h => exact h.origin hD fun c hc => hQ c (.inr hc)

end Operands
end Origin

end TypeCalculus.Assignable

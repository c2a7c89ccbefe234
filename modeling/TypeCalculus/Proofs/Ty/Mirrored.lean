import TypeCalculus.Proofs.Ty.Alike
import TypeCalculus.Evaluate.Keys
import TypeCalculus.Ty.Mapped

/-! The constructors and the operators do not look at what is written beside parameters: what they make of annotated
    types is what they make of the types, annotated. Only concrete types are compared when an intersection is built or an
    index is looked up, and these hold no parameters. -/

namespace TypeCalculus.Ty

section Mirrored
variable (α : Annotation)

/-! ### Hashes -/

theorem length_annotatedAll (ts : List Ty) : (annotatedAll α ts).length = ts.length := by
  rw [annotatedAll_eq, List.length_map]

theorem length_annotatedSegments (xs : List (Segment Ty)) : (annotatedSegments α xs).length = xs.length := by
  induction xs with
  | nil => rfl
  | cons x xs ih => cases x <;> exact congrArg (· + 1) ih

theorem length_annotatedProps (ps : List (Property Ty)) : (annotatedProps α ps).length = ps.length := by
  induction ps with
  | nil => rfl
  | cons p ps ih => exact congrArg (· + 1) ih

mutual

theorem hash_annotated : (t : Ty) → (t.annotated α).hash = t.hash
  | template xs => by simp only [annotated, hash, length_annotatedSegments, streamSegments_annotated xs]
  | object ps i => by
    simp only [annotated, hash, length_annotatedProps, streamProps_annotated ps, streamIndex_annotated i]
  | tuple xs | union xs | intersection xs | reference _ xs => by
    simp only [annotated, hash, length_annotatedAll, streamAll_annotated xs]
  | array x _ | infer _ x | keyOf x | mapping _ x => by simp only [annotated, hash, hash_annotated x]
  | conditional c b y n _ => by
    simp only [annotated, hash, hash_annotated c, hash_annotated b, hash_annotated y, hash_annotated n]
  | function xs x => by simp only [annotated, hash, length_annotatedAll, streamAll_annotated xs, hash_annotated x]
  | access x i => by simp only [annotated, hash, hash_annotated x, hash_annotated i]
  | absent | any | unknown | void | never | prim _ | literal .. | param .. => by simp only [annotated, hash]

theorem streamAll_annotated : (ts : List Ty) → (s : Bytes) → streamAll s (annotatedAll α ts) = streamAll s ts
  | [], _ => rfl
  | t :: ts, _ => by simp only [annotatedAll, streamAll, hash_annotated t, streamAll_annotated ts]

theorem streamSegments_annotated : (xs : List (Segment Ty)) → (s : Bytes) →
    streamSegments s (annotatedSegments α xs) = streamSegments s xs
  | [], _ => rfl
  | .text _ :: xs, _ => by simp only [annotatedSegments, streamSegments, streamSegments_annotated xs]
  | .hole t :: xs, _ => by
    simp only [annotatedSegments, streamSegments, hash_annotated t, streamSegments_annotated xs]

theorem streamProps_annotated : (ps : List (Property Ty)) → (s : Bytes) →
    streamProps s (annotatedProps α ps) = streamProps s ps
  | [], _ => rfl
  | ⟨_, t, _, _⟩ :: ps, _ => by simp only [annotatedProps, streamProps, hash_annotated t, streamProps_annotated ps]

theorem streamIndex_annotated : (i : Option (IndexSignature Ty)) → (s : Bytes) →
    streamIndex s (annotatedIndex α i) = streamIndex s i
  | none, _ => rfl
  | some ⟨_, t⟩, _ => by simp only [annotatedIndex, streamIndex, hash_annotated t]

end

/-- Identical types have one hash. -/
theorem hash_of_identical {a b : Ty} (h : a.identical b = true) : a.hash = b.hash :=
  congr_of_identical (hash_annotated bare) h

/-! ### Shapes -/

/-- The property with its type annotated. -/
def mirrorProp (p : Property Ty) : Property Ty := { p with type := p.type.annotated α }

def mirrorIndex (i : IndexSignature Ty) : IndexSignature Ty := { i with value := i.value.annotated α }

/-- The shape with its types annotated. -/
def mirrorShape (s : Shape) : Shape := ⟨annotatedProps α s.props, annotatedIndex α s.index⟩

def mirrorSegment : Segment Ty → Segment Ty
  | .text s => .text s
  | .hole t => .hole (t.annotated α)

theorem annotatedSegments_eq (xs : List (Segment Ty)) : annotatedSegments α xs = xs.map (mirrorSegment α) := by
  induction xs with
  | nil => rfl
  | cons x xs ih => cases x <;> exact congrArg (_ :: ·) ih

theorem annotatedProps_eq (ps : List (Property Ty)) : annotatedProps α ps = ps.map (mirrorProp α) := by
  induction ps with
  | nil => rfl
  | cons p ps ih => exact congrArg (mirrorProp α p :: ·) ih

theorem annotatedIndex_eq (i : Option (IndexSignature Ty)) : annotatedIndex α i = i.map (mirrorIndex α) := by
  cases i <;> rfl

theorem ofProps_annotated (ps : List (Property Ty)) (i : Option (IndexSignature Ty)) :
    mirrorShape α (Shape.ofProps ps i) = Shape.ofProps (annotatedProps α ps) (annotatedIndex α i) := by
  have props := Shape.map_ofProps (f := mirrorProp α) (fun _ => rfl) ps i (annotatedIndex α i)
  rw [← annotatedProps_eq, ← annotatedProps_eq] at props
  exact congrArg (Shape.mk · _) props

theorem lowerBound_annotated (ps : List (Property Ty)) (key : String) (low high : Nat) :
    Shape.lowerBound (annotatedProps α ps) key low high = Shape.lowerBound ps key low high := by
  induction low, high using Shape.lowerBound.induct ps key with
  | case1 low high h middle p hp hlt ih =>
    rw [Shape.lowerBound, if_pos h, Shape.lowerBound, if_pos h]
    dsimp only
    rw [annotatedProps_eq, List.getElem?_map, hp, Option.map_some, ← annotatedProps_eq]
    dsimp only [mirrorProp]
    rw [if_pos hlt, if_pos hlt, ih]
  | case2 low high h middle p hp hlt ih =>
    rw [Shape.lowerBound, if_pos h, Shape.lowerBound, if_pos h]
    dsimp only
    rw [annotatedProps_eq, List.getElem?_map, hp, Option.map_some, ← annotatedProps_eq]
    dsimp only [mirrorProp]
    rw [if_neg hlt, if_neg hlt, ih]
  | case3 low high h middle hp ih =>
    rw [Shape.lowerBound, if_pos h, Shape.lowerBound, if_pos h]
    dsimp only
    rw [annotatedProps_eq, List.getElem?_map, hp, Option.map_none, ← annotatedProps_eq, ih]
  | case4 low high h => rw [Shape.lowerBound, if_neg h, Shape.lowerBound, if_neg h]

theorem findProp_annotated (ps : List (Property Ty)) (key : String) :
    Shape.find? (annotatedProps α ps) key = (Shape.find? ps key).map (mirrorProp α) := by
  rw [Shape.find?, length_annotatedProps, lowerBound_annotated, annotatedProps_eq, List.getElem?_map, Option.filter_map]
  rfl

/-! ### Intersections -/

mutual

theorem shapeDepth_annotated : (t : Ty) → (t.annotated α).shapeDepth = t.shapeDepth
  | object ps i => by simp only [annotated, shapeDepth, shapeDepthProps_annotated ps, shapeDepthIndex_annotated i]
  | union ts | intersection ts => by simp only [annotated, shapeDepth, shapeDepthAll_annotated ts]
  | absent | any | unknown | void | never | prim _ | literal .. | template _ | array .. | tuple _ | param .. | infer ..
  | conditional .. | reference .. | function .. | keyOf _ | access .. | mapping .. => by
    simp only [annotated, shapeDepth]

theorem shapeDepthAll_annotated : (ts : List Ty) → shapeDepthAll (annotatedAll α ts) = shapeDepthAll ts
  | [] => rfl
  | t :: ts => by simp only [annotatedAll, shapeDepthAll, shapeDepth_annotated t, shapeDepthAll_annotated ts]

theorem shapeDepthProps_annotated : (ps : List (Property Ty)) → shapeDepthProps (annotatedProps α ps) = shapeDepthProps ps
  | [] => rfl
  | ⟨_, t, _, _⟩ :: ps => by
    simp only [annotatedProps, shapeDepthProps, shapeDepth_annotated t, shapeDepthProps_annotated ps]

theorem shapeDepthIndex_annotated : (i : Option (IndexSignature Ty)) → shapeDepthIndex (annotatedIndex α i) = shapeDepthIndex i
  | none => rfl
  | some ⟨_, t⟩ => by simp only [annotatedIndex, shapeDepthIndex, shapeDepth_annotated t]

end

mutual

theorem meetMembers_annotated : (t : Ty) → (t.annotated α).meetMembers = annotatedAll α t.meetMembers
  | intersection ms => by simp only [annotated, meetMembers, meetMembersAll_annotated ms]
  | absent | any | unknown | void | never | prim _ | literal .. | template _ | object .. | array .. | tuple _
  | union _ | param .. | infer .. | conditional .. | reference .. | function .. | keyOf _ | access ..
  | mapping .. => by simp only [annotated, meetMembers, annotatedAll]

theorem meetMembersAll_annotated : (ts : List Ty) → meetMembersAll (annotatedAll α ts) = annotatedAll α (meetMembersAll ts)
  | [] => rfl
  | t :: ts => by
    rw [annotatedAll, meetMembersAll, meetMembersAll, annotatedAll_append, meetMembers_annotated t,
      meetMembersAll_annotated ts]

end

theorem filter_annotated {p : Ty → Bool} (hp : ∀ t : Ty, p (t.annotated α) = p t) (ts : List Ty) :
    (annotatedAll α ts).filter p = annotatedAll α (ts.filter p) := by
  rw [annotatedAll_eq, annotatedAll_eq, List.filter_map]
  exact congrArg (List.map _ <| ts.filter ·) (funext hp)

theorem knownMembers_annotated (ts : List Ty) : knownMembers (annotatedAll α ts) = annotatedAll α (knownMembers ts) := by
  rw [knownMembers, meetMembersAll_annotated, filter_annotated α fun t => by cases t <;> rfl]
  rfl

theorem splitAtUnion_annotated (ts : List Ty) : splitAtUnion (annotatedAll α ts) =
    (splitAtUnion ts).map fun e => (annotatedAll α e.1, annotatedAll α e.2.1, annotatedAll α e.2.2) := by
  induction ts with
  | nil => rfl
  | cons t ts ih =>
    cases t with
    | union => rfl
    | _ =>
      rw [annotatedAll, annotated, splitAtUnion, ih, splitAtUnion, Option.map_map, Option.map_map]
      · rfl
      all_goals
        intros
        contradiction

/-- A mapping of types that leaves known types as they are and makes no others known. -/
structure KeepsKnown (ψ : Ty → Ty) : Prop where
  concrete : ∀ t, (ψ t).isConcrete = t.isConcrete
  known : ∀ t, t.isConcrete = true → ψ t = t

theorem keepsKnown_annotated : KeepsKnown (annotated α) :=
  ⟨isConcrete_annotated α, fun _ h => annotated_concrete α h⟩

section KeepsKnown
variable {ψ : Ty → Ty} (K : KeepsKnown ψ)
include K

theorem pruneAgainst_map (x : Ty) (ys : List Ty) :
    pruneAgainst (ψ x) (ys.map ψ) = (pruneAgainst x ys).map fun e => (e.1, e.2.map ψ) := by
  induction ys with
  | nil => rfl
  | cons y ys ih =>
    rw [List.map_cons, pruneAgainst, K.concrete, K.concrete, pruneAgainst]
    split
    · rw [ih, Option.map_map, Option.map_map]
      rfl
    · rename_i known
      simp only [Bool.or_eq_true, Bool.not_eq_true', not_or, Bool.not_eq_false] at known
      rw [K.known x known.1] at ih ⊢
      rw [K.known y known.2, ih]
      split
      · rfl
      · split
        · simp only [Option.map_some, List.map_cons, K.known y known.2]
        · split
          · rfl
          · rw [Option.map_map, Option.map_map]
            refine congrArg (Option.map · _) (funext fun e => ?_)
            simp only [Function.comp_apply, List.map_cons, K.known y known.2]

omit K in
theorem prune_cons (x : Ty) (xs : List Ty) : prune (x :: xs) =
    (pruneAgainst x xs).bind fun e => (prune e.2).map fun rest => if e.1 then x :: rest else rest := by
  rw [prune]
  split
  · rename_i h
    rw [h]
    rfl
  · rename_i stays kept h
    rw [h]
    rfl

/-- Only known types are compared, so pruning goes along with the mapping. -/
theorem prune_map (ts : List Ty) : prune (ts.map ψ) = (prune ts).map (List.map ψ) := by
  induction hn : ts.length using Nat.strongRecOn generalizing ts with
  | ind n ih =>
    cases ts with
    | nil =>
      rw [List.map_nil, prune]
      rfl
    | cons x xs =>
      rw [List.map_cons, prune_cons, prune_cons, pruneAgainst_map K]
      cases h : pruneAgainst x xs with
      | none => rfl
      | some e =>
        have shorter := length_pruneAgainst h
        rw [List.length_cons] at hn
        rw [Option.map_some, Option.bind_some, Option.bind_some, ih _ (by omega) e.2 rfl, Option.map_map, Option.map_map]
        refine congrArg (Option.map · _) (funext fun rest => ?_)
        dsimp only [Function.comp_apply]
        split <;> rfl

end KeepsKnown

theorem closeMeet_annotated (ts : List Ty) : (closeMeet ts).annotated α = closeMeet (annotatedAll α ts) := by
  unfold closeMeet
  rw [show distinct [] (annotatedAll α ts) = annotatedAll α (distinct [] ts) from distinct_annotated α [] ts, annotatedAll_eq,
    prune_map (keepsKnown_annotated α)]
  cases prune (distinct [] ts) with
  | none => rfl
  | some kept =>
    cases kept with
    | nil => rfl
    | cons t us =>
      cases us with
      | nil => rfl
      | cons u us =>
        have sorted := sortByText_annotated α (t :: u :: us)
        rw [annotatedAll_eq] at sorted
        exact congrArg intersection sorted.symm

section Merging
variable {meet meet' : List Ty → Ty} (h : ∀ a b : Ty, (meet [a, b]).annotated α = meet' [a.annotated α, b.annotated α])
include h

theorem mergeShapes_annotated (a b : Shape) :
    mirrorShape α (mergeShapes meet a b) = mergeShapes meet' (mirrorShape α a) (mirrorShape α b) := by
  have added : (annotatedProps α b.props).filter (fun q => (Shape.find? (annotatedProps α a.props) q.key).isNone) =
      annotatedProps α (b.props.filter fun q => (Shape.find? a.props q.key).isNone) := by
    rw [annotatedProps_eq α b.props, annotatedProps_eq α (b.props.filter _), List.filter_map]
    refine congrArg (List.map _ <| b.props.filter ·) (funext fun q => ?_)
    dsimp only [Function.comp_apply, mirrorProp]
    rw [findProp_annotated, Option.isNone_map]
  unfold mergeShapes
  dsimp only
  rw [ofProps_annotated]
  dsimp only [mirrorShape]
  rw [added, annotatedProps_eq α (_ ++ _), List.map_append, ← annotatedProps_eq α (List.filter _ _), List.map_map,
    annotatedProps_eq α a.props, List.map_map]
  congr 1
  · congr 1
    refine List.map_congr_left fun p _ => ?_
    dsimp only [Function.comp_apply, mirrorProp]
    rw [findProp_annotated]
    cases Shape.find? b.props p.key with
    | none => rfl
    | some q =>
      dsimp only [Option.map_some, mirrorProp]
      rw [h]
  · cases a.index with
    | none => rfl
    | some i =>
      cases b.index with
      | none => rfl
      | some j =>
        have meets : (mirrorIndex α i).key = (mirrorIndex α j).key ↔ i.key = j.key := Iff.rfl
        rw [annotatedIndex_eq α (some i), annotatedIndex_eq α (some j), Option.map_some, Option.map_some]
        dsimp only
        rw [if_congr meets rfl rfl]
        split
        · exact congrArg (fun t => some (IndexSignature.mk i.key t)) (h i.value j.value)
        · rfl

theorem gatherShapes_annotated (merged : Option Shape) (ts : List Ty) :
    annotatedAll α (gatherShapes meet merged ts) =
      gatherShapes meet' (merged.map (mirrorShape α)) (annotatedAll α ts) := by
  induction ts generalizing merged with
  | nil => cases merged <;> rfl
  | cons t ts ih =>
    cases t with
    | object props index =>
      cases merged with
      | none => exact ih (some ⟨props, index⟩)
      | some shape =>
        have step : gatherShapes meet (some shape) (object props index :: ts) =
            gatherShapes meet (some (mergeShapes meet shape ⟨props, index⟩)) ts := rfl
        rw [step, ih, Option.map_some, mergeShapes_annotated α h]
        rfl
    | _ =>
      rw [gatherShapes, annotatedAll, ih]
      · rfl
      · intro _ _ h
        cases h

end Merging

theorem meetAt_annotated (level : Nat) (ts : List Ty) : (meetAt level ts).annotated α = meetAt level (annotatedAll α ts) := by
  have never_ : ∀ ts : List Ty, (knownMembers (annotatedAll α ts)).any isNever = (knownMembers ts).any isNever := by
    intro ts
    rw [knownMembers_annotated, any_annotated α fun t => by cases t <;> rfl]
  have any_ : ∀ ts : List Ty, (knownMembers (annotatedAll α ts)).any isAny = (knownMembers ts).any isAny := by
    intro ts
    rw [knownMembers_annotated, any_annotated α fun t => by cases t <;> rfl]
  have split : ∀ ts : List Ty, splitAtUnion (knownMembers (annotatedAll α ts)) = (splitAtUnion (knownMembers ts)).map
      fun e => (annotatedAll α e.1, annotatedAll α e.2.1, annotatedAll α e.2.2) := by
    intro ts
    rw [knownMembers_annotated, splitAtUnion_annotated]
  induction level, ts using meetAt.induct with
  | case1 level ts hnever =>
    rw [meetAt.eq_def, if_pos hnever, meetAt.eq_def, if_pos ((never_ ts).trans hnever)]
    rfl
  | case2 level ts hnever hany =>
    rw [meetAt.eq_def, if_neg hnever, if_pos hany, meetAt.eq_def, if_neg ((never_ ts).symm ▸ hnever),
      if_pos ((any_ ts).trans hany)]
    rfl
  | case3 level ts hnever hany before members after hu ih =>
    have hu' := (split ts).trans (congrArg _ hu)
    rw [meetAt_union hnever hany hu, meetAt_union ((never_ ts).symm ▸ hnever) ((any_ ts).symm ▸ hany) hu', unionOf_annotated,
      annotatedAll_eq, annotatedAll_eq α members, List.map_map, List.map_map]
    refine congrArg unionOf (List.map_congr_left fun m hm => ?_)
    dsimp only [Function.comp_apply]
    rw [ih m hm, annotatedAll_append, annotatedAll]
  | case4 ts hnever hany hu =>
    have hu' := (split ts).trans (congrArg _ hu)
    rw [meetAt_zero hnever hany hu, meetAt_zero ((never_ ts).symm ▸ hnever) ((any_ ts).symm ▸ hany) hu', closeMeet_annotated,
      @gatherShapes_annotated α (fun _ => never) (fun _ => never) fun _ _ => rfl, knownMembers_annotated]
    rfl
  | case5 ts hnever hany hu level ih =>
    have hu' := (split ts).trans (congrArg _ hu)
    rw [meetAt_succ hnever hany hu, meetAt_succ ((never_ ts).symm ▸ hnever) ((any_ ts).symm ▸ hany) hu', closeMeet_annotated,
      @gatherShapes_annotated α (meetAt level) (meetAt level) fun a b => ih [a, b], knownMembers_annotated]
    rfl

theorem meetOf_annotated (ts : List Ty) : (meetOf ts).annotated α = meetOf (annotatedAll α ts) := by
  rw [meetOf, meetAt_annotated, meetOf, shapeDepthAll_annotated]

/-! ### Rebuilding -/

theorem isRow_annotated (t : Ty) : (t.annotated α).isRow = t.isRow := by
  cases t <;> rfl

theorem refill_annotated {t : Ty} (ht : t.isRow = true) (hs : t.isShape = false) (us : List Ty) :
    (t.annotated α).refill (us.map (annotated α)) = (t.refill us).annotated α := by
  refine refill_map (F := annotated α) rfl (fun t ht hs => ?_) ht hs us
  cases t with
  | object => cases hs
  | tuple | reference => simp only [annotated, refill, parts, annotatedAll_eq]
  | function => simp [annotated, refill, parts, annotatedAll_eq]
  | array | keyOf | access | mapping => rfl
  | _ => cases ht

/-- The second type is the first one annotated. -/
def Image (t u : Ty) : Prop := u = t.annotated α

end Mirrored
end Ty

/-- What can be said of the results of two steps, each of its own kind, if it is said of the steps that they are composed
    of. -/
structure Kindred (m n : Type → Type) [Monad m] [Monad n] where
  /-- The steps go along with each other, and their results are related. -/
  All : {α β : Type} → (α → β → Prop) → m α → n β → Prop
  pure : ∀ {α β : Type} {R : α → β → Prop} {a : α} {b : β}, R a b → All R (Pure.pure a) (Pure.pure b)
  bind : ∀ {α β γ δ : Type} {R : α → β → Prop} {S : γ → δ → Prop} {x : m α} {y : n β} {f : α → m γ} {g : β → n δ},
    All R x y → (∀ a b, R a b → All S (f a) (g b)) → All S (x >>= f) (y >>= g)

namespace Kindred
open Ty (Image annotatedAll annotatedIndex mirrorSegment mirrorProp)
variable {m n : Type → Type} [Monad m] [Monad n] (L : Kindred m n)

variable (α : Ty.Annotation) {f : Ty → m Ty} {g : Ty → n Ty}

theorem mapHole {s : Segment Ty} (h : ∀ t, s = .hole t → L.All (Image α) (f t) (g (t.annotated α))) :
    L.All (fun x y => y = mirrorSegment α x) (Ty.mapHole f s) (Ty.mapHole g (mirrorSegment α s)) := by
  cases s with
  | text => exact L.pure rfl
  | hole t =>
    refine L.bind (h t rfl) ?_
    rintro u _ rfl
    refine L.pure ?_
    cases u <;> rfl

theorem mapProp {p : Property Ty} (h : L.All (Image α) (f p.type) (g (p.type.annotated α))) :
    L.All (fun x y => y = mirrorProp α x) (Ty.mapProp f p) (Ty.mapProp g (mirrorProp α p)) := by
  refine L.bind h ?_
  rintro u _ rfl
  exact L.pure rfl

theorem mapIndex {i : Option (IndexSignature Ty)} (h : ∀ j, i = some j → L.All (Image α) (f j.value) (g (j.value.annotated α))) :
    L.All (fun x y => y = annotatedIndex α x) (Ty.mapIndex f i) (Ty.mapIndex g (annotatedIndex α i)) := by
  cases i with
  | none => exact L.pure rfl
  | some j =>
    refine L.bind (h j rfl) ?_
    rintro u _ rfl
    exact L.pure rfl

variable [LawfulMonad m] [LawfulMonad n]

theorem mapM {β : Type} {φ : β → β} {f : β → m β} {g : β → n β} {xs : List β}
    (h : ∀ x ∈ xs, L.All (fun y z => z = φ y) (f x) (g (φ x))) :
    L.All (fun ys zs => zs = ys.map φ) (xs.mapM f) ((xs.map φ).mapM g) := by
  induction xs with
  | nil => exact L.pure rfl
  | cons x xs ih =>
    rw [List.map_cons, List.mapM_cons, List.mapM_cons]
    refine L.bind (h x List.mem_cons_self) ?_
    rintro y _ rfl
    refine L.bind (ih fun u hu => h u (List.mem_cons_of_mem _ hu)) ?_
    rintro ys _ rfl
    exact L.pure rfl

theorem mapM_types {ts : List Ty} (h : ∀ t ∈ ts, L.All (Image α) (f t) (g (t.annotated α))) :
    L.All (fun ts us => us = annotatedAll α ts) (ts.mapM f) ((annotatedAll α ts).mapM g) := by
  simp only [Ty.annotatedAll_eq]
  exact L.mapM h

/-- A type is rebuilt from the images of its parts as its image is. -/
theorem rebuild {t : Ty} (h : ∀ u ∈ t.parts, L.All (Image α) (f u) (g (u.annotated α))) :
    L.All (Image α) (t.rebuild f) ((t.annotated α).rebuild g) := by
  have row : Ty.NodeForm t → Ty.NodeForm (t.annotated α) → t.isRow = true → t.isShape = false →
      L.All (Image α) (t.rebuild f) ((t.annotated α).rebuild g) := by
    intro hn hn' hr hs
    rw [Ty.rebuild_row hn hr, Ty.rebuild_row hn' ((Ty.isRow_annotated α t).trans hr), Ty.parts_annotated, map_eq_pure_bind,
      map_eq_pure_bind]
    refine L.bind (L.mapM h) ?_
    rintro us _ rfl
    exact L.pure (Ty.refill_annotated α hr hs us)
  cases t with
  | template segments =>
    rw [Ty.annotated, Ty.annotatedSegments_eq]
    refine L.bind (L.mapM fun s hs => L.mapHole α ?_) ?_
    · rintro t rfl
      exact h t (Ty.mem_holes hs)
    · rintro xs _ rfl
      rw [← Ty.annotatedSegments_eq]
      exact L.pure (Ty.templateOf_annotated α xs).symm
  | object props index =>
    rw [Ty.annotated, Ty.annotatedProps_eq]
    refine L.bind (L.mapM fun p hp => L.mapProp α (h p.type ?_)) ?_
    · exact List.mem_append_left _ (List.mem_map_of_mem hp)
    · rintro ps _ rfl
      refine L.bind (L.mapIndex α ?_) ?_
      · rintro i rfl
        exact h i.value (List.mem_append_right _ List.mem_cons_self)
      · rintro i _ rfl
        rw [← Ty.annotatedProps_eq]
        exact L.pure (congrArg Shape.toTy (Ty.ofProps_annotated α ps i).symm)
  | array | tuple | reference | function | keyOf | access | mapping => exact row trivial trivial rfl rfl
  | union ts =>
    refine L.bind (L.mapM_types α h) ?_
    rintro us _ rfl
    exact L.pure (Ty.unionOf_annotated α us).symm
  | intersection ts =>
    refine L.bind (L.mapM_types α h) ?_
    rintro us _ rfl
    exact L.pure (Ty.meetOf_annotated α us).symm
  | infer name constraint =>
    have missing : (constraint.annotated α).isAbsent = constraint.isAbsent := by cases constraint <;> rfl
    rw [Ty.annotated, Ty.rebuild, Ty.rebuild, missing]
    split
    · exact L.pure rfl
    · rename_i present
      refine L.bind (h constraint ?_) ?_
      · cases constraint with
        | absent => exact absurd rfl present
        | _ => exact List.mem_cons_self
      · rintro u _ rfl
        exact L.pure rfl
  | conditional check bound yes no distribute =>
    refine L.bind (h check (by simp [Ty.parts])) ?_
    rintro c _ rfl
    refine L.bind (h bound (by simp [Ty.parts])) ?_
    rintro b _ rfl
    refine L.bind (h yes (by simp [Ty.parts])) ?_
    rintro y _ rfl
    refine L.bind (h no (by simp [Ty.parts])) ?_
    rintro n _ rfl
    have same : (c.annotated α).isParam = c.isParam := by cases c <;> rfl
    rw [same]
    exact L.pure rfl
  | _ => exact L.pure rfl

end Kindred
end TypeCalculus

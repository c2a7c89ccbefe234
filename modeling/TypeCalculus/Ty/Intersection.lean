import TypeCalculus.Assignable.Relation

/-! Intersections in normal form. `never` absorbs everything, `any` the rest, and `unknown` adds nothing.
    Unions are distributed, object shapes are merged, and of two comparable members the narrower one is
    kept; members that exclude each other make the whole `never`. -/

namespace TypeCalculus.Ty

open Assignable

mutual

/-- The members of a type seen as an intersection. -/
def meetMembers : Ty → List Ty
  | absent => []
  | intersection members => meetMembersAll members
  | t => [t]
termination_by structural t => t

def meetMembersAll : List Ty → List Ty
  | [] => []
  | t :: ts => t.meetMembers ++ meetMembersAll ts
termination_by structural ts => ts

end

mutual

/-- How deep object shapes nest under unions, intersections and shapes. -/
def shapeDepth : Ty → Nat
  | object props index => 1 + max (shapeDepthProps props) (shapeDepthIndex index)
  | union members => shapeDepthAll members
  | intersection members => shapeDepthAll members
  | _ => 0
termination_by structural t => t

def shapeDepthAll : List Ty → Nat
  | [] => 0
  | t :: ts => max t.shapeDepth (shapeDepthAll ts)
termination_by structural ts => ts

def shapeDepthProps : List (Property Ty) → Nat
  | [] => 0
  | ⟨_, type, _, _⟩ :: rest => max type.shapeDepth (shapeDepthProps rest)
termination_by structural props => props

def shapeDepthIndex : Option (IndexSignature Ty) → Nat
  | none => 0
  | some ⟨_, value⟩ => value.shapeDepth
termination_by structural index => index

end

/-- The first union of a list, with what stands before and after it. -/
def splitAtUnion : List Ty → Option (List Ty × List Ty × List Ty)
  | [] => none
  | union members :: ts => some ([], members, ts)
  | t :: ts => (splitAtUnion ts).map fun (before, members, after) => (t :: before, members, after)

/-- Types whose values are never primitive. -/
def isObjectLike : Ty → Bool
  | object .. | array .. | tuple _ | function .. => true
  | _ => false

/-- No value belongs to both types. Asked only of types of which neither is assignable to the other. -/
def isDisjoint (x y : Ty) : Bool :=
  match x.baseOf?, y.baseOf? with
  | some p, some q => p ≠ q || x.isLiteral || y.isLiteral
  | some _, none => y.isObjectLike
  | none, some _ => x.isObjectLike
  | none, none => false

/-- Compares a member with those after it: whether it stays, and which of them stay. Nothing if two
    members exclude each other. Open types are not compared. -/
def pruneAgainst (x : Ty) : List Ty → Option (Bool × List Ty)
  | [] => some (true, [])
  | y :: ys =>
    if !x.isConcrete || !y.isConcrete then
      (pruneAgainst x ys).map fun (stays, kept) => (stays, y :: kept)
    else if assignable x y then pruneAgainst x ys
    else if assignable y x then some (false, y :: ys)
    else if isDisjoint x y then none
    else (pruneAgainst x ys).map fun (stays, kept) => (stays, y :: kept)

theorem length_pruneAgainst {x : Ty} {ys kept : List Ty} {stays : Bool}
    (h : pruneAgainst x ys = some (stays, kept)) : kept.length ≤ ys.length := by
  induction ys generalizing stays kept with
  | nil => simp [pruneAgainst] at h; simp [h]
  | cons y ys ih =>
    rw [pruneAgainst] at h
    split at h
    · obtain ⟨⟨s, k⟩, hk, e⟩ := Option.map_eq_some_iff.1 h
      have := ih hk
      simp only [Prod.mk.injEq] at e
      simp [← e.2, this]
    · split at h
      · exact Nat.le_trans (ih h) (by simp)
      · split at h
        · simp only [Option.some.injEq, Prod.mk.injEq] at h
          simp [← h.2]
        · split at h
          · cases h
          · obtain ⟨⟨s, k⟩, hk, e⟩ := Option.map_eq_some_iff.1 h
            have := ih hk
            simp only [Prod.mk.injEq] at e
            simp [← e.2, this]

/-- The members that no narrower one implies, or nothing if two members exclude each other. -/
def prune : List Ty → Option (List Ty)
  | [] => some []
  | x :: xs =>
    match _h : pruneAgainst x xs with
    | none => none
    | some (stays, kept) => (prune kept).map fun rest => if stays then x :: rest else rest
termination_by ts => ts.length
decreasing_by
  have := length_pruneAgainst _h
  simp only [List.length_cons]
  omega

/-- The shape of values that have both shapes. Shared keys take the meet of their types and are optional
    or read-only if both are. -/
def mergeShapes (meet : List Ty → Ty) (a b : Shape) : Shape :=
  let shared := a.props.map fun p =>
    match Shape.find? b.props p.key with
    | some q => ⟨p.key, meet [p.type, q.type], p.optional && q.optional, p.readonly && q.readonly⟩
    | none => p
  let added := b.props.filter fun q => (Shape.find? a.props q.key).isNone
  let index := match a.index, b.index with
    | none, j => j
    | some i, some j => if i.key = j.key then some ⟨i.key, meet [i.value, j.value]⟩ else some i
    | some i, none => some i
  Shape.ofProps (shared ++ added) index

/-- All object shapes of a list merged into one, after the other types. -/
def gatherShapes (meet : List Ty → Ty) (merged : Option Shape) : List Ty → List Ty
  | [] => (merged.map Shape.toTy).toList
  | object props index :: ts =>
    let merged := match merged with
      | none => ⟨props, index⟩
      | some shape => mergeShapes meet shape ⟨props, index⟩
    gatherShapes meet (some merged) ts
  | t :: ts => t :: gatherShapes meet merged ts

/-- The intersection of types that hold no union and at most one shape. -/
def closeMeet (ts : List Ty) : Ty :=
  match prune (distinct [] ts) with
  | none => never
  | some [] => emptyObject
  | some [t] => t
  | some kept => intersection (sortByText kept)

theorem sizeOfAll_append (xs ys : List Ty) :
    sizeOfAll (xs ++ ys) = sizeOfAll xs + sizeOfAll ys := by
  induction xs with
  | nil => simp [sizeOfAll]
  | cons x xs ih => simp [sizeOfAll, ih]; omega

theorem sizeOfAll_filter (p : Ty → Bool) (ts : List Ty) :
    sizeOfAll (ts.filter p) ≤ sizeOfAll ts := by
  induction ts with
  | nil => simp
  | cons t ts ih =>
    rw [List.filter_cons]
    split <;> simp only [sizeOfAll] <;> omega

theorem size_le_of_mem {t : Ty} {ts : List Ty} (h : t ∈ ts) : t.size ≤ sizeOfAll ts := by
  induction ts with
  | nil => cases h
  | cons u us ih =>
    rcases List.mem_cons.1 h with rfl | h
    · simp [sizeOfAll]
    · have := ih h; simp only [sizeOfAll]; omega

mutual

theorem sizeOfAll_meetMembers : (t : Ty) → sizeOfAll t.meetMembers ≤ t.size
  | intersection members => by
    have := sizeOfAll_meetMembersAll members
    simp only [meetMembers, size]; omega
  | absent => by simp [meetMembers, sizeOfAll, size]
  | any | unknown | void | never | prim _ | literal .. | template _ | object .. | array .. | tuple _
  | union _ | param .. | infer .. | conditional .. | reference .. | function .. | keyOf _
  | access .. | mapping .. => by simp [meetMembers, sizeOfAll]

theorem sizeOfAll_meetMembersAll : (ts : List Ty) → sizeOfAll (meetMembersAll ts) ≤ sizeOfAll ts
  | [] => by simp [meetMembersAll]
  | t :: ts => by
    have := sizeOfAll_meetMembers t
    have := sizeOfAll_meetMembersAll ts
    simp only [meetMembersAll, sizeOfAll, sizeOfAll_append]; omega

end

theorem sizeOfAll_splitAtUnion {ts before members after : List Ty}
    (h : splitAtUnion ts = some (before, members, after)) :
    sizeOfAll ts = sizeOfAll before + (1 + sizeOfAll members) + sizeOfAll after := by
  induction ts generalizing before with
  | nil => simp [splitAtUnion] at h
  | cons t ts ih =>
    rw [splitAtUnion.eq_def] at h
    split at h
    · cases h
    · rename_i ms us he
      obtain ⟨rfl, rfl⟩ := List.cons.inj he
      simp only [Option.some.injEq, Prod.mk.injEq] at h
      obtain ⟨rfl, rfl, rfl⟩ := h
      simp [sizeOfAll, size]
    · rename_i u us _ he
      obtain ⟨rfl, rfl⟩ := List.cons.inj he
      obtain ⟨⟨b, m, a⟩, hs, e⟩ := Option.map_eq_some_iff.1 h
      simp only [Prod.mk.injEq] at e
      obtain ⟨rfl, rfl, rfl⟩ := e
      have := ih hs
      simp only [sizeOfAll]; omega

/-- The members of an intersection without those that add nothing. -/
def knownMembers (ts : List Ty) : List Ty := (meetMembersAll ts).filter fun t => !t.isUnknown

theorem sizeOfAll_knownMembers (ts : List Ty) : sizeOfAll (knownMembers ts) ≤ sizeOfAll ts :=
  Nat.le_trans (sizeOfAll_filter _ _) (sizeOfAll_meetMembersAll ts)

/-- The meet of types in which shapes nest at most `level` deep. -/
def meetAt (level : Nat) (ts : List Ty) : Ty :=
  if (knownMembers ts).any isNever then never
  else if (knownMembers ts).any isAny then any
  else
    match _h : splitAtUnion (knownMembers ts) with
    | some (before, members, after) =>
      unionOf (members.attach.map fun ⟨m, _⟩ => meetAt level (before ++ m :: after))
    | none =>
      match level with
      -- The only shapes left are empty, and merging them meets no types.
      | 0 => closeMeet (gatherShapes (fun _ => never) none (knownMembers ts))
      | level + 1 => closeMeet (gatherShapes (meetAt level) none (knownMembers ts))
termination_by (level, sizeOfAll ts)
decreasing_by
  · rename_i hm
    refine Prod.Lex.right _ ?_
    have h1 := sizeOfAll_splitAtUnion _h
    have h2 := sizeOfAll_knownMembers ts
    have h3 := size_le_of_mem hm
    simp only [sizeOfAll_append, sizeOfAll]
    omega
  · exact Prod.Lex.left _ _ (by omega)

/-- The intersection of types in normal form. -/
def meetOf (ts : List Ty) : Ty := meetAt (shapeDepthAll ts) ts

end TypeCalculus.Ty

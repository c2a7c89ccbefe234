import TypeCalculus.Proofs.Ty.Level

/-! Shapes are finite maps from keys to properties (`shapes_are_finite_maps`): making one of a list keeps the last property
    of each key, and merging two finds under a key what either has, and the meet of both where both have one. -/

namespace TypeCalculus.Ty
open Shape

section Merging
variable {a b : Shape}

/-- Two shapes merged find under a key what either has, and the meet of what both have. -/
theorem find?_mergeShapes (meet : List Ty → Ty) (ha : Ascending a.props) (hb : Ascending b.props) (key : String) :
    find? (mergeShapes meet a b).props key =
      Option.merge (fun p q => ⟨key, meet [p.type, q.type], p.optional && q.optional, p.readonly && q.readonly⟩)
        (find? a.props key) (find? b.props key) := by
  let mergeProp (p : Property Ty) : Property Ty :=
    (find? b.props p.key).elim p fun q => ⟨p.key, meet [p.type, q.type], p.optional && q.optional, p.readonly && q.readonly⟩
  have key_mergeProp : ∀ p, (mergeProp p).key = p.key := fun p => by
    dsimp only [mergeProp]
    cases find? b.props p.key <;> rfl
  have shared : (a.props.map mergeProp).filter (·.key = key) = ((find? a.props key).map mergeProp).toList := by
    have same : (fun p : Property Ty => decide (p.key = key)) ∘ mergeProp = fun p => decide (p.key = key) :=
      funext fun p => by rw [Function.comp_apply, key_mergeProp]
    rw [List.filter_map, same, filter_key_eq_find? ha, ← Option.toList_map]
  have added : (b.props.filter fun q => (find? a.props q.key).isNone).filter (·.key = key) =
      ((find? b.props key).toList).filter fun q => (find? a.props q.key).isNone := by
    rw [List.filter_comm, filter_key_eq_find? hb]
  have found : find? (mergeShapes meet a b).props key =
      (((find? a.props key).map mergeProp).toList ++
        (find? b.props key).toList.filter fun q => (find? a.props q.key).isNone).getLast? := by
    have merged : (mergeShapes meet a b).props = (ofProps (a.props.map mergeProp ++
        b.props.filter fun q => (find? a.props q.key).isNone) (mergeShapes meet a b).index).props := by
      unfold mergeShapes
      refine congrArg (fun ps => (ofProps (ps ++ _) _).props) (List.map_congr_left fun p _ => ?_)
      dsimp only [mergeProp]
      cases find? b.props p.key <;> rfl
    rw [← shared, ← added, ← List.filter_append, merged]
    exact find?_ofProps _ _ key
  rw [found]
  cases hp : find? a.props key with
  | none =>
    cases hq : find? b.props key with
    | none => rfl
    | some q => simp [key_of_find? hq, hp]
  | some p =>
    have keyP := key_of_find? hp
    cases hq : find? b.props key with
    | none => simp [mergeProp, keyP, hq]
    | some q => simp [mergeProp, keyP, key_of_find? hq, hp, hq]

/-- The intersection of two shapes is the two merged. -/
theorem meetOf_shapes (a b : Shape) : meetOf [a.toTy, b.toTy] = (mergeShapes meetOf a b).toTy := by
  let n := nestAll (a.toTy.parts ++ b.toTy.parts)
  have parts : ∀ u ∈ a.toTy.parts ++ b.toTy.parts, u.nest ≤ n := nestAll_le.1 (Nat.le_refl _)
  obtain ⟨pa, pb⟩ := List.forall_mem_append.1 parts
  have shapes : ∀ t ∈ [a.toTy, b.toTy], t.nest ≤ n + 1 :=
    List.forall_mem_cons.2 ⟨nest_shape.2 pa, List.forall_mem_singleton.2 (nest_shape.2 pb)⟩
  have pair : ∀ x y : Ty, x.nest ≤ n → y.nest ≤ n → meetAt n [x, y] = meetOf [x, y] := fun x y hx hy =>
    meetAt_eq_meetOf (List.forall_mem_cons.2 ⟨hx, List.forall_mem_singleton.2 hy⟩)
  calc meetOf [a.toTy, b.toTy]
    _ = meetAt (n + 1) [a.toTy, b.toTy] := (meetAt_eq_meetOf shapes).symm
    _ = closeMeet [(mergeShapes (meetAt n) a b).toTy] := meetAt_succ nofun nofun rfl
    _ = (mergeShapes (meetAt n) a b).toTy := by simp [closeMeet, distinct, prune, pruneAgainst]
    _ = (mergeShapes meetOf a b).toTy := by rw [mergeShapes_congr pair pa pb]

end Merging

/-- A shape made of a list of properties has ascending keys and finds under a key the last property of that key. Two
    shapes with ascending keys meet in a shape with ascending keys; under a key it finds what one of them has if the other
    has nothing, the meet of both otherwise, optional or read-only if both are, and it holds nothing else. -/
theorem shapes_are_finite_maps :
    (∀ (props : List (Property Ty)) (index : Option (IndexSignature Ty)),
      Ascending (ofProps props index).props ∧ ∀ key,
        find? (ofProps props index).props key = (props.filter (·.key = key)).getLast? ∧
        (find? (ofProps props index).props key = none ↔ ∀ p ∈ props, p.key ≠ key)) ∧
    ∀ a b : Shape, Ascending a.props → Ascending b.props →
      meetOf [a.toTy, b.toTy] = (mergeShapes meetOf a b).toTy ∧ Ascending (mergeShapes meetOf a b).props ∧ ∀ key,
        find? (mergeShapes meetOf a b).props key =
          Option.merge (fun p q => ⟨key, meetOf [p.type, q.type], p.optional && q.optional, p.readonly && q.readonly⟩)
            (find? a.props key) (find? b.props key) ∧
        (mergeShapes meetOf a b).props.filter (·.key = key) = (find? (mergeShapes meetOf a b).props key).toList := by
  constructor
  · intro props index
    refine ⟨ascending_ofProps props index, fun key => ⟨find?_ofProps props index key, ?_⟩⟩
    rw [find?_ofProps, List.getLast?_eq_none_iff, List.filter_eq_nil_iff]
    simp only [decide_eq_true_eq, ne_eq]
  · intro a b ha hb
    have ascending : Ascending (mergeShapes meetOf a b).props := ascending_ofProps _ _
    exact ⟨meetOf_shapes a b, ascending, fun key => ⟨find?_mergeShapes meetOf ha hb key, filter_key_eq_find? ascending⟩⟩

/-- Both shapes have the key `b`, optional in both and read-only in one. -/
theorem shapes_are_finite_maps_shared :
    let a : Shape := ⟨[⟨"a", prim .string, false, false⟩, ⟨"b", prim .number, true, false⟩], none⟩
    let b : Shape := ⟨[⟨"b", literal .number "1", true, true⟩], none⟩
    Ascending a.props ∧ Ascending b.props ∧
      find? (mergeShapes meetOf a b).props "b" = some ⟨"b", meetOf [prim .number, literal .number "1"], true, false⟩ := by
  intro a b
  have ha : Ascending a.props := List.pairwise_pair.2 (by decide)
  have hb : Ascending b.props := List.pairwise_singleton _ _
  have foundA : find? a.props "b" = some ⟨"b", prim .number, true, false⟩ :=
    (find?_eq_some_iff ha).2 ⟨List.mem_cons_of_mem _ List.mem_cons_self, rfl⟩
  have foundB : find? b.props "b" = some ⟨"b", literal .number "1", true, true⟩ :=
    (find?_eq_some_iff hb).2 ⟨List.mem_cons_self, rfl⟩
  refine ⟨ha, hb, ?_⟩
  rw [((shapes_are_finite_maps.2 a b ha hb).2.2 "b").1, foundA, foundB]
  rfl

end TypeCalculus.Ty

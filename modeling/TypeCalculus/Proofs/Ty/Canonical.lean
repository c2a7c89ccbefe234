import TypeCalculus.Proofs.Ty.Members

/-! How far unions are canonical. Types with the same members up to identity make unions with the same members, and these
    are put in the order of their texts. Types with the same text keep the order in which they came, so it is there that
    two unions may differ: a parameter and a reference of one name print alike (`order_of_ties`). -/

namespace TypeCalculus.Ty

/-- The members with a text that the union of the types keeps, in the order in which they came. -/
def tied (ts : List Ty) (text : String) : List Ty := (keptMembers ts).filter fun t => t.print = text

/-- What is made of the members that a union keeps. -/
def arranged : List Ty → Ty
  | [] => never
  | [t] => t
  | kept => union (sortByText kept)

theorem unionOf_arranged {ts : List Ty} (ha : any ∉ unionMembersAll ts) (hk : unknown ∉ unionMembersAll ts) :
    unionOf ts = arranged (keptMembers ts) := by
  have noAny : ¬(unionMembersAll ts).any isAny = true := by
    rw [List.any_eq_true]
    rintro ⟨v, hv, he⟩
    cases v with
    | any => exact ha hv
    | _ => cases he
  have noUnknown : ¬(unionMembersAll ts).any isUnknown = true := by
    rw [List.any_eq_true]
    rintro ⟨v, hv, he⟩
    cases v with
    | unknown => exact hk hv
    | _ => cases he
  unfold unionOf
  dsimp only
  rw [if_neg noAny, if_neg noUnknown]
  rfl

/-! ### Lists up to identity -/

/-- Lists of types that are identical one by one. -/
def IdenticalLists (xs ys : List Ty) : Prop := List.Forall₂ (fun x y => x.identical y = true) xs ys

theorem identicalLists_iff {xs ys : List Ty} : IdenticalLists xs ys ↔ xs.map erased = ys.map erased := by
  rw [← List.forall₂_eq_eq_eq, List.forall₂_map_left_iff, List.forall₂_map_right_iff]
  simp only [IdenticalLists, identical_iff]

theorem print_erased (t : Ty) : t.erased.print = t.print := print_annotated bare t

theorem filter_erased (text : String) (ts : List Ty) :
    (ts.map erased).filter (fun t => t.print = text) = (ts.filter fun t => t.print = text).map erased := by
  rw [List.filter_map]
  refine congrArg (List.map erased) (List.filter_congr fun t _ => ?_)
  simp [print_erased]

/-- Sorted by their texts, two lists are identical if the types of every text come in the same order. -/
theorem identicalLists_sorted {xs ys : List Ty} :
    IdenticalLists (sortByText xs) (sortByText ys) ↔
      ∀ text, IdenticalLists (xs.filter fun t => t.print = text) (ys.filter fun t => t.print = text) := by
  have sorted : ∀ ts : List Ty, ((sortByText ts).map erased).Pairwise fun a b => a.print ≤ b.print := by
    intro ts
    rw [List.pairwise_map]
    simpa only [print_erased] using sortByText_pairwise ts
  have texts : ∀ (ts : List Ty) text, ((sortByText ts).map erased).filter (fun t => t.print = text) =
      (ts.filter fun t => t.print = text).map erased := by
    intro ts text
    rw [filter_erased, sortByText_stable]
  simp only [identicalLists_iff]
  constructor
  · intro h text
    rw [← texts, ← texts, h]
  · exact fun h => eq_of_texts (sorted xs) (sorted ys) fun text => by rw [texts, texts, h]

/-! ### Kept members -/

section Kept
variable {xs ys : List Ty}

/-- Where nothing absorbs the others, the same members are kept, in some order. -/
theorem perm_kept (h : ∀ u, SomeHas xs u ↔ SomeHas ys u) (ha : ¬SomeHas xs any) (hk : ¬SomeHas xs unknown) :
    ((keptMembers xs).map erased).Perm ((keptMembers ys).map erased) := by
  have nodup : ∀ ts : List Ty, ((keptMembers ts).map erased).Nodup := by
    intro ts
    rw [List.Nodup, List.pairwise_map]
    refine (distinct_pairwise [] _).imp fun {a b} hab he => ?_
    rw [(identical_iff a b).2 he] at hab
    cases hab
  have member : ∀ {ts : List Ty}, ¬SomeHas ts any → ¬SomeHas ts unknown → ∀ u,
      (∃ v ∈ keptMembers ts, v.identical u = true) ↔ Leaves (SomeHas ts) u ∧ u ≠ never := by
    intro ts ha hk u
    rw [someHas_atom rfl] at ha hk
    constructor
    · rintro ⟨v, hv, hi⟩
      refine ⟨leaves_of_kept ha hk hv hi, ?_⟩
      rintro rfl
      exact not_redundant_of_kept hv (isRedundantIn_iff.2 (.inl (eq_of_identical_atom rfl hi)))
    · rintro ⟨hu, hne⟩
      exact (kept_of_leaves ha hk hu).resolve_right fun hn => hne hn.2
  have sub : ∀ {as bs : List Ty}, (∀ u, SomeHas as u ↔ SomeHas bs u) → ¬SomeHas as any → ¬SomeHas as unknown →
      ∀ e ∈ (keptMembers as).map erased, e ∈ (keptMembers bs).map erased := by
    intro as bs h ha hk e he
    obtain ⟨u, hu, rfl⟩ := List.mem_map.1 he
    obtain ⟨hl, hne⟩ := (member ha hk u).1 ⟨u, hu, identical_refl u⟩
    rw [h] at ha hk
    obtain ⟨v, hv, hi⟩ := (member ha hk u).2 ⟨(leaves_congr h).1 hl, hne⟩
    exact List.mem_map.2 ⟨v, hv, (identical_iff v u).1 hi⟩
  rw [List.perm_ext_iff_of_nodup (nodup xs) (nodup ys)]
  exact fun e => ⟨sub h ha hk e, sub (fun u => (h u).symm) (mt (h any).2 ha) (mt (h unknown).2 hk) e⟩

theorem identical_arranged (h : (xs.map erased).Perm (ys.map erased)) :
    (arranged xs).identical (arranged ys) = true ↔ IdenticalLists (sortByText xs) (sortByText ys) := by
  have length : xs.length = ys.length := by simpa using h.length_eq
  match xs, ys, length with
  | [], [], _ => exact iff_of_true rfl (by rw [sortByText_self .nil]; exact .nil)
  | [x], [y], _ =>
    have sorted : ∀ t : Ty, sortByText [t] = [t] := fun t => sortByText_self (List.pairwise_singleton _ _)
    rw [sorted, sorted, identicalLists_iff, List.map_singleton, List.map_singleton, List.singleton_inj, arranged, arranged,
      identical_iff]
  | x :: x' :: xs, y :: y' :: ys, _ =>
    rw [identicalLists_iff]
    refine (identical_iff (union (sortByText (x :: x' :: xs))) (union (sortByText (y :: y' :: ys)))).trans ?_
    simp only [erased, annotated, union.injEq, annotatedAll_eq]
    rfl

end Kept

/-! ### Unions -/

/-- Types with the same members make unions with the same members. The unions are identical exactly if one member absorbs
    the others or the members of every text come in the same order, so they are wherever texts tell members apart. -/
theorem union_canonical {xs ys : List Ty} (h : ∀ u, SomeHas xs u ↔ SomeHas ys u) :
    SameMembers (unionOf xs) (unionOf ys) ∧
      ((unionOf xs).identical (unionOf ys) = true ↔
        SomeHas xs any ∨ SomeHas xs unknown ∨ ∀ text, IdenticalLists (tied xs text) (tied ys text)) ∧
      ((∀ u v, SomeHas xs u → SomeHas xs v → u.print = v.print → u.identical v = true) →
        (unionOf xs).identical (unionOf ys) = true) := by
  refine ⟨sameMembers_unionOf h, ?_⟩
  have atoms : ∀ {ts : List Ty} {t : Ty}, t.isAtom = true → (SomeHas ts t ↔ t ∈ unionMembersAll ts) := someHas_atom
  by_cases ha : SomeHas xs any
  · have same : (unionOf xs).identical (unionOf ys) = true := by
      rw [unionOf_any ((atoms rfl).1 ha), unionOf_any ((atoms rfl).1 ((h any).1 ha))]
      rfl
    exact ⟨iff_of_true same (.inl ha), fun _ => same⟩
  by_cases hk : SomeHas xs unknown
  · have same : (unionOf xs).identical (unionOf ys) = true := by
      rw [unionOf_unknown (mt (atoms rfl).2 ha) ((atoms rfl).1 hk),
        unionOf_unknown (mt (atoms rfl).2 (mt (h any).2 ha)) ((atoms rfl).1 ((h unknown).1 hk))]
      rfl
    exact ⟨iff_of_true same (.inr (.inl hk)), fun _ => same⟩
  have perm := perm_kept h ha hk
  have exact' : (unionOf xs).identical (unionOf ys) = true ↔ ∀ text, IdenticalLists (tied xs text) (tied ys text) := by
    rw [unionOf_arranged (mt (atoms rfl).2 ha) (mt (atoms rfl).2 hk),
      unionOf_arranged (mt (atoms rfl).2 (mt (h any).2 ha)) (mt (atoms rfl).2 (mt (h unknown).2 hk)), identical_arranged perm,
      identicalLists_sorted]
    rfl
  refine ⟨by rw [exact', or_iff_right ha, or_iff_right hk], fun apart => exact'.2 fun text => ?_⟩
  -- of every text at most one member is kept, on both sides the same one
  have texts : ((tied xs text).map erased).Perm ((tied ys text).map erased) := by
    have := perm.filter fun t => decide (t.print = text)
    rwa [filter_erased, filter_erased] at this
  have alike : ∀ a ∈ (tied xs text).map erased, ∀ b ∈ (tied xs text).map erased, a = b := by
    intro a ha b hb
    obtain ⟨u, hu, rfl⟩ := List.mem_map.1 ha
    obtain ⟨v, hv, rfl⟩ := List.mem_map.1 hb
    obtain ⟨hu, htu⟩ := List.mem_filter.1 hu
    obtain ⟨hv, htv⟩ := List.mem_filter.1 hv
    have has : ∀ {w}, w ∈ keptMembers xs → SomeHas xs w := fun hw => someHas_iff.2 ⟨_, mem_of_keptMembers hw, identical_refl _⟩
    exact (identical_iff u v).1 (apart u v (has hu) (has hv) ((of_decide_eq_true htu).trans (of_decide_eq_true htv).symm))
  rw [identicalLists_iff]
  have pairwise := List.pairwise_of_forall_mem_list alike
  exact texts.eq_of_pairwise (fun _ _ _ _ h _ => h) pairwise
    (List.pairwise_of_forall_mem_list fun a ha b hb => alike a (texts.mem_iff.2 ha) b (texts.mem_iff.2 hb))

/-- Repeated, nested and in another order, the same types make the same union. -/
theorem union_canonical_nested :
    let xs := [array number false, string]
    let ys := [union [string, array number false], string]
    (∀ u, SomeHas xs u ↔ SomeHas ys u) ∧
      (∀ u v, SomeHas xs u → SomeHas xs v → u.print = v.print → u.identical v = true) ∧
      (unionOf xs).identical (unionOf ys) = true := by
  intro xs ys
  have flat : unionMembersAll xs = [array number false, string] := rfl
  have flat' : unionMembersAll ys = [string, array number false, string] := rfl
  have same : ∀ u, SomeHas xs u ↔ SomeHas ys u := by
    intro u
    rw [someHas_iff, someHas_iff, flat, flat']
    simp only [List.mem_cons, List.not_mem_nil, or_false]
    grind
  have apart : ∀ u v, SomeHas xs u → SomeHas xs v → u.print = v.print → u.identical v = true := by
    intro u v hu hv he
    rw [someHas_iff, flat] at hu hv
    obtain ⟨a, ha, hau⟩ := hu
    obtain ⟨b, hb, hbv⟩ := hv
    have text : a.print = b.print := by
      rw [congr_of_identical print_erased hau, congr_of_identical print_erased hbv, he]
    have equal : a = b := by
      simp only [List.mem_cons, List.not_mem_nil, or_false] at ha hb
      rcases ha with rfl | rfl <;> rcases hb with rfl | rfl <;> first | rfl | exact absurd text (by decide)
    exact identical_trans (identical_symm hau) (equal ▸ hbv)
  exact ⟨same, apart, (union_canonical same).2.2 apart⟩

/-- A parameter and a reference of one name have the same text, and their union keeps them in the order in which they
    came. -/
theorem order_of_ties :
    let p := param "A" absent absent
    let r := reference "A" []
    Built p ∧ Built r ∧ (∀ u, SomeHas [p, r] u ↔ SomeHas [r, p] u) ∧ (unionOf [p, r]).identical (unionOf [r, p]) = false := by
  intro p r
  have first : unionOf [p, r] = union [p, r] := unionOf_pair_self rfl rfl rfl rfl (by decide)
  have second : unionOf [r, p] = union [r, p] := unionOf_pair_self rfl rfl rfl rfl (by decide)
  refine ⟨built_param "A", built_plain rfl (List.forall_mem_nil _), fun u => ?_, ?_⟩
  · simp only [SomeHas, List.mem_cons, List.not_mem_nil, or_false]
    grind
  · rw [first, second]
    rfl

end TypeCalculus.Ty

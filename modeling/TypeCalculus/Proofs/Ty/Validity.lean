import TypeCalculus.Proofs.Ty.Inherited
import TypeCalculus.Ty.Validity

/-! What a check of a tree asks of its nodes (`Valid`), and that the normalising constructors make valid types of valid
    parts. A tree that may stand by itself may stand under a bound as well, since a bound only allows more. -/

namespace TypeCalculus.Ty

/-- The tree passes the check; `inBound` says that it stands under the bound of a conditional. -/
def Valid (inBound : Bool) (t : Ty) : Prop := t.validateIn inBound = .ok ()

section Nodes
variable {inBound : Bool}

theorem andThen_eq_ok {α : Type} {x : Except TypeError Unit} {y : Except TypeError α} {a : α} :
    (do x; y) = .ok a ↔ x = .ok () ∧ y = .ok a := by
  cases x with
  | error e => exact ⟨nofun, fun h => nomatch h.1⟩
  | ok => exact ⟨fun h => ⟨rfl, h⟩, fun h => h.2⟩

theorem validateAll_iff {ts : List Ty} : validateAll inBound ts = .ok () ↔ ∀ t ∈ ts, Valid inBound t := by
  induction ts with
  | nil => exact ⟨nofun, fun _ => rfl⟩
  | cons t ts ih => rw [validateAll, andThen_eq_ok, List.forall_mem_cons, ih, Valid]

theorem validateSegments_iff {segments : List (Segment Ty)} :
    validateSegments inBound segments = .ok () ↔ ∀ t ∈ holes segments, Valid inBound t := by
  induction segments with
  | nil => exact ⟨nofun, fun _ => rfl⟩
  | cons s segments ih =>
    cases s with
    | text s => exact ih
    | hole t =>
      have parts : holes (.hole t :: segments) = t :: holes segments := rfl
      rw [validateSegments, andThen_eq_ok, parts, List.forall_mem_cons, ih, Valid]

theorem validateProps_iff {props : List (Property Ty)} :
    validateProps inBound props = .ok () ↔ ∀ p ∈ props, Valid inBound p.type := by
  induction props with
  | nil => exact ⟨nofun, fun _ => rfl⟩
  | cons p props ih => rw [validateProps, andThen_eq_ok, List.forall_mem_cons, ih, Valid]

theorem validateIndex_iff {index : Option (IndexSignature Ty)} :
    validateIndex inBound index = .ok () ↔ ∀ i, index = some i → Valid inBound i.value := by
  cases index with
  | none => exact ⟨nofun, fun _ => rfl⟩
  | some i => exact ⟨fun h j hj => Option.some.inj hj ▸ h, fun h => h i rfl⟩

theorem not_valid_absent : ¬Valid inBound absent := nofun

theorem valid_present {t : Ty} (h : Valid inBound t) : t ≠ absent := by
  rintro rfl
  exact not_valid_absent h

theorem valid_infer {name : String} {constraint : Ty} :
    Valid inBound (infer name constraint) ↔ inBound = true ∧ (constraint = absent ∨ Valid false constraint) := by
  cases inBound with
  | false =>
    rw [Valid]
    unfold validateIn
    exact ⟨nofun, nofun⟩
  | true =>
    cases constraint with
    | absent => exact ⟨fun _ => ⟨rfl, .inl rfl⟩, fun _ => rfl⟩
    | _ => exact ⟨fun h => ⟨rfl, .inr h⟩, fun h => h.2.resolve_left nofun⟩

theorem valid_param {name : String} {constraint default : Ty} : Valid inBound (param name constraint default) ↔
    name ≠ "" ∧ (constraint = absent ∨ Valid false constraint) ∧ (default = absent ∨ Valid false default) := by
  rw [Valid]
  unfold validateIn
  dsimp only
  split
  · rename_i hn
    exact ⟨nofun, fun h => absurd hn h.1⟩
  · rename_i hn
    split
    · split
      · exact ⟨fun _ => ⟨hn, .inl rfl, .inl rfl⟩, fun _ => rfl⟩
      · rename_i hd
        exact ⟨fun h => ⟨hn, .inl rfl, .inr h⟩, fun h => h.2.2.resolve_left hd⟩
    · rename_i hc
      rw [andThen_eq_ok]
      split
      · exact ⟨fun h => ⟨hn, .inr h.1, .inl rfl⟩, fun h => ⟨h.2.1.resolve_left hc, rfl⟩⟩
      · rename_i hd
        exact ⟨fun h => ⟨hn, .inr h.1, .inr h.2⟩, fun h => ⟨h.2.1.resolve_left hc, h.2.2.resolve_left hd⟩⟩

theorem valid_conditional {check bound yes no : Ty} {distribute : Bool} :
    Valid inBound (conditional check bound yes no distribute) ↔
      Valid inBound check ∧ Valid inBound yes ∧ Valid inBound no ∧ Valid true bound := by
  unfold Valid
  rw [validateIn, andThen_eq_ok, andThen_eq_ok, andThen_eq_ok]

theorem badHole?_eq_none {segments : List (Segment Ty)} :
    badHole? segments = none ↔ ∀ t ∈ holes segments, t.isStringLike = true := by
  simp only [badHole?, List.findSome?_eq_none_iff, holes, List.mem_filterMap]
  constructor
  · rintro h t ⟨s, hs, ht⟩
    have := h s hs
    cases s <;> grind
  · intro h s hs
    cases s with
    | text => rfl
    | hole t => exact if_pos (h t ⟨_, hs, rfl⟩)

theorem valid_template {segments : List (Segment Ty)} :
    Valid inBound (template segments) ↔ ∀ t ∈ holes segments, t.isStringLike = true ∧ Valid inBound t := by
  rw [Valid, validateIn]
  split
  · rename_i hole hb
    refine ⟨nofun, fun h => ?_⟩
    rw [badHole?_eq_none.2 fun t ht => (h t ht).1] at hb
    cases hb
  · rename_i hb
    rw [validateSegments_iff]
    exact ⟨fun h t ht => ⟨badHole?_eq_none.1 hb t ht, h t ht⟩, fun h t ht => (h t ht).2⟩

theorem untypedKey?_eq_none {props : List (Property Ty)} (h : ∀ p ∈ props, p.type ≠ absent) : untypedKey? props = none := by
  rw [untypedKey?, Option.map_eq_none_iff, List.find?_eq_none]
  intro p hp hn
  refine h p hp ?_
  generalize p.type = t at hn
  cases t with
  | absent => rfl
  | _ => cases hn

theorem valid_object {props : List (Property Ty)} {index : Option (IndexSignature Ty)} :
    Valid inBound (object props index) ↔ (∀ p ∈ props, Valid inBound p.type) ∧
      ∀ i, index = some i → (i.key = .string ∨ i.key = .number) ∧ Valid inBound i.value := by
  have typed : (∀ p ∈ props, Valid inBound p.type) → untypedKey? props = none :=
    fun h => untypedKey?_eq_none fun p hp => valid_present (h p hp)
  rw [Valid]
  unfold validateIn
  dsimp only
  split
  · rename_i key value
    split
    · rename_i hk
      refine ⟨nofun, fun h => ?_⟩
      rcases (h.2 _ rfl).1 with rfl | rfl <;> cases hk
    · rename_i hk
      have known : key = .string ∨ key = .number := or_iff_not_imp_left.2 (by simpa using hk)
      split
      · rename_i hu
        exact ⟨nofun, fun h => nomatch (typed h.1).symm.trans hu⟩
      · rw [andThen_eq_ok, validateProps_iff, validateIndex_iff]
        refine and_congr_right fun _ => ⟨?_, fun h i hi => (h i hi).2⟩
        rintro h i ⟨⟩
        exact ⟨known, h _ rfl⟩
  · split
    · rename_i hu
      exact ⟨nofun, fun h => nomatch (typed h.1).symm.trans hu⟩
    · rw [andThen_eq_ok, validateProps_iff, validateIndex_iff]
      exact and_congr_right fun _ => ⟨nofun, nofun⟩

/-- The check of the node looks at its parts alone, and in the same place. -/
def isOrdinary : Ty → Bool
  | absent | infer .. | param .. | conditional .. | template _ | object .. => false
  | _ => true

theorem valid_ordinary {t : Ty} (h : t.isOrdinary = true) : Valid inBound t ↔ ∀ u ∈ t.parts, Valid inBound u := by
  unfold Valid
  cases t with
  | absent | infer | param | conditional | template | object => cases h
  | tuple ts | union ts | intersection ts | reference _ ts => rw [validateIn, validateAll_iff]; rfl
  | array t | keyOf t | mapping _ t => rw [validateIn, parts, List.forall_mem_singleton]
  | access t u => rw [validateIn, andThen_eq_ok, parts, List.forall_mem_cons, List.forall_mem_singleton]
  | function ts r => rw [validateIn, andThen_eq_ok, validateAll_iff, parts, List.forall_mem_append, List.forall_mem_singleton]; rfl
  | any | unknown | void | never | prim | literal => exact ⟨fun _ => List.forall_mem_nil _, fun _ => rfl⟩

end Nodes

/-- A tree that may stand by itself may stand anywhere. -/
theorem Valid.anywhere {inBound : Bool} {t : Ty} (h : Valid false t) : Valid inBound t := by
  induction t using children_induction with
  | step t ih =>
    cases t with
    | absent => exact absurd h not_valid_absent
    | infer => cases (valid_infer.1 h).1
    | param => exact valid_param.2 (valid_param.1 h)
    | conditional check bound yes no =>
      obtain ⟨hc, hy, hn, hb⟩ := valid_conditional.1 h
      exact valid_conditional.2 ⟨ih check (by simp [children, parts]) hc, ih yes (by simp [children, parts]) hy,
        ih no (by simp [children, parts]) hn, hb⟩
    | template segments =>
      exact valid_template.2 fun u hu => (valid_template.1 h u hu).imp_right (ih u hu)
    | object props index =>
      obtain ⟨hp, hi⟩ := valid_object.1 h
      refine valid_object.2 ⟨fun p hm => ih _ (List.mem_append_left _ (List.mem_map_of_mem hm)) (hp p hm), ?_⟩
      rintro i rfl
      exact (hi i rfl).imp_right (ih _ (List.mem_append_right _ List.mem_cons_self))
    | _ => exact (valid_ordinary rfl).2 fun u hu => ih u hu ((valid_ordinary rfl).1 h u hu)

theorem Valid.wider {inBound : Bool} {b : Bool} {t : Ty} (h : Valid (inBound && b) t) : Valid inBound t := by
  cases b with
  | true => rwa [Bool.and_true] at h
  | false =>
    rw [Bool.and_false] at h
    exact h.anywhere

/-! ### Constructors -/

section Constructors
variable {inBound : Bool}

theorem valid_unionOf {ts : List Ty} (h : ∀ t ∈ ts, Valid inBound t) : Valid inBound (unionOf ts) :=
  unionOf_forall (P := Valid inBound) rfl (fun h => (valid_ordinary rfl).1 h) (fun h => (valid_ordinary rfl).2 h) h

theorem valid_ofProps {props : List (Property Ty)} {index : Option (IndexSignature Ty)}
    (hp : ∀ p ∈ props, Valid inBound p.type)
    (hi : ∀ i, index = some i → (i.key = .string ∨ i.key = .number) ∧ Valid inBound i.value) :
    Valid inBound (Shape.ofProps props index).toTy :=
  valid_object.2 ⟨fun p hm => hp p (Shape.mem_ofProps hm), hi⟩

/-- The index signature of two shapes merged has the key of one of them. -/
theorem index_mergeShapes {meet : List Ty → Ty} {a b : Shape} {i : IndexSignature Ty}
    (h : (mergeShapes meet a b).index = some i) :
    ∃ j, (a.index = some j ∨ b.index = some j) ∧ i.key = j.key := by
  dsimp only [mergeShapes, Shape.ofProps] at h
  split at h
  · exact ⟨i, .inr h, rfl⟩
  · rename_i ia ib ha hb
    split at h
    · cases h
      exact ⟨ia, .inl ha, rfl⟩
    · cases h
      exact ⟨_, .inl ha, rfl⟩
  · rename_i ia ha hb
    exact ⟨ia, .inl ha, Option.some.inj h ▸ rfl⟩

theorem meeting_valid : Meeting (Valid inBound) where
  never := rfl
  emptyObject := rfl
  unionMember h hm := (valid_ordinary rfl).1 h _ hm
  unionOf := valid_unionOf
  meetMember h hm := (valid_ordinary rfl).1 h _ hm
  meet h _ _ _ := (valid_ordinary rfl).2 h
  merge {meet a b} hmeet ha hb := by
    obtain ⟨hpa, hia⟩ := valid_object.1 ha
    obtain ⟨hpb, hib⟩ := valid_object.1 hb
    obtain ⟨props, values⟩ := parts_toTy_forall.1 (parts_mergeShapes hmeet
      (parts_toTy_forall.2 ⟨hpa, fun i hi => (hia i hi).2⟩) (parts_toTy_forall.2 ⟨hpb, fun i hi => (hib i hi).2⟩))
    refine valid_object.2 ⟨props, fun i hi => ⟨?_, values i hi⟩⟩
    obtain ⟨j, hj | hj, he⟩ := index_mergeShapes hi
    · exact he ▸ (hia j hj).1
    · exact he ▸ (hib j hj).1

theorem isStringLike_of_isOpenHole {t : Ty} (h : t.isOpenHole = true) : t.isStringLike = true := by
  cases t with
  | prim p => cases p <;> first | rfl | cases h
  | literal | union | template | never => cases h
  | _ => exact h

theorem splicing_valid :
    Splicing (Valid inBound) (Valid inBound) fun done => ∀ t ∈ holes done, t.isStringLike = true ∧ Valid inBound t where
  never := rfl
  unionMember h hm := (valid_ordinary rfl).1 h _ hm
  unionOf := valid_unionOf
  text := Inherited.pushText
  inline hd hi := Inherited.pushSegments hd (valid_template.1 hi)
  hole hd ht ho := List.forall_mem_cons.2 ⟨⟨isStringLike_of_isOpenHole ho, ht⟩, hd⟩
  close {done} hd := by
    unfold closeTemplate
    split
    · rfl
    · rfl
    · rfl
    · refine valid_template.2 fun t ht => hd t ?_
      rwa [holes_reverse, List.mem_reverse] at ht

/-- The types under a placeholder stand by themselves; the parts of other types stand where the type does. -/
theorem valid_parts {t : Ty} (h : Valid inBound t) (hp : t.isParam = false) (hc : t.isConditional = false) :
    ∀ u ∈ t.parts, Valid (inBound && !t.isInfer) u := by
  intro u hu
  cases ht : t.isInfer with
  | false =>
    rw [Bool.not_false, Bool.and_true]
    cases t with
    | infer => cases ht
    | param => cases hp
    | conditional => cases hc
    | absent => cases hu
    | template => exact (valid_template.1 h u hu).2
    | object props index =>
      exact @parts_toTy_forall _ ⟨props, index⟩ |>.2 ((valid_object.1 h).imp_right fun hi i he => (hi i he).2) u hu
    | _ => exact (valid_ordinary rfl).1 h u hu
  | true =>
    rw [Bool.not_true, Bool.and_false]
    cases t with
    | infer name constraint =>
      rcases (valid_infer.1 h).2 with rfl | hv
      · cases hu
      · cases constraint with
        | absent => cases hu
        | _ => exact List.mem_singleton.1 hu ▸ hv
    | _ => cases ht

/-- The constructors make valid types of valid parts. -/
theorem rebuilds_valid {t : Ty} (h : Valid inBound t) (hp : t.isParam = false) (hc : t.isConditional = false) :
    Rebuilds (Valid (inBound && !t.isInfer)) (Valid inBound) t where
  leaf _ := h
  plain {u} hu he hv := by
    cases ht : t.isInfer with
    | false =>
      rw [ht, Bool.not_false, Bool.and_true] at hv
      cases u with
      | infer =>
        cases t with
        | infer => cases ht
        | _ => cases he
      | array | tuple | function | reference | keyOf | access | mapping => exact (valid_ordinary rfl).2 hv
      | _ => cases hu
    | true =>
      rw [ht, Bool.not_true, Bool.and_false] at hv
      cases t with
      | infer =>
        cases u with
        | infer name constraint =>
          refine valid_infer.2 ⟨(valid_infer.1 h).1, ?_⟩
          cases constraint with
          | absent => exact .inl rfl
          | _ => exact .inr (hv _ List.mem_cons_self)
        | _ => cases he
      | _ => cases ht
  unionOf _ hus := valid_unionOf fun u hu => (hus u hu).wider
  meetOf _ hus := meeting_valid.meetAt fun u hu => (hus u hu).wider
  templateOf _ hus := splicing_valid.templateAfter nofun fun u hu => (hus u hu).wider
  ofProps {_ _ _ _} he hps hi := by
    subst he
    refine valid_ofProps (fun p hm => (hps p hm).wider) fun i hm => ?_
    obtain ⟨hv, j, hj, he⟩ := hi i hm
    exact ⟨he ▸ ((valid_object.1 h).2 j hj).1, hv.wider⟩

end Constructors
end TypeCalculus.Ty

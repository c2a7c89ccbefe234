import TypeCalculus.Proofs.Ty.Inherited
import TypeCalculus.Evaluate.Keys

/-! Properties that the operators hand on. String mappings, `keyof` and indexed access take their operands apart and
    build results with the normalising constructors, so a property goes through them as soon as it goes through these
    and holds where an operator stays (`Operated`). -/

namespace TypeCalculus.Ty

/-! ### Where operators stay -/

/-- The keys of the type are not known yet. -/
def hidesKeys : Ty → Bool
  | absent | param .. | infer .. | conditional .. | keyOf _ | access .. | mapping .. => true
  | _ => false

/-- A string mapping looks into the type. -/
def isMappable : Ty → Bool
  | literal .. | union _ | never | any | template _ | prim .null | prim .undefined => true
  | _ => false

theorem keysOf_hidden {t : Ty} (h : t.hidesKeys = true) : t.keysOf = keyOf t := by
  cases t with
  | absent | param | infer | conditional | keyOf | access | mapping => rfl
  | _ => cases h

theorem mapped_stuck (op : Mapping) {t : Ty} (h : t.isMappable = false) : t.mapped op = mapping op t := by
  cases t with
  | literal | union | never | any | template => cases h
  | prim p =>
    cases p with
    | null | undefined => cases h
    | _ => rfl
  | _ => rfl

theorem indexed_open {target index : Ty} (h : (target.isConcrete && index.isConcrete) = false) :
    indexed target index = .ok (access target index) := by
  rw [indexed.eq_def, if_pos]
  · rfl
  · rwa [← Bool.not_and, Bool.not_eq_true']

theorem eq_ok_of_toOption {ε α : Type} {x : Except ε α} {v : α} (h : x.toOption = some v) : x = .ok v := by
  cases x with
  | error => cases h
  | ok => exact congrArg _ (Option.some.inj h)

/-- The operators hand the property on from operands to results. -/
structure Operated (P : Ty → Prop) : Prop where
  atom : ∀ {t}, t.isAtom = true → P t
  part : ∀ {t u}, t.isStructural = true → P t → u ∈ t.parts → P u
  unionMember : ∀ {ms m}, P (union ms) → m ∈ ms → P m
  unionOf : ∀ {ts}, (∀ t ∈ ts, P t) → P (unionOf ts)
  meetMember : ∀ {ms m}, P (intersection ms) → m ∈ ms → P m
  meetOf : ∀ {ts}, (∀ t ∈ ts, P t) → P (meetOf ts)
  templateOf : ∀ {segments}, (∀ t ∈ holes segments, P t) → P (templateOf segments)
  keyOf : ∀ {t}, t.hidesKeys = true → P t → P (keyOf t)
  mapping : ∀ {op t}, t.isMappable = false → P t → P (mapping op t)
  access : ∀ {t i}, (t.isConcrete && i.isConcrete) = false → P t → P i → P (access t i)

theorem Carried.operated {P : Ty → Prop} (C : Carried P) : Operated P where
  atom := C.atom
  part {t u} ht h hu := by
    cases t with
    | param => cases ht
    | _ => exact C.child h hu
  unionMember h hm := C.child h hm
  unionOf := C.unionOf
  meetMember h hm := C.child h hm
  meetOf := C.meetOf
  templateOf := C.templateOf
  keyOf _ h := C.single rfl rfl h
  mapping _ h := C.single rfl rfl h
  access {t i} _ ht hi := by
    refine C.plain rfl fun v hv => ?_
    rcases List.mem_cons.1 hv with rfl | hv
    · exact ht
    · exact List.mem_singleton.1 hv ▸ hi

/-- An inherited property goes through the operators if it holds where they stay. -/
theorem Inherited.operated {P : Ty → Prop} (h : Inherited P) (hk : ∀ {t}, t.hidesKeys = true → P t → P (.keyOf t))
    (hm : ∀ {op t}, t.isMappable = false → P t → P (.mapping op t))
    (ha : ∀ {t i}, (t.isConcrete && i.isConcrete) = false → P t → P i → P (.access t i)) : Operated P where
  atom {t} ht := by
    cases t with
    | any | unknown | void | never | prim | literal => exact h.leaf rfl rfl
    | _ => cases ht
  part := h.part
  unionMember := h.unionMember
  unionOf := h.unionOf
  meetMember := h.meetMember
  meetOf := h.meetOf
  templateOf := h.templateOf
  keyOf := hk
  mapping := hm
  access := ha

namespace Operated
variable {P : Ty → Prop}

theorem literal (h : Operated P) (base : Prim) (text : String) : P (.literal base text) := h.atom rfl

theorem unionOf_pair (h : Operated P) {a b : Ty} (ha : P a) (hb : P b) : P (Ty.unionOf [a, b]) := by
  refine h.unionOf fun t ht => ?_
  rcases List.mem_cons.1 ht with rfl | ht
  · exact ha
  · exact List.mem_singleton.1 ht ▸ hb

/-! ### String mappings -/

mutual

theorem mapped (h : Operated P) (op : Mapping) : (t : Ty) → P t → P (t.mapped op)
  | .literal base text, _ => by
    rw [Ty.mapped]
    split
    · exact h.atom rfl
    · exact h.literal _ _
  | .union members, ht => by
    rw [Ty.mapped]
    exact h.unionOf (mappedAll h op members fun m hm => h.unionMember ht hm)
  | template segments, ht => by
    rw [Ty.mapped]
    exact h.templateOf (mappedSegments h op true segments fun t hm => h.part rfl ht hm)
  | prim p, ht => by
    cases p with
    | null | undefined => exact h.literal _ _
    | _ => exact h.mapping rfl ht
  | never, ht | any, ht => ht
  | absent, ht | unknown, ht | void, ht | .object .., ht | array .., ht | tuple _, ht | intersection _, ht | param .., ht
  | infer .., ht | conditional .., ht | reference .., ht | function .., ht | .keyOf _, ht | .access .., ht
  | .mapping .., ht => h.mapping rfl ht

theorem mappedAll (h : Operated P) (op : Mapping) : (ts : List Ty) → (∀ t ∈ ts, P t) → ∀ t ∈ mappedAll op ts, P t
  | u :: us, ht, t, hm => by
    rcases List.mem_cons.1 hm with rfl | hm
    · exact mapped h op u (ht u List.mem_cons_self)
    · exact mappedAll h op us (fun v hv => ht v (List.mem_cons_of_mem _ hv)) t hm

theorem mappedSegments (h : Operated P) (op : Mapping) : (leading : Bool) → (segments : List (Segment Ty)) →
    (∀ t ∈ holes segments, P t) → ∀ t ∈ holes (mappedSegments op leading segments), P t
  | leading, .text s :: rest, ht, t, hm => by
    have skip : holes (Ty.mappedSegments op leading (.text s :: rest)) = holes (Ty.mappedSegments op false rest) := by
      rw [Ty.mappedSegments]
      split <;> rfl
    rw [skip] at hm
    exact mappedSegments h op false rest ht t hm
  | leading, .hole u :: rest, ht, t, hm => by
    have hrest := mappedSegments h op false rest fun v hv => ht v (List.mem_cons_of_mem _ hv)
    rw [Ty.mappedSegments] at hm
    split at hm
    · rcases List.mem_cons.1 hm with rfl | hm
      · exact ht t List.mem_cons_self
      · exact hrest t hm
    · rcases List.mem_cons.1 hm with rfl | hm
      · exact mapped h op u (ht u List.mem_cons_self)
      · exact hrest t hm

end

/-! ### Keys -/

theorem keyLiteral (h : Operated P) (key : String) : P (keyLiteral key) := by
  unfold Ty.keyLiteral
  split
  · split <;> exact h.literal _ _
  · exact h.literal _ _

theorem anyKey (h : Operated P) : P anyKey := by
  refine h.unionOf fun t ht => ?_
  simp only [List.mem_cons, List.not_mem_nil, or_false] at ht
  rcases ht with rfl | rfl | rfl <;> exact h.atom rfl

theorem indexKeys (h : Operated P) (index : Option (IndexSignature Ty)) : ∀ t ∈ indexKeys index, P t := by
  intro t ht
  unfold Ty.indexKeys at ht
  split at ht
  · cases ht
  · split at ht
    · simp only [List.mem_cons, List.not_mem_nil, or_false] at ht
      rcases ht with rfl | rfl <;> exact h.atom rfl
    · exact List.mem_singleton.1 ht ▸ h.atom rfl

theorem positionKeys (h : Operated P) : (i : Nat) → (elems : List Ty) → ∀ t ∈ positionKeys i elems, P t
  | i, _ :: elems, t, ht => by
    rcases List.mem_cons.1 ht with rfl | ht
    · exact h.literal _ _
    · exact positionKeys h (i + 1) elems t ht

theorem sequenceKeys (h : Operated P) : ∀ t ∈ [number, stringLit lengthKey], P t := by
  intro t ht
  rcases List.mem_cons.1 ht with rfl | ht
  · exact h.atom rfl
  · exact List.mem_singleton.1 ht ▸ h.literal _ _

mutual

theorem keysOf (h : Operated P) : (t : Ty) → P t → P t.keysOf
  | .object props index, _ => by
    rw [Ty.keysOf]
    refine h.unionOf fun t ht => ?_
    rcases List.mem_append.1 ht with ht | ht
    · obtain ⟨p, -, rfl⟩ := List.mem_map.1 ht
      exact h.keyLiteral p.key
    · exact h.indexKeys index t ht
  | array .., _ => h.unionOf h.sequenceKeys
  | tuple elems, _ => by
    rw [Ty.keysOf]
    refine h.unionOf fun t ht => ?_
    rcases List.mem_append.1 ht with ht | ht
    · exact h.positionKeys 0 elems t ht
    · exact h.sequenceKeys t ht
  | .union members, ht => by
    rw [Ty.keysOf]
    exact h.meetOf (keysOfAll h members fun m hm => h.unionMember ht hm)
  | intersection members, ht => by
    rw [Ty.keysOf]
    exact h.unionOf (keysOfAll h members fun m hm => h.meetMember ht hm)
  | any, _ | never, _ => h.anyKey
  | unknown, _ | void, _ | prim _, _ | .literal .., _ | template _, _ | function .., _ | reference .., _ => h.atom rfl
  | absent, ht | param .., ht | infer .., ht | conditional .., ht | .keyOf _, ht | .access .., ht | .mapping .., ht =>
    h.keyOf rfl ht

theorem keysOfAll (h : Operated P) : (ts : List Ty) → (∀ t ∈ ts, P t) → ∀ t ∈ keysOfAll ts, P t
  | u :: us, ht, t, hm => by
    rcases List.mem_cons.1 hm with rfl | hm
    · exact keysOf h u (ht u List.mem_cons_self)
    · exact keysOfAll h us (fun v hv => ht v (List.mem_cons_of_mem _ hv)) t hm

end

/-! ### Indexed access -/

/-- The type behind a literal key. -/
theorem behindKey (h : Operated P) {props : List (Property Ty)} {signature : Option (IndexSignature Ty)} {text : String}
    {miss : Except TypeError Ty} {u : Ty}
    (hu : (match Shape.find? props text with
      | some p => pure (if p.optional then Ty.unionOf [p.type, undefined] else p.type)
      | none =>
        match signature with
        | some i => if i.covers text then pure i.value else miss
        | none => miss) = .ok u)
    (hp : ∀ p ∈ props, P p.type) (hi : ∀ i, signature = some i → P i.value) (hmiss : miss ≠ .ok u) : P u := by
  split at hu
  · rename_i p hf
    cases hu
    split
    · exact h.unionOf_pair (hp p (Shape.mem_of_find? hf)) (h.atom rfl)
    · exact hp p (Shape.mem_of_find? hf)
  · split at hu
    · split at hu
      · cases hu
        exact hi _ rfl
      · exact absurd hu hmiss
    · exact absurd hu hmiss

theorem indexShape (h : Operated P) {props : List (Property Ty)} {signature : Option (IndexSignature Ty)} {index u : Ty}
    (ht : P (.object props signature)) (hu : indexShape props signature index = .ok u) : P u := by
  have hp : ∀ p ∈ props, P p.type := fun p hp => h.part rfl ht (List.mem_append_left _ (List.mem_map_of_mem hp))
  have hi : ∀ i, signature = some i → P i.value := by
    rintro i rfl
    exact h.part rfl ht (List.mem_append_right _ List.mem_cons_self)
  simp only [Ty.indexShape] at hu
  split at hu
  · exact h.behindKey hu hp hi nofun
  · exact h.behindKey hu hp hi nofun
  · split at hu
    · split at hu
      · cases hu
        exact hi _ rfl
      · cases hu
    · cases hu

theorem indexTuple (h : Operated P) {elems : List Ty} {index u : Ty} (he : ∀ t ∈ elems, P t) (hu : indexTuple elems index = .ok u) :
    P u := by
  unfold Ty.indexTuple at hu
  split at hu
  · split at hu
    · cases hu
      exact h.literal _ _
    · split at hu
      · split at hu
        · cases hu
        · split at hu
          · rename_i t hg
            cases hu
            exact he _ (List.mem_of_getElem? hg)
          · cases hu
      · cases hu
  · split at hu
    · cases hu
      exact h.unionOf he
    · cases hu

theorem indexArray (h : Operated P) {elem : Ty} {readonly : Bool} {index u : Ty} (he : P elem)
    (hu : indexArray elem readonly index = .ok u) : P u := by
  unfold Ty.indexArray at hu
  split at hu
  · cases hu
    exact he
  · split at hu
    · cases hu
      exact h.atom rfl
    · cases hu

theorem unionOf_mapM (h : Operated P) {α : Type} {f : α → Except TypeError Ty} {xs : List α} {u : Ty}
    (hf : ∀ x ∈ xs, ∀ v, f x = .ok v → P v) (hu : (do return Ty.unionOf (← xs.mapM f)) = Except.ok u) : P u := by
  let R := Results.except TypeError
  have all : R.All (fun vs => ∀ v ∈ vs, P v) (xs.mapM f) := R.mapM hf
  have : R.All P (do return Ty.unionOf (← xs.mapM f)) := R.bind all fun vs hvs => R.pure (h.unionOf hvs)
  exact this u hu

/-- The type behind an index has the property. -/
theorem indexed (h : Operated P) {target index u : Ty} (ht : P target) (hi : P index) (hu : indexed target index = .ok u) : P u := by
  induction hn : target.size + index.size using Nat.strongRecOn generalizing target index u with
  | ind n ih =>
    cases hc : target.isConcrete && index.isConcrete with
    | false =>
      rw [indexed_open hc] at hu
      cases hu
      exact h.access hc ht hi
    | true =>
      rw [Ty.indexed.eq_def, if_neg (by rw [← Bool.not_and, hc]; nofun)] at hu
      split at hu
      · cases hu
        exact h.atom rfl
      · split at hu
        · refine h.unionOf_mapM (fun m _ v hv => ?_) hu
          have := size_le_of_mem m.2
          simp only [size] at hn
          exact ih _ (by omega) ht (h.unionMember hi m.2) hv rfl
        · refine h.unionOf_mapM (fun m _ v hv => ?_) hu
          have := size_le_of_mem m.2
          simp only [size] at hn
          exact ih _ (by omega) (h.unionMember ht m.2) hi hv rfl
        · cases hu
          exact h.atom rfl
        · exact h.indexShape ht hu
        · exact h.indexArray (h.part rfl ht List.mem_cons_self) hu
        · exact h.indexTuple (fun t hm => h.part rfl ht hm) hu
        · split at hu
          · cases hu
          · cases hu
            refine h.meetOf fun v hv => ?_
            obtain ⟨⟨m, hm⟩, -, hv⟩ := List.mem_filterMap.1 hv
            have := size_le_of_mem hm
            simp only [size] at hn
            exact ih _ (by omega) (h.meetMember ht hm) hi (eq_ok_of_toOption hv) rfl
        · cases hu

end Operated

/-! ### Failures -/

/-- A failure of a traversal is the failure of an element. -/
theorem mem_of_mapM_error {ε α β : Type} {f : α → Except ε β} {xs : List α} {e : ε} (h : xs.mapM f = .error e) :
    ∃ x ∈ xs, f x = .error e := by
  induction xs with
  | nil => cases h
  | cons x xs ih =>
    rw [List.mapM_cons] at h
    cases hx : f x with
    | error e' =>
      rw [hx] at h
      cases h
      exact ⟨x, List.mem_cons_self, hx⟩
    | ok y =>
      rw [hx] at h
      cases hxs : xs.mapM f with
      | error e' =>
        change (xs.mapM f >>= fun ys => pure (y :: ys)) = .error e at h
        rw [hxs] at h
        cases h
        obtain ⟨z, hz, he⟩ := ih hxs
        exact ⟨z, List.mem_cons_of_mem _ hz, he⟩
      | ok ys =>
        change (xs.mapM f >>= fun ys => pure (y :: ys)) = .error e at h
        rw [hxs] at h
        cases h

theorem mem_of_unionOf_mapM_error {α : Type} {f : α → Except TypeError Ty} {xs : List α} {e : TypeError}
    (h : (do return unionOf (← xs.mapM f)) = Except.error e) : ∃ x ∈ xs, f x = .error e := by
  cases hm : xs.mapM f with
  | error e' =>
    rw [hm] at h
    cases h
    exact mem_of_mapM_error hm
  | ok ys =>
    rw [hm] at h
    cases h

/-- An indexed access fails only on an index that cannot be used. -/
theorem indexed_error {target index : Ty} {e : TypeError} (h : indexed target index = .error e) :
    e.isUnresolvable = false := by
  have miss : ∀ {t i : Ty}, noSuchIndex t i = .error e → e.isUnresolvable = false := by
    rintro t i ⟨⟩
    rfl
  induction hn : target.size + index.size using Nat.strongRecOn generalizing target index with
  | ind n ih =>
    rw [indexed.eq_def] at h
    split at h
    · cases h
    · split at h
      · cases h
      · split at h
        · obtain ⟨m, -, hm⟩ := mem_of_unionOf_mapM_error h
          have := size_le_of_mem m.2
          simp only [size] at hn
          exact ih _ (by omega) hm rfl
        · obtain ⟨m, -, hm⟩ := mem_of_unionOf_mapM_error h
          have := size_le_of_mem m.2
          simp only [size] at hn
          exact ih _ (by omega) hm rfl
        · cases h
        · simp only [indexShape] at h
          repeat' split at h
          all_goals first | exact miss h | cases h
        · unfold indexArray at h
          repeat' split at h
          all_goals first | exact miss h | cases h
        · unfold indexTuple at h
          repeat' split at h
          all_goals first | exact miss h | cases h
        · split at h
          · exact miss h
          · cases h
        · exact miss h

end TypeCalculus.Ty

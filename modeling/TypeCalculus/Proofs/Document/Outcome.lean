import TypeCalculus.Proofs.Yaml.Anchors
import TypeCalculus.Proofs.Ty.Malformed
import TypeCalculus.Proofs.Ty.Idempotent

/-! What building a node comes to. Every step of building ends as far as the steps below it do, fails for malformed types
    only, and has a result only where the node is written as a type is (`Ends`). Each form is told by what stands at its type
    positions, so the whole follows by induction on the tree that the node unfolds to, or on the nesting of the steps where
    it need not be finite. -/

namespace TypeCalculus.Document
open Yaml (Node Graph)

/-! ### Steps that end -/

/-- What building stopped for is told, and for a malformed type, where it is safe. -/
def Stop.Told (safe : Prop) : Stop → Prop
  | .failed e => e.sentinel = .malformedType
  | .crashed => ¬safe

theorem Stop.Told.mono {safe safe' : Prop} (h : safe' → safe) {e : Stop} (he : e.Told safe) : e.Told safe' := by
  cases e with
  | failed e => exact he
  | crashed => exact mt h he

/-- The results of the step have a property, its failures are for malformed types, and it does not break off where it is
    safe; and it comes to an end, where it must. -/
structure Ends {α : Type} (must safe : Prop) (P : α → Prop) (x : Building α) : Prop where
  ends : must → ∃ r, x.run = some r
  gives : ∀ a, x.run = some (.ok a) → P a
  fails : ∀ e, x.run = some (.error e) → e.Told safe

section Ends
variable {must safe : Prop} {α β : Type} {P P' : α → Prop} {Q : β → Prop} {x : Building α} {f : α → Building β}

theorem ends_pure {a : α} (h : P a) : Ends must safe P (pure a) where
  ends _ := ⟨_, rfl⟩
  gives := by
    rintro _ ⟨⟩
    exact h
  fails := nofun

theorem ends_throw {e : Stop} (h : e.Told safe) : Ends must safe P (throw e) where
  ends _ := ⟨_, rfl⟩
  gives := nofun
  fails := by
    rintro _ ⟨⟩
    exact h

/-- A step that fails for a malformed type. -/
theorem ends_fault (n : Option Node) (f : NodeFault) : Ends must safe P (fault n f) := ends_throw rfl

/-- A step that breaks off, which is not safe. -/
theorem ends_crash (h : ¬safe) : Ends must safe P crash := ends_throw h

theorem Ends.bind (hx : Ends must safe P x) (hf : ∀ a, P a → Ends must safe Q (f a)) : Ends must safe Q (x >>= f) := by
  have whole : (x >>= f).run = x.run.bind (ExceptT.bindCont f) := rfl
  refine ⟨fun h => ?_, fun b hb => ?_, fun e he => ?_⟩
  · obtain ⟨r, hr⟩ := hx.ends h
    rw [whole, hr]
    cases r with
    | error e => exact ⟨.error e, rfl⟩
    | ok a => exact (hf a (hx.gives a hr)).ends h
  · rw [whole] at hb
    obtain ⟨r, hr, hb⟩ := Option.bind_eq_some_iff.1 hb
    cases r with
    | error => cases hb
    | ok a => exact (hf a (hx.gives a hr)).gives b hb
  · rw [whole] at he
    obtain ⟨r, hr, he⟩ := Option.bind_eq_some_iff.1 he
    cases r with
    | error e' =>
      cases he
      exact hx.fails e hr
    | ok a => exact (hf a (hx.gives a hr)).fails e he

/-- What would come after a failure does not matter. -/
theorem ends_fault_bind (n : Option Node) (e : NodeFault) : Ends must safe Q (fault n e >>= f) :=
  Ends.bind (P := fun _ => False) (ends_fault n e) nofun

theorem Ends.imp (hx : Ends must safe P x) (h : ∀ a, P a → P' a) : Ends must safe P' x :=
  ⟨hx.ends, fun a ha => h a (hx.gives a ha), hx.fails⟩

theorem Ends.mono {safe' : Prop} (hx : Ends must safe P x) (h : safe' → safe) : Ends must safe' P x :=
  ⟨hx.ends, hx.gives, fun e he => (hx.fails e he).mono h⟩

theorem ends_checked (n : Option Node) {x : Except TypeError α} (hx : Checks x) (h : ∀ a, x = .ok a → P a) :
    Ends must safe P (checked n x) := by
  cases x with
  | error e => exact ends_throw (hx e rfl)
  | ok a => exact ends_pure (h a rfl)

theorem ends_mapM {W : α → Prop} {xs : List α} (h : ∀ a ∈ xs, Ends must safe (fun _ => W a) (f a)) :
    Ends must safe (fun _ => ∀ a ∈ xs, W a) (xs.mapM f) := by
  induction xs with
  | nil => exact ends_pure nofun
  | cons a xs ih =>
    obtain ⟨ha, hxs⟩ := List.forall_mem_cons.1 h
    rw [List.mapM_cons]
    exact ha.bind fun _ hw => (ih hxs).bind fun _ hws => ends_pure (List.forall_mem_cons.2 ⟨hw, hws⟩)

end Ends

/-! ### Reading parts -/

section Parts
variable {must safe : Prop}

theorem ends_scalar (n : Option Node) : Ends must safe (fun _ => True) (scalar n) := by
  unfold scalar
  split
  · exact ends_pure trivial
  · exact ends_fault _ _

theorem ends_items (n : Node) (f : NodeFault) : Ends must safe (fun ns => listed n = ns) (items (some n) f) := by
  unfold items
  split
  · rename_i h
    cases h
    exact ends_pure rfl
  · exact ends_fault _ _

/-- What is found under a key: the nodes that the values of the entries are or refer to, or none if one of them is an alias
    that leads nowhere. -/
structure Finds (g : Graph) (f : Fields) (key : String) (n : Node) : Prop where
  found : ∀ m, f.lookup key = some (some m) ↔ m ∈ under g key n
  dangling : f.lookup key = some none → ∃ v ∈ below n, g.resolve v = none

theorem ends_fieldsOf (g : Graph) (allowed : List String) (found : Fields) (entries : List (Node × Node)) :
    Ends must safe (fun f => KeyedEntries allowed entries ∧ (∀ e ∈ entries, found.lookup e.1.value = none) ∧
      ∀ key v, f.lookup key = some v ↔ found.lookup key = some v ∨ ∃ e ∈ entries, e.1.value = key ∧ g.resolve e.2 = v)
      (fieldsOf g allowed found entries) := by
  induction entries generalizing found with
  | nil => exact ends_pure ⟨⟨nofun, List.nodup_nil⟩, nofun, by simp⟩
  | cons e rest ih =>
    obtain ⟨k, v⟩ := e
    unfold fieldsOf
    dsimp only
    split
    · exact ends_fault_bind _ _
    rename_i known
    split
    · exact ends_fault_bind _ _
    rename_i new
    refine (ih _).imp fun f ⟨keyed, fresh, lookup⟩ => ?_
    have known : k.value ∈ allowed := by simpa using known
    have new : found.lookup k.value = none := Option.not_isSome_iff_eq_none.1 new
    have apart : ∀ e ∈ rest, found.lookup e.1.value = none ∧ e.1.value ≠ k.value := by
      intro e he
      have := fresh e he
      simp only [List.lookup_append, Option.or_eq_none_iff] at this
      refine ⟨this.1, fun hk => ?_⟩
      rw [hk] at this
      simp at this
    refine ⟨⟨List.forall_mem_cons.2 ⟨known, keyed.known⟩, ?_⟩, List.forall_mem_cons.2 ⟨new, fun e he => (apart e he).1⟩, ?_⟩
    · rw [List.map_cons, List.nodup_cons]
      refine ⟨fun hm => ?_, keyed.once⟩
      obtain ⟨e, he, hk⟩ := List.mem_map.1 hm
      exact (apart e he).2 hk
    · intro key w
      rw [lookup key w, List.lookup_append]
      simp only [List.mem_cons, exists_eq_or_imp]
      by_cases hk : k.value = key
      · subst hk
        rw [new]
        simp
      · have other : (key == k.value) = false := by simpa using Ne.symm hk
        simp [List.lookup, other, hk]

/-- Reading a record finds the value under each key. -/
theorem ends_fields (g : Graph) (n : Node) (allowed : List String) :
    Ends must safe (fun f => Keyed allowed n ∧ ∀ key, Finds g f key n) (fields g (some n) allowed) := by
  unfold fields
  split
  · rename_i h
    cases h
    refine (ends_fieldsOf g allowed [] _).imp fun f ⟨keyed, _, lookup⟩ => ⟨keyed, fun key => ⟨fun m => ?_, fun h => ?_⟩⟩
    · rw [lookup key]
      simp [under, valuesOf]
    · obtain h | ⟨e, he, -, hv⟩ := (lookup key none).1 h
      · cases h
      · exact ⟨e.2, List.mem_map_of_mem he, hv⟩
  · exact ends_fault _ _

theorem ends_requiredNode (parent : Option Node) (f : Fields) (key : String) :
    Ends must safe (fun m => f.lookup key = some m) (requiredNode parent f key) := by
  unfold requiredNode
  split
  · exact ends_pure ‹_›
  · exact ends_fault _ _

theorem ends_flag (f : Fields) (key : String) : Ends must safe (fun _ => True) (flag f key) := by
  unfold flag
  split
  · exact ends_pure trivial
  · refine (ends_scalar _).bind fun text _ => ?_
    split
    · exact ends_pure trivial
    · exact ends_fault _ _

end Parts

/-! ### Forms -/

theorem builtIn_ne_absent {name : String} {make : Ty → Ty} (h : builtIn? name = some make) (t : Ty) : make t ≠ .absent := by
  unfold builtIn? at h
  split at h
  · cases h
    nofun
  · split at h
    · cases h
      nofun
    · obtain ⟨op, -, rfl⟩ := Option.map_eq_some_iff.1 h
      nofun

section Forms
variable {must safe : Prop} {g : Graph} {self : Node → Building Ty} {W : Node → Prop}

/-- The types of the nodes can be built, and then the nodes have the property. -/
abbrev Settles (must safe : Prop) (self : Node → Building Ty) (W : Node → Prop) (ms : List Node) : Prop :=
  ∀ m ∈ ms, Ends must safe (fun _ => W m) (self m)

theorem ends_keyword (n : Option Node) : Ends must safe (· ≠ .absent) (buildKeyword n) := by
  refine (ends_scalar n).bind fun name _ => ?_
  split
  case h_6 => exact ends_fault _ _
  all_goals exact ends_pure nofun

theorem ends_primitive (n : Option Node) : Ends must safe (· ≠ .absent) (buildPrimitive n) := by
  refine (ends_scalar n).bind fun name _ => ?_
  split
  · exact ends_pure nofun
  · exact ends_fault _ _

theorem ends_literal (n : Option Node) (base : Prim) : Ends must safe (· ≠ .absent) (buildLiteral n base) :=
  (ends_scalar n).bind fun _ _ => ends_checked n (Ty.checks_readLiteral _ _) fun _ h => Ty.readLiteral_ne_absent h

section Field
variable {n : Node} {f : Fields} {key : String} (hf : Finds g f key n)
include hf

theorem Finds.eq_of_mem_under {m m' : Node} (hm : f.lookup key = some (some m)) (hm' : m' ∈ under g key n) : m' = m := by
  rw [← hf.found, hm] at hm'
  cases hm'
  rfl

theorem Finds.under_eq_nil (h : ∀ m, f.lookup key ≠ some (some m)) : under g key n = [] :=
  List.eq_nil_iff_forall_not_mem.2 fun m hm => h m ((hf.found m).2 hm)

theorem ends_found (h : Settles must safe self W (under g key n)) {m : Option Node} (hm : f.lookup key = some m) :
    Ends must safe (fun _ => ∀ m ∈ under g key n, W m) (typeAt self m) := by
  cases m with
  | none => exact ends_fault _ _
  | some m => exact (h m ((hf.found m).1 hm)).imp fun _ hw m' hm' => hf.eq_of_mem_under hm hm' ▸ hw

theorem ends_required (h : Settles must safe self W (under g key n)) (parent : Option Node) :
    Ends must safe (fun _ => ∀ m ∈ under g key n, W m) (required self parent f key) :=
  (ends_requiredNode parent f key).bind fun _ hm => ends_found hf h hm

theorem ends_optional (h : Settles must safe self W (under g key n)) :
    Ends must safe (fun _ => ∀ m ∈ under g key n, W m) (optional self f key) := by
  unfold optional
  split
  · exact ends_found hf h ‹_›
  · rename_i hm
    refine ends_pure ?_
    rw [hf.under_eq_nil (by simp [hm])]
    exact nofun

end Field

theorem ends_all {n : Node} (h : Settles must safe self W (listed n)) :
    Ends must safe (fun _ => ∀ m ∈ listed n, W m) (buildAll self (some n)) := by
  refine (ends_items n .notTypes).bind fun ms hms => ?_
  rw [hms] at h ⊢
  exact ends_mapM h

theorem mem_flatMap_under {n u : Node} {f : Fields} {key : String} (hf : Finds g f key n)
    {below : Node → List Node} : u ∈ (under g key n).flatMap below ↔ ∃ m, f.lookup key = some (some m) ∧ u ∈ below m := by
  simp only [List.mem_flatMap, hf.found]

/-- A list of types that may be missing. -/
theorem ends_list {n : Node} {f : Fields} {key : String} (hf : Finds g f key n)
    (h : Settles must safe self W ((under g key n).flatMap listed)) :
    (∀ m, f.lookup key = some m → Ends must safe (fun _ => ∀ u ∈ (under g key n).flatMap listed, W u) (buildAll self m)) ∧
      (f.lookup key = none → ∀ u ∈ (under g key n).flatMap listed, W u) := by
  refine ⟨fun m hm => ?_, fun hm u hu => ?_⟩
  · cases m with
    | none => exact ends_fault_bind _ _
    | some m =>
      have items : Settles must safe self W (listed m) := fun u hu => h u ((mem_flatMap_under hf).2 ⟨m, hm, hu⟩)
      refine (ends_all items).imp fun _ hw u hu => ?_
      obtain ⟨m', hm', hu⟩ := (mem_flatMap_under hf).1 hu
      cases hm.symm.trans hm'
      exact hw u hu
  · obtain ⟨m, hm', -⟩ := (mem_flatMap_under hf).1 hu
    cases hm.symm.trans hm'

theorem ends_named {n : Node} (h : Settles must safe self W (under g "constraint" n)) :
    Ends must safe (fun _ => (isScalar n = true ∨ Keyed ["name", "constraint"] n) ∧ ∀ m ∈ under g "constraint" n, W m)
      (buildNamed g self (some n)) := by
  unfold buildNamed
  split
  · rename_i hn
    cases hn
    split
    · exact ends_fault _ _
    · exact ends_pure ⟨.inl rfl, nofun⟩
  · refine (ends_fields g n _).bind fun f ⟨keyed, hf⟩ => (ends_requiredNode _ f "name").bind fun m _ => ?_
    refine (ends_scalar m).bind fun _ _ => (ends_optional (hf _) h).bind fun _ hw => ends_pure ⟨.inr keyed, hw⟩

/-- What building a template finds out of one of its segments. -/
def SegmentWritten (g : Graph) (W : Node → Prop) (item : Node) : Prop :=
  ∀ m, g.resolve item = some m → isScalar m = false → W m

theorem ends_segment {item : Node} (link : safe → g.resolve item ≠ none)
    (h : ∀ m, g.resolve item = some m → isScalar m = false → Ends must safe (fun _ => W m) (self m)) :
    Ends must safe (fun _ => SegmentWritten g W item) (buildSegment g self item) := by
  unfold buildSegment
  split
  · rename_i hm
    exact ends_crash fun hs => link hs hm
  · rename_i hm
    refine ends_pure fun m' hm' hs => ?_
    cases hm.symm.trans hm'
    cases hs
  · rename_i m hs hm
    have hole : isScalar m = false := by cases m <;> first | rfl | exact absurd rfl (hs _ _ _)
    refine (h m hm hole).bind fun _ hw => ends_pure fun m' hm' _ => ?_
    cases hm.symm.trans hm'
    exact hw

theorem ends_template {n : Node} (links : safe → ∀ v ∈ below n, g.resolve v ≠ none)
    (h : Settles must safe self W (positionsOf g "template" n)) :
    Ends must safe (fun t => t ≠ .absent ∧ ∀ m ∈ positionsOf g "template" n, W m) (buildTemplate g self (some n)) := by
  have segment : ∀ item ∈ listed n, Ends must safe (fun _ => SegmentWritten g W item) (buildSegment g self item) :=
    fun item hi => ends_segment (fun hs => links hs item (mem_below_of_mem_listed hi)) fun m hm hole =>
      h m (List.mem_filter.2 ⟨List.mem_filterMap.2 ⟨item, hi, hm⟩, by rw [hole]; rfl⟩)
  refine (ends_items n .notSegments).bind fun ms hms => ?_
  rw [hms] at segment
  refine (ends_mapM segment).bind fun segments hw => ends_checked _ (Ty.checks_newTemplate _) fun t ht => ?_
  refine ⟨Ty.newTemplate_ne_absent ht, fun m hm => ?_⟩
  obtain ⟨hm, hs⟩ := List.mem_filter.1 hm
  obtain ⟨item, hi, hr⟩ := List.mem_filterMap.1 hm
  exact hw item (hms ▸ hi) m hr (by simpa using hs)

/-- What building an object finds out of its index signature. -/
def IndexWritten (g : Graph) (W : Node → Prop) (n : Node) : Prop :=
  Keyed ["key", "value"] n ∧ ∀ m ∈ under g "value" n, W m

theorem ends_index {n : Node} (h : Settles must safe self W (under g "value" n)) :
    Ends must safe (fun _ => IndexWritten g W n) (buildIndex g self (some n)) := by
  refine (ends_fields g n _).bind fun f ⟨keyed, hf⟩ => (ends_requiredNode _ f "key").bind fun key _ => ?_
  refine (ends_scalar key).bind fun _ _ => ?_
  split
  · exact ends_fault _ _
  · exact (ends_required (hf _) h _).bind fun _ hw => ends_pure ⟨keyed, hw⟩

/-- What building an object finds out of one of its properties. -/
def PropertyWritten (g : Graph) (W : Node → Prop) (item : Node) : Prop :=
  ∃ m, g.resolve item = some m ∧ Keyed ["name", "type", "optional", "readonly"] m ∧ ∀ u ∈ under g "type" m, W u

/-- A property is written like a record, and its type is built. -/
theorem ends_property {item : Node} (h : ∀ m, g.resolve item = some m → Settles must safe self W (under g "type" m)) :
    Ends must safe (fun _ => PropertyWritten g W item) (buildProperty g self item) := by
  unfold buildProperty
  dsimp only
  cases hm : g.resolve item with
  | none => exact ends_fault_bind _ _
  | some m =>
    refine (ends_fields g m _).bind fun f ⟨keyed, hf⟩ => ?_
    refine (ends_requiredNode _ f "name").bind fun name _ => (ends_scalar name).bind fun _ _ => ?_
    refine (ends_required (hf _) (h m hm) _).bind fun _ hw => ?_
    exact (ends_flag f "optional").bind fun _ _ => (ends_flag f "readonly").bind fun _ _ => ends_pure ⟨m, hm, keyed, hw⟩

/-- The properties of an object, each written like a record. -/
theorem ends_props {n : Node} {f : Fields} (hf : Finds g f "props" n) (links : safe → ∀ v ∈ below n, g.resolve v ≠ none)
    (h : Settles must safe self W ((properties g n).flatMap (under g "type"))) :
    Ends must safe (fun _ => ∀ p ∈ (under g "props" n).flatMap listed, PropertyWritten g W p) (buildProps g self f) := by
  unfold buildProps
  split
  · rename_i hp
    obtain ⟨v, hv, hr⟩ := hf.dangling hp
    exact ends_crash fun hs => links hs v hv hr
  · rename_i props present hp
    cases props with
    | none => exact absurd rfl present
    | some p =>
      refine (ends_items p .notProps).bind fun items hi => ?_
      have inside : ∀ item ∈ items, item ∈ (under g "props" n).flatMap listed := fun item hm =>
        (mem_flatMap_under hf).2 ⟨p, hp, hi ▸ hm⟩
      have property : ∀ item ∈ items, Ends must safe (fun _ => PropertyWritten g W item) (buildProperty g self item) :=
        fun item hm => ends_property fun m hr u hu =>
          h u (List.mem_flatMap.2 ⟨m, List.mem_filterMap.2 ⟨item, inside item hm, hr⟩, hu⟩)
      refine (ends_mapM property).imp fun _ written item hm => ?_
      obtain ⟨p', hp', hm⟩ := (mem_flatMap_under hf).1 hm
      cases hp.symm.trans hp'
      exact written item (hi ▸ hm)
  · rename_i hp
    refine ends_pure fun item hm => ?_
    obtain ⟨p', hp', -⟩ := (mem_flatMap_under hf).1 hm
    cases hp.symm.trans hp'

/-- The index signature of an object, written like a record. -/
theorem ends_signature {n : Node} {f : Fields} (hf : Finds g f "index" n)
    (h : Settles must safe self W ((under g "index" n).flatMap (under g "value"))) :
    Ends must safe (fun _ => ∀ i ∈ under g "index" n, IndexWritten g W i) (buildSignature g self f) := by
  unfold buildSignature
  split
  · rename_i i hi
    cases i with
    | none => exact ends_fault_bind _ _
    | some i =>
      have values : Settles must safe self W (under g "value" i) := fun u hu => h u ((mem_flatMap_under hf).2 ⟨i, hi, hu⟩)
      exact (ends_index values).bind fun _ signed => ends_pure fun i' hi' => hf.eq_of_mem_under hi hi' ▸ signed
  · rename_i hi
    refine ends_pure ?_
    rw [hf.under_eq_nil (by simp [hi])]
    exact nofun

theorem ends_object {n : Node} (links : safe → ∀ v ∈ below n, g.resolve v ≠ none)
    (h : Settles must safe self W (positionsOf g "object" n)) :
    Ends must safe (fun t => t ≠ .absent ∧ RecordsOf g "object" n ∧ ∀ m ∈ positionsOf g "object" n, W m)
      (buildObject g self (some n)) := by
  obtain ⟨typed, valued⟩ := List.forall_mem_append.1 h
  unfold buildObject
  dsimp only
  split
  · rename_i empty
    refine ends_pure ⟨nofun, .inl empty, ?_⟩
    cases n <;> first | cases empty | exact nofun
  refine (ends_fields g n _).bind fun f ⟨keyed, hf⟩ => (ends_props (hf _) links typed).bind fun props written => ?_
  refine (ends_signature (hf _) valued).bind fun signature signed => ends_checked _ (Ty.checks_newObject _ _) fun t ht => ?_
  refine ⟨Ty.newObject_ne_absent ht, .inr ⟨keyed, fun p hp => ?_, fun i hi => (signed i hi).1⟩, ?_⟩
  · obtain ⟨m, hm, keyed, -⟩ := written p hp
    exact ⟨m, hm, keyed⟩
  · refine List.forall_mem_append.2 ⟨fun u hu => ?_, fun u hu => ?_⟩
    · obtain ⟨m, hm, hu⟩ := List.mem_flatMap.1 hu
      obtain ⟨p, hp, hr⟩ := List.mem_filterMap.1 hm
      obtain ⟨m', hm', -, hw⟩ := written p hp
      cases hm'.symm.trans hr
      exact hw u hu
    · obtain ⟨i, hi, hu⟩ := List.mem_flatMap.1 hu
      exact (signed i hi).2 u hu

theorem ends_reference {n : Node} (h : Settles must safe self W (positionsOf g "ref" n)) :
    Ends must safe (fun t => t ≠ .absent ∧ Keyed ["name", "args"] n ∧ ∀ m ∈ positionsOf g "ref" n, W m) (buildReference g self (some n)) := by
  refine (ends_fields g n _).bind fun f ⟨keyed, hf⟩ => (ends_requiredNode _ f "name").bind fun m _ => ?_
  refine (ends_scalar m).bind fun name _ => ?_
  extract_lets finish
  have applied : (∀ m ∈ positionsOf g "ref" n, W m) → ∀ ts,
      Ends must safe (fun t => t ≠ .absent ∧ Keyed ["name", "args"] n ∧ ∀ m ∈ positionsOf g "ref" n, W m) (finish ts) := by
    intro hw ts
    dsimp only [finish]
    split
    · exact ends_pure ⟨nofun, keyed, hw⟩
    · rename_i make hm
      split
      · exact ends_pure ⟨builtIn_ne_absent hm _, keyed, hw⟩
      · exact ends_fault _ _
  obtain ⟨args, rest⟩ := ends_list (hf "args") h
  split
  · rename_i a ha
    exact (args a ha).bind fun ts hw => applied hw ts
  · rename_i ha
    exact applied (rest ha) []

theorem ends_function {n : Node} (h : Settles must safe self W (positionsOf g "function" n)) :
    Ends must safe (fun t => t ≠ .absent ∧ Keyed ["params", "result"] n ∧ ∀ m ∈ positionsOf g "function" n, W m)
      (buildFunction g self (some n)) := by
  obtain ⟨params, result⟩ := List.forall_mem_append.1 h
  refine (ends_fields g n _).bind fun f ⟨keyed, hf⟩ => ?_
  extract_lets finish
  have resulting : (∀ m ∈ (under g "params" n).flatMap listed, W m) → ∀ ts,
      Ends must safe (fun t => t ≠ .absent ∧ Keyed ["params", "result"] n ∧ ∀ m ∈ positionsOf g "function" n, W m) (finish ts) :=
    fun hw ts => (ends_optional (hf _) result).bind fun _ hr =>
      ends_pure ⟨nofun, keyed, List.forall_mem_append.2 ⟨hw, hr⟩⟩
  obtain ⟨listed, rest⟩ := ends_list (hf "params") params
  split
  · rename_i p hp
    exact (listed p hp).bind fun ts hw => resulting hw ts
  · rename_i hp
    exact resulting (rest hp) []

theorem ends_access {n : Node} (h : Settles must safe self W (positionsOf g "index" n)) :
    Ends must safe (fun t => t ≠ .absent ∧ Keyed ["object", "index"] n ∧ ∀ m ∈ positionsOf g "index" n, W m) (buildAccess g self (some n)) := by
  obtain ⟨target, index⟩ := List.forall_mem_append.1 h
  refine (ends_fields g n _).bind fun f ⟨keyed, hf⟩ => (ends_required (hf _) target _).bind fun _ ht => ?_
  refine (ends_required (hf _) index _).bind fun _ hi => ends_pure ⟨nofun, keyed, List.forall_mem_append.2 ⟨ht, hi⟩⟩

theorem ends_mapping {n : Node} (h : Settles must safe self W (positionsOf g "intrinsic" n)) :
    Ends must safe (fun t => t ≠ .absent ∧ Keyed ["op", "arg"] n ∧ ∀ m ∈ positionsOf g "intrinsic" n, W m) (buildMapping g self (some n)) := by
  refine (ends_fields g n _).bind fun f ⟨keyed, hf⟩ => (ends_requiredNode _ f "op").bind fun m _ => ?_
  refine (ends_scalar m).bind fun name _ => ?_
  split
  · exact ends_fault _ _
  · exact (ends_required (hf _) h _).bind fun _ hw => ends_pure ⟨nofun, keyed, hw⟩

theorem ends_conditional {n : Node} (h : Settles must safe self W (positionsOf g "conditional" n)) :
    Ends must safe (fun t => t ≠ .absent ∧ Keyed ["check", "extends", "then", "else"] n ∧ ∀ m ∈ positionsOf g "conditional" n, W m)
      (buildConditional g self (some n)) := by
  obtain ⟨h, no⟩ := List.forall_mem_append.1 h
  obtain ⟨h, yes⟩ := List.forall_mem_append.1 h
  obtain ⟨check, bound⟩ := List.forall_mem_append.1 h
  refine (ends_fields g n _).bind fun f ⟨keyed, hf⟩ => (ends_required (hf _) check _).bind fun _ hc => ?_
  refine (ends_required (hf _) bound _).bind fun _ hb => (ends_required (hf _) yes _).bind fun _ hy => ?_
  refine (ends_required (hf _) no _).bind fun _ hn => ends_checked _ (Ty.checks_newConditional _ _ _ _) fun t ht => ?_
  refine ⟨Ty.newConditional_ne_absent ht, keyed, ?_⟩
  exact List.forall_mem_append.2 ⟨List.forall_mem_append.2 ⟨List.forall_mem_append.2 ⟨hc, hb⟩, hy⟩, hn⟩

/-- Every form ends, if the nodes at its type positions do. Where it is built, its key is a known form and its records are
    written as they have to be. -/
theorem ends_form {keyNode n : Node} (links : safe → ∀ v ∈ below n, g.resolve v ≠ none)
    (h : Settles must safe self W (positionsOf g keyNode.value n)) :
    Ends must safe (fun t => t ≠ .absent ∧ keyNode.value ∈ forms ∧ RecordsOf g keyNode.value n ∧
      ∀ m ∈ positionsOf g keyNode.value n, W m) (buildForm g self keyNode (some n)) := by
  unfold buildForm
  split
  case h_23 => exact ends_fault _ _
  all_goals rename_i hk; rw [hk] at h ⊢; clear hk
  case h_1 => exact (ends_keyword _).imp fun t ht => ⟨ht, by decide, trivial, nofun⟩
  case h_2 => exact (ends_primitive _).imp fun t ht => ⟨ht, by decide, trivial, nofun⟩
  case h_3 => exact (ends_scalar _).bind fun _ _ => ends_pure ⟨nofun, by decide, trivial, nofun⟩
  case h_4 | h_5 | h_6 | h_7 => exact (ends_literal _ _).imp fun t ht => ⟨ht, by decide, trivial, nofun⟩
  case h_8 => exact (ends_template links h).imp fun t ⟨ht, hw⟩ => ⟨ht, by decide, trivial, hw⟩
  case h_9 => exact (ends_object links h).imp fun t ⟨ht, hr, hw⟩ => ⟨ht, by decide, hr, hw⟩
  case h_10 | h_11 | h_19 =>
    refine (h n List.mem_cons_self).bind fun t hw => ends_pure ⟨nofun, by decide, trivial, List.forall_mem_singleton.2 hw⟩
  case h_12 => exact (ends_all h).bind fun ts hw => ends_pure ⟨nofun, by decide, trivial, hw⟩
  case h_13 => exact (ends_all h).bind fun ts hw => ends_pure ⟨Ty.unionOf_ne_absent ts, by decide, trivial, hw⟩
  case h_14 => exact (ends_all h).bind fun ts hw => ends_pure ⟨Ty.meetOf_ne_absent ts, by decide, trivial, hw⟩
  case h_15 | h_16 => exact (ends_named h).bind fun p ⟨hr, hw⟩ => ends_pure ⟨nofun, by decide, hr, hw⟩
  case h_17 => exact (ends_reference h).imp fun t ⟨ht, hr, hw⟩ => ⟨ht, by decide, hr, hw⟩
  case h_18 => exact (ends_function h).imp fun t ⟨ht, hr, hw⟩ => ⟨ht, by decide, hr, hw⟩
  case h_20 => exact (ends_access h).imp fun t ⟨ht, hr, hw⟩ => ⟨ht, by decide, hr, hw⟩
  case h_21 => exact (ends_mapping h).imp fun t ⟨ht, hr, hw⟩ => ⟨ht, by decide, hr, hw⟩
  case h_22 => exact (ends_conditional h).imp fun t ⟨ht, hr, hw⟩ => ⟨ht, by decide, hr, hw⟩

/-- No form has a result where its parts are not there; only that of an object breaks off. -/
theorem ends_form_none {P : Ty → Prop} (keyNode : Node) (dangling : ¬safe) :
    Ends must safe P (buildForm g self keyNode none) := by
  unfold buildForm
  split
  case h_9 => exact ends_crash dangling
  case h_23 => exact ends_fault _ _
  all_goals exact ends_fault_bind _ _

theorem ends_step {n : Node} (linked : safe → Linked g n) (h : Settles must safe self (Written g) (positions g n)) :
    Ends must safe (fun t => t ≠ .absent ∧ Written g n) (buildStep g self n) := by
  unfold buildStep
  split
  · exact ends_fault _ _
  · rename_i key value hm
    have parts : ∀ {m}, g.resolve n = some m → value ∈ below m → safe → Linked g value := fun hm hv hs =>
      ((linked hs).resolved hm).below hv
    cases hp : g.resolve value with
    | none => exact ends_form_none key fun hs => (parts hm (List.mem_singleton.2 rfl) hs).resolve_ne_none hp
    | some m =>
      rw [positions_of_resolve hm hp] at h
      have links : safe → ∀ v ∈ below m, g.resolve v ≠ none := fun hs v hv =>
        (((parts hm (List.mem_singleton.2 rfl) hs).resolved hp).below hv).resolve_ne_none
      exact (ends_form links h).imp fun t ⟨ht, known, records, hw⟩ => ⟨ht, .type hm hp known records hw⟩
  · exact ends_fault _ _

end Forms

/-! ### Nodes within an allowance

What building comes to where it stops after some nested steps it comes to as well where it goes on, so a node can be built by
evaluation. -/

/-- Builds a type within an allowance of nested steps. -/
def buildWithin (g : Graph) : (steps : Nat) → Node → Building Ty
  | 0, _ => ExceptT.mk none
  | steps + 1, n => buildStep g (buildWithin g steps) n

theorem outcome_of_within {g : Graph} {steps : Nat} {n : Node} {r : Except Stop Ty}
    (h : (buildWithin g steps n).run = some r) : outcome g n = some r := by
  induction steps generalizing n r with
  | zero => cases h
  | succ steps ih =>
    rw [outcome]
    exact buildStep_extend (fun n r hr => ih hr) n r h

/-! ### Outcomes -/

/-- Whatever building a node comes to is documented, but where an alias leads nowhere. -/
theorem told_of_outcome {g : Graph} {n : Node} {r : Except Stop Ty} (h : outcome g n = some r) :
    (∀ t, r = .ok t → t ≠ .absent ∧ Written g n) ∧ ∀ e, r = .error e → e.Told (Linked g n) := by
  refine Yaml.Graph.outcome.partial_correctness g (fun n r => (∀ t, r = .ok t → t ≠ .absent ∧ Written g n) ∧
    ∀ e, r = .error e → e.Told (Linked g n)) (fun self hself n r hr => ?_) n r h
  have parts : Settles False (Linked g n) (fun n => ExceptT.mk (self n)) (Written g) (positions g n) := fun m hm =>
    ⟨nofun, fun t ht => ((hself m _ ht).1 t rfl).2, fun e he => ((hself m _ he).2 e rfl).mono fun hl => hl.position hm⟩
  have step := ends_step id parts
  exact ⟨fun t ht => step.gives t (ht ▸ hr), fun e he => step.fails e (he ▸ hr)⟩

/-- Building a node comes to an end where it unfolds to a finite tree. -/
theorem outcome_of_unfolds {g : Graph} {n : Node} (h : Unfolds g n) : ∃ r, outcome g n = some r := by
  have ends : Ends True (Linked g n) (fun t => t ≠ .absent ∧ Written g n) (ExceptT.mk (outcome g n)) := by
    induction h with
    | @node n _ ih =>
      rw [outcome]
      exact ends_step id fun m hm => ((ih m hm).imp fun _ => And.right).mono fun hl => hl.position hm
  exact ends.ends trivial

/-- Where every alias leads to a node, building that ends does so with a type or a failure. -/
theorem outcome_of_linked {g : Graph} {n : Node} (linked : Linked g n) {r : Except Stop Ty} (h : outcome g n = some r) :
    r = (build g n).mapError .failed := by
  unfold build
  rw [h]
  cases r with
  | ok t => rfl
  | error e =>
    cases e with
    | failed e => rfl
    | crashed => exact absurd linked ((told_of_outcome h).2 _ rfl)

/-- Let each alias that can be come by from the node lead to a node. Building it comes to an end where it unfolds to a
    finite tree, with a type or with a failure. Where building any such node ends with a failure, it is one for a malformed
    type, wherever in the tree and by whichever form or constructor the fault was found; where it ends with a type, the node
    is written as types are. -/
theorem build_fails_as_documented {g : Graph} {n : Node} (linked : Linked g n) :
    (Unfolds g n → outcome g n = some ((build g n).mapError .failed)) ∧
    (∀ e, outcome g n = some (.error e) → ∃ f, e = .failed f ∧ f.sentinel = .malformedType) ∧
    ∀ t, outcome g n = some (.ok t) → t ≠ .absent ∧ Written g n := by
  refine ⟨fun h => ?_, fun e he => ?_, fun t ht => (told_of_outcome ht).1 t rfl⟩
  · obtain ⟨r, hr⟩ := outcome_of_unfolds h
    exact outcome_of_linked linked hr ▸ hr
  · have told := (told_of_outcome he).2 e rfl
    cases e with
    | failed f => exact ⟨f, rfl, told⟩
    | crashed => exact absurd linked told

/-- A tuple whose second element is an alias of the first. -/
def sharedText : String := "tuple: [&a \x7bkeyword: any\x7d, *a]"

def anyNode : Node := .mapping 1 "!!map" [(.scalar 1 "!!str" "keyword", .scalar 1 "!!str" "any")]

def shared : Node := .mapping 1 "!!map" [(.scalar 1 "!!str" "tuple", .sequence 1 "!!seq" [anyNode, .link 1 "a" 0])]

def sharedGraph : Graph := ⟨some shared, [(0, anyNode)]⟩

theorem parse_shared : Yaml.parse sharedText = .ok sharedGraph := by cbv

theorem linked_shared : Linked sharedGraph shared := Yaml.linked_of_parse parse_shared rfl

/-- The tuple is built from a text that was read. -/
theorem build_shared_as_documented :
    Yaml.parse sharedText = .ok sharedGraph ∧ sharedGraph.root = some shared ∧ Linked sharedGraph shared ∧
      outcome sharedGraph shared = some (.ok (.tuple [.any, .any])) ∧ Written sharedGraph shared := by
  have built : outcome sharedGraph shared = some (.ok (.tuple [.any, .any])) := @outcome_of_within sharedGraph 2 shared _ rfl
  exact ⟨parse_shared, rfl, linked_shared, built, ((build_fails_as_documented linked_shared).2.2 _ built).2⟩

end TypeCalculus.Document

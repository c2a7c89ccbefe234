import TypeCalculus.Proofs.Assignable.Narrows
import TypeCalculus.Proofs.Substitute.Idempotent
import TypeCalculus.Proofs.Ty.Idempotent
import TypeCalculus.Proofs.Ty.Lasting
import TypeCalculus.Proofs.Ty.Validity
import TypeCalculus.Ty.Object

/-! Index signatures under substitution. A shape is checked when it is made, as far as its types are known, and a
    substitution puts it together again unchecked. What the check has decided stays decided as long as no property that it
    left open is settled later and no shape with an index signature is merged with another one
    (`index_signatures_survive`). -/

namespace TypeCalculus.Ty

/-! ### Checked shapes -/

/-- If the type is a shape, it passes the checks of its members. -/
def Accepted (t : Ty) : Prop := ∀ props index, t = object props index → newObject props index = .ok t

theorem checkProps_eq_ok {props : List (Property Ty)} {seen : List String} : checkProps seen props = .ok () ↔
    (∀ p ∈ props, p.type ≠ absent ∧ p.key ∉ seen) ∧ props.Pairwise fun p q => p.key ≠ q.key := by
  induction props generalizing seen with
  | nil => exact ⟨fun _ => ⟨List.forall_mem_nil _, .nil⟩, fun _ => rfl⟩
  | cons p props ih =>
    rw [checkProps]
    split
    · rename_i ha
      refine ⟨nofun, fun h => absurd (Substitute.isAbsent_iff.1 ha) (h.1 p List.mem_cons_self).1⟩
    · rename_i ha
      split
      · rename_i hk
        exact ⟨nofun, fun h => absurd (List.contains_iff_mem.1 hk) (h.1 p List.mem_cons_self).2⟩
      · rename_i hk
        have typed : p.type ≠ absent := fun h => ha (Substitute.isAbsent_iff.2 h)
        have fresh : p.key ∉ seen := fun h => hk (List.contains_iff_mem.2 h)
        rw [ih, List.forall_mem_cons, List.pairwise_cons]
        constructor
        · rintro ⟨h, apart⟩
          refine ⟨⟨⟨typed, fresh⟩, fun q hq => ⟨(h q hq).1, fun hs => (h q hq).2 (List.mem_cons_of_mem _ hs)⟩⟩, ?_, apart⟩
          exact fun q hq he => (h q hq).2 (he ▸ List.mem_cons_self)
        · rintro ⟨⟨-, h⟩, first, apart⟩
          refine ⟨fun q hq => ⟨(h q hq).1, fun hs => ?_⟩, apart⟩
          rcases List.mem_cons.1 hs with he | hs
          · exact first q hq he.symm
          · exact (h q hq).2 hs

theorem checkIndex_eq_ok {index : Option (IndexSignature Ty)} : checkIndex index = .ok () ↔
    ∀ i, index = some i → (i.key = .string ∨ i.key = .number) ∧ i.value ≠ absent := by
  cases index with
  | none => exact iff_of_true rfl fun _ h => by cases h
  | some i =>
    rw [checkIndex]
    split
    · rename_i hk
      refine ⟨fun h => (by cases h), fun h => ?_⟩
      rcases (h i rfl).1 with he | he <;> rw [he] at hk <;> cases hk
    · rename_i hk
      have known : i.key = .string ∨ i.key = .number := or_iff_not_imp_left.2 (by simpa using hk)
      split
      · rename_i ha
        exact ⟨fun h => (by cases h), fun h => absurd (Substitute.isAbsent_iff.1 ha) (h i rfl).2⟩
      · rename_i ha
        refine ⟨?_, fun _ => rfl⟩
        rintro - j ⟨⟩
        exact ⟨known, fun h => ha (Substitute.isAbsent_iff.2 h)⟩

theorem accepted_of_no_shape {t : Ty} (h : t.isShape = false) : Accepted t := by
  rintro _ _ rfl
  cases h

/-- A shape with ascending keys passes the checks if no member lacks a type, its index signature is for strings or for
    numbers, and no property clashes with the index signature. -/
theorem newObject_self {props : List (Property Ty)} {index : Option (IndexSignature Ty)} (ascending : Shape.Ascending props) :
    newObject props index = .ok (object props index) ↔ (∀ p ∈ props, p.type ≠ absent) ∧
      ∀ i, index = some i → ((i.key = .string ∨ i.key = .number) ∧ i.value ≠ absent) ∧
        (i.value.isConcrete = true → ∀ p ∈ props, clashes i p = false) := by
  have ne_of_lt : ∀ {p q : Property Ty}, p.key < q.key → p.key ≠ q.key := fun h he => String.lt_irrefl _ (he ▸ h)
  have apart : props.Pairwise fun p q => p.key ≠ q.key := ascending.imp ne_of_lt
  have typed : checkProps [] props = .ok () ↔ ∀ p ∈ props, p.type ≠ absent := by
    rw [checkProps_eq_ok]
    exact ⟨fun h p hp => (h.1 p hp).1, fun h => ⟨fun p hp => ⟨h p hp, List.not_mem_nil⟩, apart⟩⟩
  rw [newObject, andThen_eq_ok, andThen_eq_ok, typed, checkIndex_eq_ok, Shape.ofProps_self ascending]
  refine and_congr_right fun _ => ?_
  cases index with
  | none => exact iff_of_true ⟨fun _ h => (by cases h), rfl⟩ fun _ h => by cases h
  | some i =>
    have only : ∀ {q : IndexSignature Ty → Prop}, (∀ j, some i = some j → q j) ↔ q i :=
      ⟨fun h => h i rfl, fun h j hj => Option.some.inj hj ▸ h⟩
    rw [only, only]
    refine and_congr_right fun _ => ?_
    dsimp only
    split
    · rename_i hc
      split
      · rename_i p hp
        refine ⟨fun h => (by cases h), fun h => ?_⟩
        have clash := List.find?_some hp
        rw [h hc p (List.mem_of_find?_eq_some hp)] at clash
        cases clash
      · rename_i hp
        refine ⟨fun _ _ p hm => ?_, fun _ => rfl⟩
        exact Bool.eq_false_iff.2 (List.find?_eq_none.1 hp p hm)
    · rename_i hc
      exact ⟨fun _ h => absurd h hc, fun _ => rfl⟩

end TypeCalculus.Ty

namespace TypeCalculus.Substitute
open Ty

/-! ### Where shapes are merged -/

/-- The shape has an index signature. -/
def isSigned : Ty → Bool
  | object _ (some _) => true
  | _ => false

/-- A type stands in another where an intersection with it would take types apart; a bound parameter stands for its
    replacement. -/
inductive Stands (s : Subst) : Ty → Ty → Prop
  | self {t : Ty} : Stands s t t
  | part {t u v : Ty} : u ∈ t.meetParts → Stands s u v → Stands s t v
  | replacement {name : String} {constraint default t u : Ty} : s.find? name = some t → Stands s t u →
      Stands s (param name constraint default) u

/-- The check of a property of one type against an index signature of the other is decided, whatever is substituted. -/
def Decided (s : Subst) (t value : Ty) : Prop :=
  (t.isConcrete = true ∧ value.isConcrete = true) ∨ (t.isConcrete = false ∧ Cleared s [] t) ∨
    (value.isConcrete = false ∧ Cleared s [] value)

/-- Substitution leaves the checks of the node as they were: of a property and the index signature that covers it either
    both are known already or one is unknown and stays as it is, and an intersection that does not stay as it is merges no
    index signatures. -/
structure Steady (s : Subst) (t : Ty) : Prop where
  decided : ∀ props i, t = object props (some i) → ∀ p ∈ props, i.covers p.key = true → Decided s p.type i.value
  apart : ∀ ms, t = intersection ms → Cleared s [] t ∨ ∀ u, Stands s t u → isSigned u = false

/-- The shapes of the tree are checked, and the substitution leaves the checks as they were. -/
abbrev Sound (s : Subst) : Ty → Prop := Throughout children fun t => Accepted t ∧ Steady s t

/-- What the name stands for has no index signature where it would be merged. -/
def Unsigned (s : Subst) (name : String) : Prop := ∀ t, s.find? name = some t → ∀ u, Stands s t u → isSigned u = false

/-- What is asked of a part that is taken apart in an intersection. -/
structure BareNode (s : Subst) (t : Ty) : Prop where
  present : t ≠ absent
  unsigned : isSigned t = false
  param : ∀ name constraint default, t = param name constraint default → Unsigned s name

/-- No index signature would be merged in an intersection with the type. -/
abbrev Bare (s : Subst) : Ty → Prop := Throughout meetParts (BareNode s)

section Bare
variable {s : Subst} {t : Ty}

theorem unsigned_of_stands {u : Ty} (h : Bare s t) (hu : Stands s t u) : isSigned u = false := by
  induction hu with
  | self => exact h.node.unsigned
  | part hu _ ih => exact ih (h.under hu)
  | replacement hf hu => exact h.node.param _ _ _ rfl _ hf _ hu

/-- The type is not taken apart in an intersection. -/
theorem bare_piece (parts : t.meetParts = []) (present : t ≠ absent) (unsigned : isSigned t = false)
    (hp : t.isParam = false) : Bare s t := by
  refine ⟨⟨present, unsigned, ?_⟩, fun u hu => ?_⟩
  · rintro name constraint default rfl
    cases hp
  · rw [parts] at hu
    cases hu

theorem bare_union {ms : List Ty} (h : ∀ m ∈ ms, Bare s m) : Bare s (union ms) := ⟨⟨nofun, rfl, nofun⟩, h⟩

theorem bare_unionOf {ts : List Ty} (h : ∀ t ∈ ts, Bare s t) : Bare s (unionOf ts) :=
  unionOf_forall (P := Bare s) (bare_piece rfl nofun rfl rfl) (fun h _ hm => h.under hm) bare_union h

theorem bare_object {props : List (Property Ty)} (h : ∀ p ∈ props, Bare s p.type) : Bare s (object props none) :=
  ⟨⟨nofun, rfl, nofun⟩, List.forall_mem_map.2 h⟩

theorem index_of_unsigned {props : List (Property Ty)} {index : Option (IndexSignature Ty)}
    (h : isSigned (object props index) = false) : index = none := by
  cases index with
  | none => rfl
  | some => cases h

theorem bare_meeting : Meeting (Bare s) where
  never := bare_piece rfl nofun rfl rfl
  emptyObject := bare_object (List.forall_mem_nil _)
  unionMember h hm := h.under hm
  unionOf := bare_unionOf
  meetMember h hm := h.under hm
  meet h _ _ _ := ⟨⟨nofun, rfl, nofun⟩, h⟩
  merge {meet a b} hmeet ha hb := by
    obtain ⟨propsA, indexA⟩ := a
    obtain ⟨propsB, indexB⟩ := b
    cases index_of_unsigned ha.node.unsigned
    cases index_of_unsigned hb.node.unsigned
    refine bare_object (parts_toTy_forall.1 (parts_mergeShapes hmeet ?_ ?_)).1
    · exact parts_toTy_forall.2 ⟨fun p hp => ha.under (List.mem_map_of_mem hp), nofun⟩
    · exact parts_toTy_forall.2 ⟨fun p hp => hb.under (List.mem_map_of_mem hp), nofun⟩

theorem bare_splicing : Splicing (fun _ => True) (Bare s) fun _ => True where
  never := bare_piece rfl nofun rfl rfl
  unionMember _ _ := trivial
  unionOf := bare_unionOf
  text _ _ := trivial
  inline _ _ := trivial
  hole _ _ _ := trivial
  close _ := by
    unfold closeTemplate
    split <;> exact bare_piece rfl nofun rfl rfl

/-- The type is taken apart in an intersection. -/
def isJoined : Ty → Bool
  | union _ | intersection _ | object .. => true
  | _ => false

/-- What is made of bare parts is bare, and what stays whole in an intersection is so whatever it is made of. -/
theorem rebuilds_bare (h : Bare s t) (hp : t.isParam = false) :
    Rebuilds (fun u => isJoined t = true → Bare s u) (Bare s) t where
  leaf _ := h
  plain {u} hu _ _ := by
    cases u with
    | array | tuple | function | infer | reference | keyOf | access | mapping => exact bare_piece rfl nofun rfl rfl
    | _ => cases hu
  unionOf he hus := bare_unionOf fun u hu => hus u hu (he ▸ rfl)
  meetOf he hus := bare_meeting.meetAt fun u hu => hus u hu (he ▸ rfl)
  templateOf _ _ := bare_splicing.templateAfter trivial fun _ _ => trivial
  ofProps {props props' index index'} he hps hi := by
    subst he
    cases index_of_unsigned h.node.unsigned
    cases index' with
    | none => exact bare_object fun p hm => hps p (Shape.mem_ofProps hm) rfl
    | some i =>
      obtain ⟨-, j, hj, -⟩ := hi i rfl
      cases hj

/-- A type made by constructors is bare if no index signature stands in it. -/
theorem bare_of_stands (built : Built t) (sound : Sound s t) (present : t ≠ absent)
    (h : ∀ u, Stands s t u → isSigned u = false) : Bare s t := by
  induction t using children_induction with
  | step t ih =>
    have below : ∀ u ∈ t.meetParts, u ∈ t.parts ∧ u ≠ absent := by
      intro u hu
      cases t with
      | union ms => exact ⟨hu, fun he => built.tidy.node.union ms rfl (he ▸ hu)⟩
      | intersection ms => exact ⟨hu, fun he => (built.tidy.node.meet ms rfl).present (he ▸ hu)⟩
      | object props index =>
        obtain ⟨p, hp, rfl⟩ := List.mem_map.1 hu
        have accepted := (newObject_self built.normal.form).1 (sound.node.1 props index rfl)
        exact ⟨List.mem_append_left _ hu, accepted.1 p hp⟩
      | _ => cases hu
    refine ⟨⟨present, h t .self, ?_⟩, fun u hu => ?_⟩
    · rintro name constraint default rfl r hr u hu
      exact h u (.replacement hr hu)
    · obtain ⟨part, there⟩ := below u hu
      have child : u ∈ t.children := by
        cases t with
        | param => cases hu
        | _ => exact part
      have whole : t.isParam = false := by
        cases t with
        | param => cases hu
        | _ => rfl
      exact ih u child (built.part whole part) (sound.under child) there fun v hv => h v (.part hu hv)

end Bare

/-! ### Runs -/

theorem bare_alternatives {s : Subst} {t : Ty} (h : Bare s t) {members : List Ty} (ha : alternatives? t = some members) :
    ∀ m ∈ members, Bare s m :=
  alternatives_forall (P := Bare s) (fun h _ hm => h.under hm) (fun _ => bare_piece rfl nofun rfl rfl) h ha

/-- The replacements of plain names are bare. -/
def UnsignedBare (s s' : Subst) : Prop := ∀ name t, s'.find? name = some t → t ≠ absent → Unsigned s name → Bare s t

theorem UnsignedBare.insert {s s' : Subst} (h : UnsignedBare s s') {name : String} {t : Ty} (ht : Unsigned s name → Bare s t) :
    UnsignedBare s (s'.insert name t) := by
  intro n u hu present plain
  rw [Subst.find?_insert] at hu
  split at hu
  · rename_i he
    cases hu
    exact ht (he ▸ plain)
  · exact h n u hu present plain

theorem UnsignedBare.without {s s' : Subst} (h : UnsignedBare s s') (names : List String) : UnsignedBare s (s'.without names) :=
  fun n u hu => h n u (Subst.find?_of_without hu)

/-- Substitution leaves bare types bare. -/
theorem bare_run {s : Subst} {chain : Bool} {s' : Subst} {opened : List String} {t u : Ty}
    (h : run chain s' opened t = some u) (hs : UnsignedBare s s') (ht : Bare s t) : Bare s u := by
  refine run_induction (motive := fun s' _ t u => UnsignedBare s s' → Bare s t → Bare s u)
    (fun self hself s' opened t u hstep hs ht => ?_) h hs ht
  have ih : ∀ {s' opened t u}, self s' opened t = some u → UnsignedBare s s' → Bare s t → Bare s u :=
    fun hu => (hself _ _ _ _ hu).2
  have replacement : ∀ {name constraint default r}, Bare s (param name constraint default) → Replaced s' opened name →
      s'.find? name = some r → Bare s r := by
    rintro name constraint default r hp ⟨-, r', hr', present⟩ hr
    cases hr.symm.trans hr'
    exact hs name r hr present (hp.node.param _ _ _ rfl)
  cases hstep with
  | kept => exact ht
  | replaced hr hf hu => exact ih hu hs (replacement ht hr hf)
  | taken hr hf => exact replacement ht hr hf
  | split hsplit hus =>
    obtain ⟨-, constraint, default, r, rfl, -, hr, ha⟩ := splits?_eq_some hsplit
    refine bare_unionOf (Results.option.mapM (fun m hm u hu => ?_) _ hus)
    refine ih hu (hs.insert fun plain => ?_) (bare_piece rfl nofun rfl rfl)
    have bare : Bare s (param _ constraint default) := ⟨⟨nofun, rfl, fun _ _ _ he => by cases he; exact plain⟩, nofun⟩
    exact bare_alternatives (ih hr hs bare) ha m hm
  | whole => exact bare_piece rfl nofun rfl rfl
  | rebuilt hp hc hu =>
    refine (rebuilds_bare ht hp).results Results.option hp hc (fun v hv w hw joined => ih hw hs ?_) u hu
    cases t with
    | union | intersection => exact ht.under hv
    | object props index =>
      cases index_of_unsigned ht.node.unsigned
      rcases List.mem_append.1 hv with hv | hv
      · exact ht.under hv
      · cases hv
    | _ => cases joined

/-- Substitution loses no type. -/
theorem present_run {chain : Bool} {s : Subst} {opened : List String} {t u : Ty} (h : run chain s opened t = some u)
    (ht : t ≠ absent) : u ≠ absent := by
  refine run_induction (motive := fun _ _ t u => t ≠ absent → u ≠ absent) (fun self hself s opened t u hstep ht => ?_) h ht
  have replacement : ∀ {name r}, Replaced s opened name → s.find? name = some r → r ≠ absent := by
    rintro name r ⟨-, r', hr', present⟩ hr
    cases hr.symm.trans hr'
    exact present
  cases hstep with
  | kept => exact ht
  | replaced hr hf hu => exact (hself _ _ _ _ hu).2 (replacement hr hf)
  | taken hr hf => exact replacement hr hf
  | split => exact unionOf_ne_absent _
  | whole => nofun
  | rebuilt hp hc hu =>
    have rebuilds : Rebuilds (fun _ => True) (· ≠ absent) t := by
      refine ⟨fun _ => ht, fun {u} hu _ _ => ?_, fun _ _ => unionOf_ne_absent _, fun _ _ => meetOf_ne_absent _,
        fun _ _ => templateOf_ne_absent _, fun _ _ _ => nofun⟩
      rintro rfl
      cases hu
    exact rebuilds.results Results.option hp hc (fun _ _ _ _ => trivial) u hu

/-! ### Sound types -/

section Sound
variable {s : Subst} {t : Ty}

theorem sound_of_children (ho : ∀ props index, t ≠ object props index) (hm : ∀ ms, t ≠ intersection ms)
    (h : ∀ u ∈ t.children, Sound s u) : Sound s t :=
  ⟨⟨fun props index he => absurd he (ho props index), fun props i he => absurd he (ho props (some i)),
    fun ms he => absurd he (hm ms)⟩, h⟩

theorem sound_leaf (hc : t.children = []) (ho : ∀ props index, t ≠ object props index) (hm : ∀ ms, t ≠ intersection ms) :
    Sound s t :=
  sound_of_children ho hm fun u hu => by
    rw [hc] at hu
    cases hu

theorem sound_atom (h : t.isAtom = true) : Sound s t := by
  cases t with
  | any | unknown | void | never | prim | literal => exact sound_leaf rfl nofun nofun
  | _ => cases h

theorem sound_param (name : String) : Sound s (param name absent absent) := by
  have missing : Sound s absent := sound_leaf rfl nofun nofun
  exact sound_of_children nofun nofun (List.forall_mem_cons.2 ⟨missing, List.forall_mem_singleton.2 missing⟩)

theorem sound_unionOf {ts : List Ty} (h : ∀ t ∈ ts, Sound s t) : Sound s (unionOf ts) :=
  unionOf_forall (P := Sound s) (sound_leaf rfl nofun nofun) (fun h _ hm => h.under hm)
    (fun h => sound_of_children nofun nofun h) h

theorem sound_splicing : Splicing (Sound s) (Sound s) fun done => ∀ t ∈ holes done, Sound s t where
  never := sound_leaf rfl nofun nofun
  unionMember h hm := h.under hm
  unionOf := sound_unionOf
  text := Inherited.pushText
  inline hd hi := Inherited.pushSegments hd fun _ ht => hi.under ht
  hole hd ht _ := List.forall_mem_cons.2 ⟨ht, hd⟩
  close {done} hd := by
    unfold closeTemplate
    split
    · exact sound_leaf rfl nofun nofun
    · exact sound_leaf rfl nofun nofun
    · exact sound_leaf rfl nofun nofun
    · refine sound_of_children nofun nofun fun t ht => hd t ?_
      rwa [← List.mem_reverse, ← holes_reverse]

/-- What is made of sound parts is sound, but for shapes and intersections. -/
theorem rebuilds_sound (h : Sound s t) (ho : ∀ props index, t ≠ object props index) (hm : ∀ ms, t ≠ intersection ms) :
    Rebuilds (Sound s) (Sound s) t where
  leaf _ := h
  plain {u} hu _ hv := by
    cases u with
    | array | tuple | function | infer | reference | keyOf | access | mapping => exact sound_of_children nofun nofun hv
    | _ => cases hu
  unionOf _ := sound_unionOf
  meetOf he := absurd he (hm _)
  templateOf _ hus := sound_splicing.templateAfter nofun hus
  ofProps he := absurd he (ho _ _)

/-- A shape without an index signature. -/
theorem sound_unsigned {props : List (Property Ty)} (ascending : Shape.Ascending props)
    (h : ∀ p ∈ props, Sound s p.type ∧ p.type ≠ absent) : Sound s (object props none) := by
  refine ⟨⟨?_, nofun, nofun⟩, fun u hu => ?_⟩
  · rintro props' index ⟨⟩
    exact (newObject_self ascending).2 ⟨fun p hp => (h p hp).2, nofun⟩
  · rcases List.mem_append.1 hu with hu | hu
    · obtain ⟨p, hp, rfl⟩ := List.mem_map.1 hu
      exact (h p hp).1
    · cases hu

/-- Intersections of types in which no index signature would be merged. -/
theorem sound_meeting : Meeting fun t => Sound s t ∧ Bare s t where
  never := ⟨sound_leaf rfl nofun nofun, bare_meeting.never⟩
  emptyObject := ⟨sound_unsigned .nil (List.forall_mem_nil _), bare_meeting.emptyObject⟩
  unionMember h hm := ⟨h.1.under hm, h.2.under hm⟩
  unionOf h := ⟨sound_unionOf fun t ht => (h t ht).1, bare_unionOf fun t ht => (h t ht).2⟩
  meetMember h hm := ⟨h.1.under hm, h.2.under hm⟩
  meet h _ _ _ := by
    have bare : Bare s (intersection _) := ⟨⟨nofun, rfl, nofun⟩, fun m hm => (h m hm).2⟩
    exact ⟨⟨⟨nofun, nofun, fun _ _ => .inr fun u => unsigned_of_stands bare⟩, fun m hm => (h m hm).1⟩, bare⟩
  merge {meet a b} hmeet ha hb := by
    obtain ⟨propsA, indexA⟩ := a
    obtain ⟨propsB, indexB⟩ := b
    cases index_of_unsigned ha.2.node.unsigned
    cases index_of_unsigned hb.2.node.unsigned
    have shape : ∀ {props : List (Property Ty)}, Sound s (object props none) ∧ Bare s (object props none) →
        ∀ u ∈ (Shape.toTy ⟨props, none⟩).parts, Sound s u ∧ Bare s u := fun h =>
      parts_toTy_forall.2 ⟨fun p hp => ⟨h.1.under (List.mem_append_left _ (List.mem_map_of_mem hp)),
        h.2.under (List.mem_map_of_mem hp)⟩, nofun⟩
    have merged := (parts_toTy_forall.1 (parts_mergeShapes hmeet (shape ha) (shape hb))).1
    exact ⟨sound_unsigned (Shape.ascending_ofProps _ _) fun p hp => ⟨(merged p hp).1, (merged p hp).2.node.present⟩,
      bare_object fun p hp => (merged p hp).2⟩

end Sound

/-- The bindings at some point of a substitution that starts with `s`. -/
structure Admits (s s' : Subst) : Prop where
  names : ∀ name, Replaced s' [] name → Replaced s [] name
  built : s'.Forall Built
  sound : s'.Forall (Sound s)
  bare : UnsignedBare s s'

namespace Admits
variable {s s' : Subst} (h : Admits s s')
include h

theorem cleared {opened : List String} {t : Ty} (ht : Cleared s [] t) : Cleared s' opened t :=
  fun n hn => ht n (h.names n ⟨List.not_mem_nil, hn.2⟩)

theorem insert {opened : List String} {name : String} {t : Ty} (hname : Replaced s' opened name) (hb : Built t)
    (hs : Sound s t) (bare : Unsigned s name → Bare s t) : Admits s (s'.insert name t) where
  names n hn := h.names n (replaced_of_insert ⟨List.not_mem_nil, hname.2⟩ hn)
  built := h.built.insert name hb
  sound := h.sound.insert name hs
  bare := h.bare.insert bare

theorem without (names : List String) : Admits s (s'.without names) where
  names n hn := h.names n (replaced_without.1 hn).2
  built := h.built.without names
  sound := h.sound.without names
  bare := h.bare.without names

end Admits

/-- What a substitution of the parts of a node gives. -/
structure Kept (s : Subst) (t u : Ty) : Prop where
  sound : Sound s u
  present : t ≠ absent → u ≠ absent
  same : Cleared s [] t → u = t

theorem cleared_of_concrete {s : Subst} {opened : List String} {t : Ty} (h : t.isConcrete = true) : Cleared s opened t := by
  intro n _ hf
  rw [not_concrete_of_free hf] at h
  cases h

/-- A property that does not clash with the index signature goes on not to clash with it. -/
theorem Decided.kept {s : Subst} {p q : Property Ty} {i j : IndexSignature Ty} (h : i.covers p.key = true → Decided s p.type i.value)
    (hp : Kept s p.type q.type) (hi : Kept s i.value j.value) (keyP : q.key = p.key) (keyI : j.key = i.key) :
    (j.covers q.key = true → Decided s q.type j.value) ∧
      ((i.value.isConcrete = true → clashes i p = false) → j.value.isConcrete = true → clashes j q = false) := by
  have covers : j.covers q.key = i.covers p.key := by rw [IndexSignature.covers, IndexSignature.covers, keyP, keyI]
  have step : i.covers p.key = true → Decided s q.type j.value ∧
      ((i.value.isConcrete = true → clashes i p = false) → j.value.isConcrete = true → clashes j q = false) := by
    intro hc
    rcases h hc with ⟨ht, hv⟩ | ⟨ht, cleared⟩ | ⟨hv, cleared⟩
    · have sameT := hp.same (cleared_of_concrete ht)
      have sameV := hi.same (cleared_of_concrete hv)
      rw [clashes, clashes, covers, sameT, sameV]
      exact ⟨.inl ⟨ht, hv⟩, fun h _ => h hv⟩
    · have same := hp.same cleared
      have clear : clashes j q = false := by rw [clashes, same, ht, Bool.and_false, Bool.false_and]
      rw [same]
      exact ⟨.inr (.inl ⟨ht, cleared⟩), fun _ _ => clear⟩
    · have same := hi.same cleared
      rw [same]
      exact ⟨.inr (.inr ⟨hv, cleared⟩), fun _ h => nomatch hv.symm.trans h⟩
  rw [covers]
  refine ⟨fun hc => (step hc).1, ?_⟩
  cases hc : i.covers p.key with
  | true => exact (step hc).2
  | false =>
    have clear : clashes j q = false := by rw [clashes, covers, hc, Bool.false_and, Bool.false_and]
    exact fun _ _ => clear

/-- A shape put together again passes its checks again. -/
theorem sound_object {s : Subst} {props : List (Property Ty)} {index : Option (IndexSignature Ty)} {f : Ty → Option Ty} {u : Ty}
    (ascending : Shape.Ascending props) (ht : Sound s (object props index))
    (hf : ∀ v ∈ (object props index).parts, ∀ w, f v = some w → Kept s v w)
    (hu : (object props index).rebuild f = some u) : Sound s u := by
  obtain ⟨typed, signed⟩ := (newObject_self ascending).1 (ht.node.1 props index rfl)
  obtain ⟨props', index', hprops, hindex, rfl⟩ := rebuild_object ascending hu
  have pairs : List.Forall₂ (fun p q => f p.type = some q.type ∧ q = { p with type := q.type }) props props' :=
    (forall₂_of_mapM hprops).imp fun p q hq => mapProp_eq_some hq
  have ascending' : Shape.Ascending props' := ascending_of_keys (pairs.imp fun p q hq => by rw [hq.2]) ascending
  have before : ∀ q ∈ props', ∃ p ∈ props, Kept s p.type q.type ∧ q.key = p.key := by
    intro q hq
    obtain ⟨p, hp, hpq, he⟩ := partner pairs.flip hq
    exact ⟨p, hp, hf _ (List.mem_append_left _ (List.mem_map_of_mem hp)) _ hpq, by rw [he]⟩
  have present : ∀ q ∈ props', Sound s q.type ∧ q.type ≠ absent := by
    intro q hq
    obtain ⟨p, hp, kept, -⟩ := before q hq
    exact ⟨kept.sound, kept.present (typed p hp)⟩
  cases index with
  | none =>
    cases hindex
    exact sound_unsigned ascending' present
  | some i =>
    obtain ⟨w, hw, hindex⟩ := Option.bind_eq_some_iff.1 hindex
    cases hindex
    have value : Kept s i.value w := hf _ (List.mem_append_right _ List.mem_cons_self) _ hw
    obtain ⟨⟨key, valued⟩, clear⟩ := signed i rfl
    have decided : ∀ q ∈ props', (IndexSignature.covers { i with value := w } q.key = true → Decided s q.type w) ∧
        (w.isConcrete = true → clashes { i with value := w } q = false) := by
      intro q hq
      obtain ⟨p, hp, kept, keyP⟩ := before q hq
      obtain ⟨still, passes⟩ := @Decided.kept s p q i { i with value := w } (ht.node.2.decided props i rfl p hp) kept value keyP rfl
      exact ⟨still, passes fun hc => clear hc p hp⟩
    refine ⟨⟨?_, ?_, nofun⟩, parts_toTy_forall (s := ⟨props', some { i with value := w }⟩) |>.2 ⟨fun q hq => (present q hq).1, ?_⟩⟩
    · rintro _ _ ⟨⟩
      refine (newObject_self ascending').2 ⟨fun q hq => (present q hq).2, ?_⟩
      rintro j ⟨⟩
      exact ⟨⟨key, value.present valued⟩, fun hc q hq => (decided q hq).2 hc⟩
    · rintro _ _ ⟨⟩ q hq
      exact (decided q hq).1
    · rintro j ⟨⟩
      exact value.sound

/-- Substitution leaves sound types sound. -/
theorem sound_run {s s' : Subst} {opened : List String} {t u : Ty} (h : run true s' opened t = some u) (hs : Admits s s')
    (hb : Built t) (ht : Sound s t) : Sound s u := by
  refine run_induction (motive := fun s' opened t u => run true s' opened t = some u → Admits s s' → Built t → Sound s t → Sound s u)
    (fun self hself s' opened t u hstep hu hs hb ht => ?_) h h hs hb ht
  have ih : ∀ {s' opened t u}, self s' opened t = some u → Admits s s' → Built t → Sound s t → Sound s u :=
    fun hu => (hself _ _ _ _ hu).2 (hself _ _ _ _ hu).1
  have built : ∀ {t u}, self s' opened t = some u → Built t → Built u := fun hu hb =>
    ⟨carried_normal.run (fun e he => (hs.built e he).normal) hb.normal (hself _ _ _ _ hu).1, tidy_run (hself _ _ _ _ hu).1⟩
  cases hstep with
  | kept => exact ht
  | replaced hr hf hu => exact ih hu hs (hs.built.find? hf) (hs.sound.find? hf)
  | split hsplit hus =>
    obtain ⟨-, constraint, default, r, rfl, hr, hc, ha⟩ := splits?_eq_some hsplit
    have builtCheck := hb.part rfl List.mem_cons_self
    have builtR := built hc builtCheck
    have soundR := ih hc hs builtCheck (ht.under List.mem_cons_self)
    refine sound_unionOf (Results.option.mapM (fun m hm u hu => ?_) _ hus)
    refine ih hu (hs.insert hr ?_ ?_ fun plain => ?_) hb ht
    · exact alternatives_forall (P := Built) (fun h _ hm => h.part rfl hm) (fun _ => built_atom rfl) builtR ha m hm
    · exact alternatives_forall (P := Sound s) (fun h _ hm => h.under hm) (fun _ => sound_leaf rfl nofun nofun) soundR ha m hm
    · have bare : Bare s (param _ constraint default) := ⟨⟨nofun, rfl, fun _ _ _ he => by cases he; exact plain⟩, nofun⟩
      exact bare_alternatives (bare_run (hself _ _ _ _ hc).1 hs.bare bare) ha m hm
  | @whole _ distribute check bound yes no _ _ _ _ hsplit hc hbound hy hn =>
    have part : ∀ v ∈ [check, bound, yes, no], Built v ∧ Sound s v := fun v hv => ⟨hb.part rfl hv, ht.under hv⟩
    simp only [List.forall_mem_cons] at part
    obtain ⟨⟨bc, sc⟩, ⟨bb, sb⟩, ⟨bY, sy⟩, ⟨bn, sn⟩, -⟩ := part
    refine sound_of_children nofun nofun (List.forall_mem_cons.2 ⟨ih hc hs bc sc, List.forall_mem_cons.2
      ⟨ih hbound hs bb sb, List.forall_mem_cons.2 ⟨ih hy (hs.without _) bY sy, List.forall_mem_singleton.2 (ih hn hs bn sn)⟩⟩⟩)
  | rebuilt hp hc hrebuilt =>
    have child : ∀ v ∈ t.parts, v ∈ t.children := by
      cases t with
      | param => cases hp
      | _ => exact fun v hv => hv
    have kept : ∀ v ∈ t.parts, ∀ w, self s' opened v = some w → Kept s v w := by
      intro v hv w hw
      have hrun := (hself _ _ _ _ hw).1
      have hbv := hb.part hp hv
      exact ⟨ih hw hs hbv (ht.under (child v hv)), present_run hrun,
        fun cleared => Option.some.inj (hrun.symm.trans (run_cleared hbv (hs.cleared cleared)))⟩
    cases t with
    | object props index => exact sound_object hb.normal.form ht kept hrebuilt
    | intersection ms =>
      rcases ht.node.2.apart ms rfl with cleared | plain
      · cases hu.symm.trans (run_cleared hb (hs.cleared cleared))
        exact ht
      · have bare := bare_of_stands hb ht nofun plain
        obtain ⟨us, hus, h⟩ := Option.bind_eq_some_iff.1 hrebuilt
        cases h
        refine (sound_meeting.meetAt (Results.option.mapM (fun v hv w hw => ?_) _ hus)).1
        exact ⟨(kept v hv w hw).sound, bare_run (hself _ _ _ _ hw).1 hs.bare (bare.under hv)⟩
    | _ =>
      refine Rebuilds.results Results.option (rebuilds_sound ht ?_ ?_) hp hc (fun v hv w hw => (kept v hv w hw).sound) u hrebuilt
      · nofun
      · nofun

/-- Every shape in the result of a chained substitution passes its checks, if every shape in the type and in the
    replacements does and the substitution leaves the checks as they were. -/
theorem index_signatures_survive {t : Ty} {s : Subst} (ht : Built t) (sound : Sound s t)
    (hs : ∀ e ∈ s.entries, Built e.2 ∧ Sound s e.2) : Throughout children Accepted (t.substitute s) := by
  have values : s.Forall fun v => Built v ∧ Sound s v := hs
  have admits : Admits s s := by
    refine ⟨fun _ h => h, fun e he => (hs e he).1, fun e he => (hs e he).2, fun name r hr present plain => ?_⟩
    obtain ⟨built, sound⟩ := values.find? hr
    exact bare_of_stands built sound present (plain r hr)
  have result : Sound s (t.substitute s) := by
    unfold substitute
    split
    · cases h : run true s [] t with
      | none => exact sound
      | some u => exact sound_run h admits ht sound
    · exact sound
  exact result.imp fun _ h => h.1

/-- Two properties under an index signature for numbers, one of them of an unknown type, and one that is not under it. -/
def besides (t : Ty) : Ty :=
  object [⟨"1", param "U" absent absent, false, false⟩, ⟨"2", literal .number "2", false, false⟩, ⟨"a", t, false, false⟩]
    (some ⟨.number, number⟩)

def openBeside : Ty := besides (param "T" absent absent)

/-- Nothing is bound to `U`, so the property that its index signature has to leave open stays open. The one that becomes
    known is not under the index signature. -/
theorem index_signatures_survive_beside :
    let s : Subst := ⟨[("T", string)]⟩
    Built openBeside ∧ Sound s openBeside ∧ openBeside.substitute s = besides string ∧
      Throughout children Accepted (openBeside.substitute s) := by
  intro s
  have unbound : Cleared s [] (param "U" absent absent) := by
    rintro _ ⟨-, _, found, -⟩ (_ | ⟨hm, -⟩)
    · cases found
    · cases hm
  have ascending : Shape.Ascending [⟨"1", param "U" absent absent, false, false⟩,
      ⟨"2", literal .number "2", false, false⟩, ⟨"a", param "T" absent absent, false, false⟩] := by
    simp only [Shape.Ascending, List.pairwise_cons]
    decide
  have sound : Sound s openBeside := by
    refine ⟨⟨?_, ?_, nofun⟩, ?_⟩
    · rintro _ _ ⟨⟩
      refine (newObject_self ascending).2 ⟨?_, ?_⟩
      · simp
      · rintro _ ⟨⟩
        refine ⟨⟨.inr rfl, nofun⟩, fun _ => ?_⟩
        simp only [List.forall_mem_cons]
        exact ⟨by decide +kernel, by decide +kernel, by decide +kernel, List.forall_mem_nil _⟩
    · rintro _ _ ⟨⟩ p hp covered
      rcases List.mem_cons.1 hp with rfl | hp
      · exact .inr (.inl ⟨rfl, unbound⟩)
      · rcases List.mem_cons.1 hp with rfl | hp
        · exact .inl ⟨rfl, rfl⟩
        · cases List.mem_singleton.1 hp
          exact absurd covered (by decide)
    · exact List.forall_mem_cons.2 ⟨sound_param "U", List.forall_mem_cons.2 ⟨sound_atom rfl, List.forall_mem_cons.2
        ⟨sound_param "T", List.forall_mem_singleton.2 (sound_atom rfl)⟩⟩⟩
  have built : Built openBeside := by
    refine built_object ascending ?_ ?_
    · simp only [List.forall_mem_cons]
      exact ⟨built_param "U", built_atom rfl, built_param "T", List.forall_mem_nil _⟩
    · rintro _ ⟨⟩
      exact built_atom rfl
  exact ⟨built, sound, by cbv, index_signatures_survive built sound (List.forall_mem_singleton.2 ⟨built_atom rfl, sound_atom rfl⟩)⟩

/-- A property that is known only once `T` is. -/
def openShape : Ty := object [⟨"a", param "T" absent absent, false, false⟩] (some ⟨.string, number⟩)

/-- An index signature that is merged once `T` is known. -/
def openMeet : Ty := intersection [param "T" absent absent, object [] (some ⟨.string, number⟩)]

/-- A property that its index signature does not accept. -/
def clashing : Ty := object [⟨"a", string, false, false⟩] (some ⟨.string, number⟩)

/-- Every shape of the types and of the replacements is checked, and what substitution makes of them would not pass. -/
theorem index_signatures_lost :
    (Built openShape ∧ Throughout children Accepted openShape ∧ Built string ∧ Throughout children Accepted string ∧
      openShape.substitute ⟨[("T", string)]⟩ = clashing) ∧
    (Built openMeet ∧ Throughout children Accepted openMeet ∧ Built (object [⟨"a", string, false, false⟩] none) ∧
      Throughout children Accepted (object [⟨"a", string, false, false⟩] none) ∧
      openMeet.substitute ⟨[("T", object [⟨"a", string, false, false⟩] none)]⟩ = clashing) ∧ ¬Accepted clashing := by
  have leaf : ∀ {u : Ty}, u.isAtom = true → Throughout children Accepted u := fun {u} hu => by
    cases u with
    | any | unknown | void | never | prim | literal => exact ⟨accepted_of_no_shape rfl, List.forall_mem_nil _⟩
    | _ => cases hu
  have missing : Throughout children Accepted absent := ⟨accepted_of_no_shape rfl, List.forall_mem_nil _⟩
  have open_ : Throughout children Accepted (param "T" absent absent) :=
    ⟨accepted_of_no_shape rfl, List.forall_mem_cons.2 ⟨missing, List.forall_mem_singleton.2 missing⟩⟩
  have signature : ∀ i, (some ⟨.string, number⟩ : Option (IndexSignature Ty)) = some i → Built i.value := by
    rintro _ ⟨⟩
    exact built_atom rfl
  have single : ∀ {p : Property Ty}, Shape.Ascending [p] := List.pairwise_singleton _ _
  have indexed : Built (object [] (some ⟨.string, number⟩)) := built_object .nil (List.forall_mem_nil _) signature
  have made : meetOf [param "T" absent absent, object [] (some ⟨.string, number⟩)] = openMeet := by cbv
  refine ⟨⟨?_, ⟨?_, ?_⟩, built_atom rfl, leaf rfl, by cbv⟩, ⟨?_, ⟨accepted_of_no_shape rfl, ?_⟩, ?_, ⟨?_, ?_⟩, by cbv⟩,
    fun h => ?_⟩
  · exact built_object single (List.forall_mem_singleton.2 (built_param "T")) signature
  · rintro _ _ ⟨⟩
    cbv
  · exact List.forall_mem_cons.2 ⟨open_, List.forall_mem_singleton.2 (leaf rfl)⟩
  · rw [← made]
    exact built_meetOf (List.forall_mem_cons.2 ⟨built_param "T", List.forall_mem_singleton.2 indexed⟩)
  · refine List.forall_mem_cons.2 ⟨open_, List.forall_mem_singleton.2 ⟨?_, List.forall_mem_singleton.2 (leaf rfl)⟩⟩
    rintro _ _ ⟨⟩
    cbv
  · exact built_object single (List.forall_mem_singleton.2 (built_atom rfl)) fun _ h => by cases h
  · rintro _ _ ⟨⟩
    cbv
  · exact List.forall_mem_singleton.2 (leaf rfl)
  · have accepted := h _ _ rfl
    have clash : newObject [⟨"a", string, false, false⟩] (some ⟨.string, number⟩) =
        .error (.malformed clashing (.propertyIncompatible "a" string number)) := by cbv
    rw [clash] at accepted
    cases accepted

end TypeCalculus.Substitute

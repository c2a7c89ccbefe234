import TypeCalculus.Proofs.Assignable.Preorder
import TypeCalculus.Proofs.Assignable.Rules
import TypeCalculus.Proofs.Ty.Walk

/-! How what an intersection makes of types is narrower than one of them (`Narrows`). An intersection takes unions,
    intersections and shapes apart and compares the pieces that it can compare, so the pieces are related by
    assignability and the rest by structure. A result that holds no open types admits only what the first-order part of
    the type admits (`Narrows.core`): in this way a piece that is assignable to shapes once they are merged is assignable to
    each of them. -/

namespace TypeCalculus
open Ty Assignable

/-! ### Operands of intersections -/

namespace Ty

/-- The parts of a type that an intersection takes apart. -/
def meetParts : Ty → List Ty
  | union ms | intersection ms => ms
  | object props _ => props.map (·.type)
  | _ => []

/-- A member of an intersection that is not taken apart. -/
def isPiece (t : Ty) : Bool := t.isMeetMember && !t.isShape

/-- The type shows no properties, and neither do its members. -/
def isBare : Ty → Bool
  | object .. | array .. | tuple _ | union _ => false
  | _ => true

end Ty

/-- A piece that can be compared is first-order. Where shapes may have optional properties it shows none, for it could show
    one that a shape between the two leaves out. -/
def Comparable (optional : Bool) (t : Ty) : Prop :=
  t.isPiece = true → t.isConcrete = true → FirstOrder t ∧ (optional = true → t.isBare = true)

/-- What is asked of a part of an operand: shapes have no index signature. -/
structure MeetableNode (optional : Bool) (t : Ty) : Prop where
  present : t.isAbsent = false
  notAny : t ≠ any
  shape : ∀ props index, t = object props index → index = none ∧ (optional = false → ∀ p ∈ props, p.optional = false)
  comparable : Comparable optional t

/-- A type made by constructors that takes nothing from the others in an intersection. Its shapes may have optional properties
    if `optional` is set. -/
structure Meetable (optional : Bool) (t : Ty) : Prop where
  built : Built t
  nodes : Throughout meetParts (MeetableNode optional) t

/-- No intersection stands where the type is taken apart. -/
abbrev Unmet (t : Ty) : Prop := Throughout meetParts (fun u => ∀ ms, u ≠ intersection ms) t

/-- A type of which an intersection loses nothing. -/
structure MeetTarget (optional : Bool) (t : Ty) : Prop extends Meetable optional t where
  unmet : Unmet t

/-- What holds of the parts of such types and of intersections made of them. -/
structure MeetNode (optional : Bool) (t : Ty) : Prop where
  present : t.isAbsent = false
  notAny : t ≠ any
  meet : ∀ ms, t = intersection ms → ms ≠ [] ∧ ∀ m ∈ ms, m.isMeetMember = true
  shape : ∀ props index, t = object props index → index = none ∧ Shape.Ascending props
  comparable : Comparable optional t

/-- An operand of an intersection, which may be an intersection itself. -/
abbrev MeetOperand (optional : Bool) (t : Ty) : Prop := Throughout meetParts (MeetNode optional) t

/-! ### Types without open parts -/

section Concrete
variable {t u : Ty}

theorem concrete_of_part (h : t.isConcrete = true) (hu : u ∈ t.parts) : u.isConcrete = true := by
  cases ho : u.occurs isPending with
  | false => exact congrArg not ho
  | true =>
    rw [isConcrete, occurs_of_part rfl hu ho] at h
    cases h

theorem concrete_of_meetPart (h : t.isConcrete = true) (hu : u ∈ t.meetParts) : u.isConcrete = true := by
  refine concrete_of_part h ?_
  cases t with
  | union | intersection => exact hu
  | object => exact List.mem_append_left _ hu
  | _ => cases hu

theorem concrete_of_throughout (h : Throughout parts (fun u => u.isPending = false) t) : t.isConcrete = true := by
  have none : t.occurs isPending = false := by
    induction h with
    | @mk t hn _ ih =>
      rw [Bool.eq_false_iff, Ne, occurs_iff rfl]
      rintro (h | ⟨u, hu, h⟩)
      · rw [hn] at h
        cases h
      · rw [ih u hu] at h
        cases h
  exact congrArg not none

theorem FirstOrder.concrete (h : FirstOrder t) : t.isConcrete = true :=
  concrete_of_throughout (h.nodes.imp fun u hu => by cases u <;> first | rfl | cases hu)

/-- Types without parameters are equal as soon as they are identical. -/
theorem eq_of_identical_concrete (ht : t.isConcrete = true) (h : t.identical u = true) : t = u := by
  have same : t.erased = u.erased := (identical_iff t u).1 h
  have hu : u.isConcrete = true := by
    rw [← isConcrete_annotated bare u, ← erased, ← same, erased, isConcrete_annotated, ht]
  rw [← annotated_concrete bare ht, ← annotated_concrete bare hu]
  exact same

end Concrete

theorem Meetable.part {optional : Bool} {t u : Ty} (h : Meetable optional t) (hu : u ∈ t.meetParts) : Meetable optional u := by
  refine ⟨h.built.part ?_ ?_, h.nodes.under hu⟩
  all_goals cases t with
    | union | intersection => first | rfl | exact hu
    | object => first | rfl | exact List.mem_append_left _ hu
    | _ => cases hu

theorem Meetable.operand {optional : Bool} {t : Ty} (h : Meetable optional t) : MeetOperand optional t := by
  induction t using children_induction with
  | step t ih =>
    have node := h.nodes.node
    refine ⟨⟨node.present, node.notAny, fun ms he => ?_, fun props index he => ?_, node.comparable⟩, fun u hu => ih u ?_ (h.part hu)⟩
    · subst he
      have form : MeetForm ms := h.built.normal.form
      exact ⟨List.ne_nil_of_length_pos (Nat.lt_of_lt_of_le Nat.two_pos form.two), form.single⟩
    · subst he
      exact ⟨(node.shape props index rfl).1, h.built.normal.form⟩
    · cases t with
      | union | intersection => exact hu
      | object => exact List.mem_append_left _ hu
      | _ => cases hu

namespace MeetTarget
variable {optional : Bool} {t u : Ty}

theorem present (h : MeetTarget optional t) : t.isAbsent = false := h.nodes.node.present

theorem part (h : MeetTarget optional t) (hu : u ∈ t.meetParts) : MeetTarget optional u :=
  ⟨h.toMeetable.part hu, h.unmet.under hu⟩

theorem piece (built : Built t) (present : t.isAbsent = false) (hp : t.isPiece = true)
    (apart : ∀ ms, t ≠ intersection ms) (comparable : Comparable optional t) : MeetTarget optional t := by
  have parts : t.meetParts = [] := by
    cases t with
    | union | object => cases hp
    | intersection ms => exact absurd rfl (apart ms)
    | _ => rfl
  have below : ∀ {p : Ty → Prop}, ∀ u ∈ t.meetParts, p u := fun u hu => by
    rw [parts] at hu
    cases hu
  refine ⟨⟨built, ⟨present, ?_, ?_, comparable⟩, below⟩, apart, below⟩
  · rintro rfl
    cases hp
  · rintro props index rfl
    cases hp

protected theorem object {props : List (Property Ty)} (ascending : Shape.Ascending props)
    (h : ∀ p ∈ props, (optional = false → p.optional = false) ∧ MeetTarget optional p.type) :
    MeetTarget optional (.object props none) := by
  refine ⟨⟨built_object ascending (fun p hp => (h p hp).2.built) nofun, ⟨rfl, nofun, ?_, nofun⟩, ?_⟩, nofun, ?_⟩
  · rintro _ _ ⟨⟩
    exact ⟨rfl, fun ho p hp => (h p hp).1 ho⟩
  · exact List.forall_mem_map.2 fun p hp => (h p hp).2.nodes
  · exact List.forall_mem_map.2 fun p hp => (h p hp).2.unmet

end MeetTarget

/-! ### The first-order part of a type -/

namespace Ty

mutual

/-- The type without what is open, and without optional properties, in the places where an intersection takes it apart. -/
def core : Ty → Ty
  | union ms => unionOf (coreAll ms)
  | object props _ => object (coreProps props) none
  | t => if t.isConcrete then t else never
termination_by structural t => t

def coreAll : List Ty → List Ty
  | [] => []
  | t :: ts => t.core :: coreAll ts
termination_by structural ts => ts

def coreProps : List (Property Ty) → List (Property Ty)
  | [] => []
  | ⟨_, _, true, _⟩ :: rest => coreProps rest
  | ⟨key, type, false, readonly⟩ :: rest => ⟨key, type.core, false, readonly⟩ :: coreProps rest
termination_by structural props => props

end

theorem coreAll_eq (ts : List Ty) : coreAll ts = ts.map core := by
  induction ts with
  | nil => rfl
  | cons t ts ih => rw [coreAll, ih, List.map_cons]

/-- The first-order part of a property. -/
def coreProp (p : Property Ty) : Property Ty := { p with type := p.type.core }

theorem coreProps_eq (props : List (Property Ty)) : coreProps props = (props.filter (!·.optional)).map coreProp := by
  induction props with
  | nil => rfl
  | cons p props ih =>
    obtain ⟨key, type, optional, readonly⟩ := p
    cases optional with
    | false => rw [coreProps, ih, List.filter_cons_of_pos rfl, List.map_cons, coreProp]
    | true => rw [coreProps, ih, List.filter_cons_of_neg (by simp)]

theorem core_union (ms : List Ty) : (union ms).core = unionOf (ms.map core) := by rw [core, coreAll_eq]

theorem core_object (props : List (Property Ty)) (index : Option (IndexSignature Ty)) :
    (object props index).core = object ((props.filter (!·.optional)).map coreProp) none := by
  rw [core, coreProps_eq]

theorem mem_coreProps {props : List (Property Ty)} {q : Property Ty} :
    q ∈ (props.filter (!·.optional)).map coreProp ↔ ∃ p ∈ props, p.optional = false ∧ coreProp p = q := by
  simp only [List.mem_map, List.mem_filter, Bool.not_eq_true', and_assoc]

theorem ascending_coreProps {props : List (Property Ty)} (h : Shape.Ascending props) :
    Shape.Ascending ((props.filter (!·.optional)).map coreProp) :=
  List.pairwise_map.2 (h.sublist List.filter_sublist)

theorem core_other {t : Ty} (hu : ∀ ms, t ≠ union ms) (ho : ∀ props index, t ≠ object props index) :
    t.core = if t.isConcrete then t else never := by
  cases t with
  | union ms => exact absurd rfl (hu ms)
  | object props index => exact absurd rfl (ho props index)
  | _ => rfl

theorem core_piece {t : Ty} (ht : t.isPiece = true) (hc : t.isConcrete = true) : t.core = t := by
  rw [core_other, if_pos hc]
  · rintro ms rfl
    cases ht
  · rintro props index rfl
    cases ht

end Ty

section Core
variable {optional : Bool} {t x : Ty}

theorem firstOrder_never : FirstOrder never := .leaf rfl trivial rfl rfl

/-- What is first-order and not taken apart any further is its own first-order part. -/
theorem MeetTarget.comparable (h : MeetTarget optional t) (hu : ∀ ms, t ≠ union ms) (ho : ∀ props index, t ≠ object props index)
    (hc : t.isConcrete = true) : FirstOrder t := by
  cases t with
  | union ms => exact absurd rfl (hu ms)
  | object props index => exact absurd rfl (ho props index)
  | intersection ms => exact absurd rfl (h.unmet.node ms)
  | any => exact absurd rfl h.nodes.node.notAny
  | unknown | never => exact .leaf rfl trivial rfl rfl
  | _ => exact (h.nodes.node.comparable rfl hc).1

theorem firstOrder_object {props : List (Property Ty)} (ascending : Shape.Ascending props)
    (h : ∀ p ∈ props, p.optional = false ∧ FirstOrder p.type) : FirstOrder (object props none) := by
  have parts : ∀ u ∈ (object props none).parts, FirstOrder u := fun u hu => by
    obtain ⟨p, hp, rfl⟩ := List.mem_map.1 (by simpa [Ty.parts] using hu)
    exact (h p hp).2
  refine ⟨normal_object.2 ⟨ascending, fun p hp => (h p hp).2.normal, nofun⟩, ?_, fun u hu => (parts u hu).nodes⟩
  simpa [isFirstOrder] using fun p hp => (h p hp).1

theorem union_or_object_or_other (t : Ty) : (∃ ms, t = union ms) ∨ (∃ props index, t = object props index) ∨
    (∀ ms, t ≠ union ms) ∧ ∀ props index, t ≠ object props index := by
  cases t <;> first | exact .inl ⟨_, rfl⟩ | exact .inr (.inl ⟨_, _, rfl⟩) | exact .inr (.inr ⟨nofun, nofun⟩)

theorem MeetTarget.firstOrder_core (h : MeetTarget optional t) : FirstOrder t.core := by
  induction t using children_induction with
  | step t ih =>
    rcases union_or_object_or_other t with ⟨ms, rfl⟩ | ⟨props, index, rfl⟩ | ⟨hu, ho⟩
    · rw [core_union]
      refine .unionOf fun c hc => ?_
      obtain ⟨m, hm, rfl⟩ := List.mem_map.1 hc
      exact ih m hm (h.part hm)
    · have ascending : Shape.Ascending props := h.built.normal.form
      rw [core_object]
      refine firstOrder_object (ascending_coreProps ascending) fun p hp => ?_
      obtain ⟨q, hq, required, rfl⟩ := mem_coreProps.1 hp
      have part := List.mem_map_of_mem (f := (·.type)) hq
      exact ⟨required, ih q.type (List.mem_append_left _ part) (h.part part)⟩
    · rw [core_other hu ho]
      split
      · exact h.comparable hu ho ‹_›
      · exact firstOrder_never

end Core

/-! ### Sources that are first-order -/

section Sources
variable {t u x y : Ty}

/-- For a first-order source it is enough to look at those that are no unions. -/
theorem accepts_of_lone (ht : t.isAbsent = false)
    (h : ∀ y, FirstOrder y → isUnion y = false → accepts y u = true → accepts y t = true) (hx : FirstOrder x)
    (hxu : accepts x u = true) : accepts x t = true := by
  cases hux : isUnion x with
  | false => exact h x hx hux hxu
  | true =>
    obtain ⟨xs, rfl⟩ := eq_union_of_isUnion hux
    refine accepts_of_permits rfl ht (.sourceMembers fun m hm => ?_)
    have single := isUnion_of_isUnionMember (hx.unionForm.single m hm)
    refine h m (hx.member hm) single (accepts_member hxu hm (hx.member hm).present ?_)
    rintro ns rfl
    cases single

theorem FirstOrder.lone (hx : FirstOrder x) (hu : isUnion x = false) : Lone x := by
  refine ⟨?_, ?_⟩
  · rintro ms rfl
    cases hu
  · rintro ms rfl
    cases hx.node

theorem FirstOrder.unbounded (hx : FirstOrder x) : upperBound? x = none := by
  have := hx.node
  cases x <;> first | rfl | cases this

theorem FirstOrder.not_infer (hx : FirstOrder x) (name : String) (constraint : Ty) : x ≠ infer name constraint := by
  rintro rfl
  cases hx.node

/-- A first-order type is assignable to an intersection as to each of its parts. -/
theorem accepts_parts {ks : List Ty} (hx : FirstOrder x) (hu : isUnion x = false) (h : accepts x (intersection ks) = true) {k : Ty}
    (hk : k ∈ ks) (hp : k.isAbsent = false) : accepts x k = true := by
  rcases accepts_cases hx.present rfl h with rfl | he | he | he | hr
  · exact accepts_at_once rfl hp (.inl rfl)
  · cases he
  · cases he
  · rw [eq_of_identical_concrete hx.concrete he] at hx
    cases hx.node
  · rcases permits_known (hx.lone hu) hx.unbounded hx.not_infer hr with ⟨_, he, -⟩ | ⟨_, he, h⟩ | ⟨_, _, he, -⟩ | hm
    · cases he
    · cases he
      exact h k hk
    · cases he
    · cases hm

/-- A first-order type is assignable to a union as to one of its members, and `boolean` also where both its literals are
    members. -/
theorem accepts_some_member {ms : List Ty} (hx : FirstOrder x) (hu : isUnion x = false) (h : accepts x (union ms) = true) :
    x = never ∨ (∃ m ∈ ms, accepts x m = true) ∨ x = Ty.boolean ∧ ∀ v, boolLit v ∈ ms := by
  rcases accepts_cases hx.present rfl h with he | he | he | he | hr
  · exact .inl he
  · cases he
  · cases he
  · rw [eq_of_identical_concrete hx.concrete he] at hu
    cases hu
  · rcases permits_known (hx.lone hu) hx.unbounded hx.not_infer hr with ⟨_, he, h | h⟩ | ⟨_, he, h⟩ | ⟨_, _, he, -⟩ | hm
    · cases he
      have member : ∀ {v}, hasMember ms (boolLit v) = true → boolLit v ∈ ms := by
        intro v hv
        obtain ⟨m, hm, hi⟩ := List.any_eq_true.1 hv
        exact eq_of_identical_concrete (FirstOrder.boolLit v).concrete (identical_symm hi) ▸ hm
      refine .inr (.inr ⟨h.1, fun v => ?_⟩)
      cases v
      · exact member h.2.2
      · exact member h.2.1
    · cases he
      exact .inr (.inl h)
    · cases he
    · cases he
    · cases hm

theorem eq_never_of_accepts (hx : FirstOrder x) (hu : isUnion x = false) (h : accepts x never = true) : x = never := by
  rcases (accepts_iff_conforms hx firstOrder_never hu rfl).1 h with (h | h | h | h) | h
  · exact h
  · cases h
  · cases h
  · exact h
  · cases h

theorem accepts_some_of_unionOf {ts : List Ty} (hx : FirstOrder x) (hu : isUnion x = false)
    (h : accepts x (unionOf ts) = true) :
    x = never ∨ (∃ u ∈ unionMembersAll ts, accepts x u = true) ∨ x = Ty.boolean ∧ ∀ v, boolLit v ∈ unionMembersAll ts := by
  rcases unionOf_cases ts with ⟨hm, he⟩ | ⟨hm, he⟩ | ⟨-, -, ⟨-, he⟩ | ⟨u, hk, he⟩ | he⟩ <;> rw [he] at h
  · exact .inr (.inl ⟨_, hm, h⟩)
  · exact .inr (.inl ⟨_, hm, h⟩)
  · exact .inl (eq_never_of_accepts hx hu h)
  · exact .inr (.inl ⟨u, mem_of_keptMembers (hk ▸ List.mem_singleton_self u), h⟩)
  · have kept : ∀ {u}, u ∈ sortByText (keptMembers ts) → u ∈ unionMembersAll ts :=
      fun hu => mem_of_keptMembers (mem_sortByText.1 hu)
    exact (accepts_some_member hx hu h).imp_right (.imp (fun ⟨m, hm, h⟩ => ⟨m, kept hm, h⟩) fun h => ⟨h.1, fun v => kept (h.2 v)⟩)

/-- What is assignable to a shape shows it. -/
theorem shows_of_accepts {props : List (Property Ty)} (hx : FirstOrder x) (hu : isUnion x = false)
    (ascending : Shape.Ascending props) (h : accepts x (object props none) = true) :
    x = never ∨ ∃ s, apparentShape? x = some s ∧ ∀ want ∈ props, HasProp (accepts · · = true) s.props want := by
  rcases accepts_cases hx.present rfl h with he | he | he | he | hr
  · exact .inl he
  · cases he
  · cases he
  · cases eq_of_identical_concrete hx.concrete he
    refine .inr ⟨⟨props, none⟩, rfl, fun want hw => ?_⟩
    rw [HasProp, Shape.find?_of_mem ascending hw]
    exact ⟨id, id, accepts_refl (hx.object.2.1 want hw).2⟩
  · rcases permits_known (hx.lone hu) hx.unbounded hx.not_infer hr with ⟨_, he, -⟩ | ⟨_, he, -⟩ | ⟨_, _, he, -⟩ | hm
    · cases he
    · cases he
    · cases he
    · cases hm with
      | object hs hprops => exact .inr ⟨_, hs, hprops⟩

end Sources

/-! ### Narrower types -/

/-- The first type is what an intersection makes of the second and of other types. -/
inductive Narrows : Ty → Ty → Prop
  | never {t} : Narrows never t
  | unknown {r} : Narrows r unknown
  | same {r t} : r.isPiece = true → r.identical t = true → Narrows r t
  | implied {k t} : k.isPiece = true → FirstOrder k → (∀ ms, t ≠ union ms) → accepts k t.core = true → Narrows k t
  | shape {ps qs} : (∀ want ∈ qs, ∃ got, Shape.find? ps want.key = some got ∧ (got.optional = true → want.optional = true) ∧
        (got.readonly = true → want.readonly = true)) →
      (∀ want ∈ qs, ∀ got, Shape.find? ps want.key = some got → Narrows got.type want.type) →
      Narrows (object ps none) (object qs none)
  | part {ks k t} : (∀ ms, t ≠ union ms) → k ∈ ks → Narrows k t → Narrows (intersection ks) t
  | member {r ms m} : (∀ rs, r ≠ union rs) → m ∈ ms → Narrows r m → Narrows r (union ms)
  | alternatives {rs t} : (∀ r ∈ rs, Narrows r t) → Narrows (union rs) t

section Core
variable {optional : Bool} {t x : Ty}

theorem core_of_member {m : Ty} (h : m.isUnionMember = true) :
    (∃ props index, m = object props index) ∨ m.core = m ∨ m.core = never := by
  rcases union_or_object_or_other m with ⟨ms, rfl⟩ | ho | ⟨hu, ho⟩
  · cases h
  · exact .inl ho
  · rw [core_other hu ho]
    split
    · exact .inr (.inl rfl)
    · exact .inr (.inr rfl)

/-- What goes into the first-order part of a union is the first-order part of a member. -/
theorem mem_core_members {ms : List Ty} (h : UnionForm ms) {u : Ty} (hu : u ∈ unionMembersAll (ms.map Ty.core)) :
    ∃ m ∈ ms, u = m.core := by
  obtain ⟨c, hc, hu⟩ := mem_unionMembersAll hu
  obtain ⟨m, hm, rfl⟩ := List.mem_map.1 hc
  have lone : ∀ {c : Ty}, (∀ ns, c ≠ union ns) → u ∈ c.unionMembers → u = c := by
    intro c hn hu
    by_cases ha : c = absent
    · rw [ha] at hu
      cases hu
    · rw [unionMembers_self hn ha] at hu
      exact List.mem_singleton.1 hu
  refine ⟨m, hm, lone ?_ hu⟩
  rcases core_of_member (h.single m hm) with ⟨props, index, rfl⟩ | he | he
  · rw [core_object]
    nofun
  · rw [he]
    rintro ns rfl
    cases h.single _ hm
  · rw [he]
    nofun

theorem props_of_bare {s : Shape} (bare : x.isBare = true) (hs : apparentShape? x = some s) : s.props = [] := by
  cases x with
  | function | reference =>
    cases hs
    rfl
  | object | array | tuple => cases bare
  | _ => cases hs

theorem accepts_union_of_core {ms : List Ty} (form : UnionForm ms) (hx : FirstOrder x) (hu : isUnion x = false)
    (ih : ∀ m ∈ ms, accepts x m.core = true → accepts x m = true) (h : accepts x (union ms).core = true) :
    accepts x (union ms) = true := by
  rw [core_union] at h
  rcases accepts_some_of_unionOf hx hu h with rfl | ⟨u, mem, h⟩ | ⟨rfl, literals⟩
  · exact accepts_at_once rfl rfl (.inl rfl)
  · obtain ⟨m, hm, rfl⟩ := mem_core_members form mem
    exact accepts_of_permits hx.present rfl (.targetMember (hx.lone hu).1 hm (ih m hm h))
  · have member : ∀ v, hasMember ms (boolLit v) = true := by
      intro v
      obtain ⟨m, hm, he⟩ := mem_core_members form (literals v)
      rcases core_of_member (form.single m hm) with ⟨props, index, rfl⟩ | hc | hc
      · rw [core_object] at he
        cases he
      · rw [hc] at he
        exact List.any_eq_true.2 ⟨m, hm, he ▸ identical_refl m⟩
      · rw [hc] at he
        cases he
    exact accepts_of_permits rfl rfl (.splitBoolean ⟨rfl, member true, member false⟩)

theorem accepts_shape_of_core {props : List (Property Ty)} (ascending : Shape.Ascending props) (hx : FirstOrder x)
    (hu : isUnion x = false)
    (wanted : x.isBare = true ∨ ∀ p ∈ props, p.optional = false ∧
      ∀ y, FirstOrder y → accepts y p.type.core = true → accepts y p.type = true)
    (h : accepts x (object props none).core = true) : accepts x (object props none) = true := by
  rw [core_object] at h
  rcases shows_of_accepts hx hu (ascending_coreProps ascending) h with rfl | ⟨s, hs, has⟩
  · exact accepts_at_once rfl rfl (.inl rfl)
  · refine accepts_of_permits hx.present rfl (.structural (hx.lone hu) (.object hs (fun want hw => ?_) nofun))
    rcases wanted with bare | wanted
    · -- A bare type shows no properties, so only optional ones are wanted of it.
      rw [props_of_bare bare hs] at has ⊢
      cases ho : want.optional with
      | true => exact ho
      | false => exact has (coreProp want) (mem_coreProps.2 ⟨want, hw, ho, rfl⟩)
    · obtain ⟨required, ih⟩ := wanted want hw
      have shown := has _ (mem_coreProps.2 ⟨want, hw, required, rfl⟩)
      unfold HasProp coreProp at shown
      unfold HasProp
      cases hf : Shape.find? s.props want.key with
      | none => rwa [hf] at shown
      | some got =>
        rw [hf] at shown
        have shows := (firstOrder_of_apparentShape? hx hs).2 got (Shape.mem_of_find? hf)
        exact shown.imp_right (.imp_right (ih got.type shows.2))

/-- What is assignable to the first-order part of a type is assignable to the type. -/
theorem MeetTarget.accepts_of_core (ht : MeetTarget optional t) (hx : FirstOrder x) (bare : optional = true → x.isBare = true)
    (h : accepts x t.core = true) : accepts x t = true := by
  induction t using children_induction generalizing x with
  | step t ih =>
    have lone : ∀ y, FirstOrder y → isUnion y = false → (optional = true → y.isBare = true) → accepts y t.core = true →
        accepts y t = true := by
      intro y hy hu bare h
      rcases union_or_object_or_other t with ⟨ms, rfl⟩ | ⟨props, index, rfl⟩ | ⟨hut, hot⟩
      · exact accepts_union_of_core ht.built.normal.form hy hu (fun m hm => ih m hm (ht.part hm) hy bare) h
      · obtain ⟨rfl, required⟩ := ht.nodes.node.shape props index rfl
        refine accepts_shape_of_core ht.built.normal.form hy hu ?_ h
        cases optional with
        | true => exact .inl (bare rfl)
        | false =>
          refine .inr fun p hp => ⟨required rfl p hp, fun z hz => ?_⟩
          have part := List.mem_map_of_mem (f := (·.type)) hp
          exact ih p.type (List.mem_append_left _ part) (ht.part part) hz nofun
      · rw [core_other hut hot] at h
        split at h
        · exact h
        · exact accepts_at_once hy.present ht.present (.inl (eq_never_of_accepts hy hu h))
    cases optional with
    | true =>
      refine lone x hx ?_ bare h
      cases x with
      | union => cases bare rfl
      | _ => rfl
    | false => exact accepts_of_lone ht.present (fun y hy hu => lone y hy hu nofun) hx h

/-- What shows a property shows the first-order part of a required property in its place, if its types are assignable to
    that. -/
theorem hasProp_core {s : Shape} (hx : FirstOrder x) (hs : apparentShape? x = some s) {p q : Property Ty} (key : p.key = q.key)
    (required : q.optional = false) (optional : p.optional = true → q.optional = true)
    (readonly : p.readonly = true → q.readonly = true) (shown : HasProp (accepts · · = true) s.props p)
    (fits : ∀ y, FirstOrder y → accepts y p.type = true → accepts y q.type.core = true) :
    HasProp (accepts · · = true) s.props (coreProp q) := by
  unfold HasProp at shown ⊢
  dsimp only [coreProp]
  rw [← key]
  cases hf : Shape.find? s.props p.key with
  | none =>
    rw [hf] at shown
    exact absurd (required.symm.trans (optional shown)) Bool.false_ne_true
  | some y =>
    rw [hf] at shown
    obtain ⟨-, hry, hy⟩ := shown
    have shows := (firstOrder_of_apparentShape? hx hs).2 y (Shape.mem_of_find? hf)
    refine ⟨fun h => ?_, readonly ∘ hry, fits y.type shows.2 hy⟩
    exact absurd (shows.1.symm.trans h) Bool.false_ne_true

end Core

namespace Narrows
variable {optional : Bool} {r t k x : Ty}

/-- Narrower types are assignable to wider ones. -/
theorem accepts (h : Narrows r t) (hr : MeetOperand optional r) (ht : MeetTarget optional t) : accepts r t = true := by
  induction h with
  | never => exact accepts_at_once rfl ht.present (.inl rfl)
  | unknown => exact accepts_at_once hr.node.present rfl (.inr (.inr (.inl rfl)))
  | same hp hi => exact accepts_at_once hr.node.present ht.present (.inr (.inr (.inr hi)))
  | implied hp hk hu h => exact ht.accepts_of_core hk (hr.node.comparable hp hk.concrete).2 h
  | @shape ps qs has _ ih =>
    refine accepts_of_permits rfl rfl (.structural ⟨nofun, nofun⟩ (.object rfl (fun want hw => ?_) nofun))
    obtain ⟨got, hg, ho, hro⟩ := has want hw
    have mem := Shape.mem_of_find? hg
    rw [HasProp, hg]
    exact ⟨ho, hro, ih want hw got hg (hr.under (List.mem_map_of_mem mem)) (ht.part (List.mem_map_of_mem hw))⟩
  | part hu hk _ ih => exact accepts_of_permits rfl ht.present (.sourcePart hu hk (ih (hr.under hk) ht))
  | member hu hm _ ih => exact accepts_of_permits hr.node.present rfl (.targetMember hu hm (ih hr (ht.part hm)))
  | alternatives _ ih =>
    exact accepts_of_permits rfl ht.present (.sourceMembers fun m hm => ih m hm (hr.under hm) ht)

/-- What is assignable to a narrower type without open parts is assignable to the first-order part of the wider one. -/
theorem core (h : Narrows r t) (hr : MeetOperand optional r) (ht : MeetTarget optional t) (hc : r.isConcrete = true) (hx : FirstOrder x)
    (hxr : Assignable.accepts x r = true) : Assignable.accepts x t.core = true := by
  induction h generalizing x with
  | never =>
    have fo := ht.firstOrder_core
    exact accepts_trans hx firstOrder_never fo hxr (accepts_at_once rfl fo.present (.inl rfl))
  | unknown => exact accepts_at_once hx.present rfl (.inr (.inr (.inl rfl)))
  | same hp hi =>
    cases eq_of_identical_concrete hc hi
    rwa [core_piece hp hc]
  | implied hp hk hu h => exact accepts_trans hx hk ht.firstOrder_core hxr h
  | @shape ps qs has _ ih =>
    refine accepts_of_lone ht.firstOrder_core.present (fun x hx hux hxr => ?_) hx hxr
    rw [core_object]
    rcases shows_of_accepts hx hux (hr.node.shape ps none rfl).2 hxr with rfl | ⟨s, hs, shown⟩
    · exact accepts_at_once rfl rfl (.inl rfl)
    · refine accepts_of_permits hx.present rfl (.structural (hx.lone hux) (.object hs (fun want hw => ?_) nofun))
      obtain ⟨q, hq, required, rfl⟩ := mem_coreProps.1 hw
      obtain ⟨p, hp, ho, hro⟩ := has q hq
      have mem := Shape.mem_of_find? hp
      refine hasProp_core hx hs (Shape.key_of_find? hp) required ho hro (shown p mem) fun y hy h => ?_
      have concrete := concrete_of_meetPart (u := p.type) hc (List.mem_map_of_mem mem)
      exact ih q hq p hp (hr.under (List.mem_map_of_mem mem)) (ht.part (List.mem_map_of_mem hq)) concrete hy h
  | @part ks k t hu hk _ ih =>
    refine accepts_of_lone ht.firstOrder_core.present (fun x hx hux hxr => ?_) hx hxr
    have hkr : MeetOperand optional k := hr.under hk
    exact ih hkr ht (concrete_of_meetPart hc hk) hx (accepts_parts hx hux hxr hk hkr.node.present)
  | @member r ms m hu hm _ ih =>
    have cores : ∀ c ∈ ms.map Ty.core, FirstOrder c := by
      intro c hc
      obtain ⟨n, hn, rfl⟩ := List.mem_map.1 hc
      exact (ht.part hn).firstOrder_core
    have fo : FirstOrder (unionOf (ms.map Ty.core)) := .unionOf cores
    rw [core_union]
    refine accepts_trans hx (ht.part hm).firstOrder_core fo (ih hr (ht.part hm) hc hx hxr) ?_
    exact (accepts_unionOf cores fo).1 (accepts_refl fo) _ (List.mem_map_of_mem hm)
  | @alternatives rs t _ ih =>
    refine accepts_of_lone ht.firstOrder_core.present (fun x hx hux hxr => ?_) hx hxr
    have below : ∀ {y m}, m ∈ rs → FirstOrder y → Assignable.accepts y m = true → Assignable.accepts y t.core = true :=
      fun hm hy h => ih _ hm (hr.under hm) ht (concrete_of_meetPart hc hm) hy h
    rcases accepts_some_member hx hux hxr with rfl | ⟨m, hm, h⟩ | ⟨rfl, literals⟩
    · exact accepts_at_once rfl ht.firstOrder_core.present (.inl rfl)
    · exact below hm hx h
    · have literal : ∀ v, Assignable.accepts (boolLit v) t.core = true :=
        fun v => below (literals v) (.boolLit v) (accepts_refl (.boolLit v))
      exact accepts_boolean ht.firstOrder_core (literal true) (literal false)

end Narrows

end TypeCalculus

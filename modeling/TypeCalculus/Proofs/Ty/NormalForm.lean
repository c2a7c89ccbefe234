import TypeCalculus.Proofs.Ty.Shape
import TypeCalculus.Proofs.Ty.Union
import TypeCalculus.Ty.Object

/-! The normal form of types: what every node of a tree looks like once it went through the normalising
    constructors. What is written beside a parameter is part of the tree here, since a comparison may capture
    parts of a constraint. -/

namespace TypeCalculus.Ty

/-! ### The form of a node -/

/-- The type may be a member of a union in normal form. -/
def isUnionMember : Ty → Bool
  | union _ | any | unknown | never => false
  | _ => true

def isMeetMember : Ty → Bool
  | union _ | intersection _ | any | unknown | never => false
  | _ => true

def isShape : Ty → Bool
  | object .. => true
  | _ => false

/-- The type may stay in a hole of a template in normal form. -/
def isOpenHole : Ty → Bool
  | literal .. | union _ | template _ | never => false
  | prim .boolean | prim .null | prim .undefined | prim .symbol => false
  | t => t.isStringLike

/-- The members of a union in normal form. -/
structure UnionForm (members : List Ty) : Prop where
  two : 2 ≤ members.length
  single : ∀ m ∈ members, m.isUnionMember = true
  uncovered : ∀ base text, literal base text ∈ members → prim base ∉ members
  apart : members.Pairwise fun a b => a.identical b = false
  sorted : members.Pairwise fun a b => a.print ≤ b.print

structure MeetForm (members : List Ty) : Prop where
  two : 2 ≤ members.length
  single : ∀ m ∈ members, m.isMeetMember = true
  oneShape : members.Pairwise fun a b => ¬(a.isShape = true ∧ b.isShape = true)
  apart : members.Pairwise fun a b => a.identical b = false
  sorted : members.Pairwise fun a b => a.print ≤ b.print

structure TemplateForm (segments : List (Segment Ty)) : Prop where
  open_ : holes segments ≠ []
  notString : segments ≠ [.hole string]
  filled : .text "" ∉ segments
  joined : ∀ s t, ¬[.text s, .text t] <:+: segments
  holes : ∀ t ∈ holes segments, t.isOpenHole = true

/-- What the normal form asks of a node. -/
def NodeForm : Ty → Prop
  | union members => UnionForm members
  | intersection members => MeetForm members
  | template segments => TemplateForm segments
  | object props _ => Shape.Ascending props
  | conditional check _ _ _ distribute => distribute = true → check.isParam = true
  | _ => True

/-- The direct subtrees of a type, and what is written beside a parameter. -/
def children : Ty → List Ty
  | param _ constraint default => [constraint, default]
  | t => t.parts

/-- Every node of the tree has the normal form. -/
inductive Normal : Ty → Prop
  | mk {t : Ty} : NodeForm t → (∀ u ∈ t.children, Normal u) → Normal t

theorem Normal.form {t : Ty} : Normal t → NodeForm t
  | mk h _ => h

theorem Normal.child {t u : Ty} : Normal t → u ∈ t.children → Normal u
  | mk _ h, hu => h u hu

theorem Normal.leaf {t : Ty} (h : NodeForm t) (hc : t.children = []) : Normal t :=
  ⟨h, fun u hu => by rw [hc] at hu; cases hu⟩

theorem Normal.single {t u : Ty} (h : NodeForm t) (hc : t.children = [u]) (hu : Normal u) : Normal t :=
  ⟨h, fun v hv => by rw [hc] at hv; exact List.mem_singleton.1 hv ▸ hu⟩

theorem normal_absent : Normal absent := .leaf trivial rfl
theorem normal_any : Normal any := .leaf trivial rfl
theorem normal_unknown : Normal unknown := .leaf trivial rfl
theorem normal_never : Normal never := .leaf trivial rfl
theorem normal_prim (p : Prim) : Normal (prim p) := .leaf trivial rfl
theorem normal_literal (base : Prim) (text : String) : Normal (literal base text) := .leaf trivial rfl

theorem normal_emptyObject : Normal emptyObject := .leaf List.Pairwise.nil rfl

theorem normal_infer {name : String} {constraint : Ty} : Normal (infer name constraint) ↔ Normal constraint := by
  have kids : (infer name constraint).children = constraint.present?.toList := rfl
  constructor
  · intro h
    cases constraint with
    | absent => exact normal_absent
    | _ => exact h.child (by rw [kids]; exact List.mem_cons_self)
  · intro h
    refine ⟨trivial, fun u hu => ?_⟩
    rw [kids] at hu
    cases constraint with
    | absent => cases hu
    | _ => exact List.mem_singleton.1 hu ▸ h

/-! ### Unions -/

theorem normal_union_member {members : List Ty} (h : Normal (union members)) : ∀ m ∈ members, Normal m :=
  fun _ hm => h.child hm

theorem isUnionMember_of_kept {ts : List Ty} {u : Ty} (hany : (unionMembersAll ts).any isAny = false)
    (hunknown : (unionMembersAll ts).any isUnknown = false) (hu : u ∈ unionMembersAll ts)
    (hr : isRedundantIn (unionMembersAll ts) u = false) : u.isUnionMember = true := by
  cases u with
  | union ms =>
    obtain ⟨t, -, ht⟩ := mem_unionMembersAll hu
    exact absurd ht (union_not_mem_unionMembers t)
  | any => exact absurd rfl (List.any_eq_false.1 hany any hu)
  | unknown => exact absurd rfl (List.any_eq_false.1 hunknown unknown hu)
  | never => cases hr
  | _ => rfl

theorem uncovered_of_kept {ts : List Ty} {base : Prim} {text : String}
    (h : isRedundantIn ts (literal base text) = false) : prim base ∉ ts := by
  intro hb
  have : holdsPrim ts base = true := List.any_eq_true.2 ⟨prim base, hb, by simp⟩
  rw [isRedundantIn, this] at h
  cases h

theorem two_le_length {α : Type} {xs : List α} (h₀ : xs ≠ []) (h₁ : ∀ x, xs ≠ [x]) : 2 ≤ xs.length := by
  match xs, h₀, h₁ with
  | [], h₀, _ => exact absurd rfl h₀
  | [x], _, h₁ => exact absurd rfl (h₁ x)
  | _ :: _ :: xs, _, _ => simp

theorem apart_sortByText {ts : List Ty} (h : ts.Pairwise fun a b => a.identical b = false) :
    (sortByText ts).Pairwise fun a b => a.identical b = false := by
  refine (sortByText_perm ts).symm.pairwise h fun {a b} hab => ?_
  cases hba : b.identical a with
  | false => rfl
  | true => rw [identical_symm hba] at hab; cases hab

/-- A union that any types have is in normal form. -/
theorem unionForm_unionOf {ts ms : List Ty} (h : unionOf ts = union ms) : UnionForm ms := by
  have kept : ∀ u ∈ distinct [] ((unionMembersAll ts).filter fun t => !isRedundantIn (unionMembersAll ts) t),
      u ∈ unionMembersAll ts ∧ isRedundantIn (unionMembersAll ts) u = false := by
    intro u hu
    simpa using List.mem_filter.1 ((distinct_sublist _ _).subset hu)
  unfold unionOf at h
  dsimp only at h
  split at h
  · cases h
  · rename_i hany
    split at h
    · cases h
    · rename_i hunknown
      split at h
      · cases h
      · rename_i t he
        obtain ⟨t, -, ht⟩ := mem_unionMembersAll (kept _ (he ▸ List.mem_singleton_self _)).1
        exact absurd (h ▸ ht) (union_not_mem_unionMembers t)
      · rename_i h₀ h₁
        cases h
        refine ⟨?_, fun m hm => ?_, fun base text hl hb => ?_, apart_sortByText (distinct_pairwise _ _),
          sortByText_pairwise _⟩
        · rw [(sortByText_perm _).length_eq]
          exact two_le_length h₀ h₁
        · obtain ⟨hm, hr⟩ := kept m (mem_sortByText.1 hm)
          exact isUnionMember_of_kept (by simpa using hany) (by simpa using hunknown) hm hr
        · exact uncovered_of_kept (kept _ (mem_sortByText.1 hl)).2 (kept _ (mem_sortByText.1 hb)).1

/-- The union of types in normal form is in normal form. -/
theorem normal_unionOf {ts : List Ty} (h : ∀ t ∈ ts, Normal t) : Normal (unionOf ts) := by
  have member : ∀ u ∈ unionMembersAll ts, Normal u := by
    intro u hu
    obtain ⟨t, ht, hu⟩ := mem_unionMembersAll hu
    exact unionMembers_forall normal_union_member t (h t ht) u hu
  rcases unionOf_cases ts with ⟨-, he⟩ | ⟨-, he⟩ | ⟨-, -, ⟨-, he⟩ | ⟨t, hk, he⟩ | he⟩
  · exact he ▸ normal_any
  · exact he ▸ normal_unknown
  · exact he ▸ normal_never
  · exact he ▸ member t (mem_of_keptMembers (hk ▸ List.mem_singleton_self t))
  · rw [he]
    exact ⟨unionForm_unionOf he, fun u hu => member u (mem_of_keptMembers (mem_sortByText.1 hu))⟩

theorem normal_unionOf_pair {a b : Ty} (ha : Normal a) (hb : Normal b) : Normal (unionOf [a, b]) := by
  refine normal_unionOf fun t ht => ?_
  rcases List.mem_cons.1 ht with rfl | ht
  · exact ha
  · exact List.mem_singleton.1 ht ▸ hb

/-! ### Shapes and conditionals -/

theorem normal_object {props : List (Property Ty)} {index : Option (IndexSignature Ty)} :
    Normal (object props index) ↔
      Shape.Ascending props ∧ (∀ p ∈ props, Normal p.type) ∧ ∀ i, index = some i → Normal i.value := by
  constructor
  · intro h
    refine ⟨h.form, fun p hp => h.child ?_, fun i hi => h.child ?_⟩
    · exact List.mem_append_left _ (List.mem_map_of_mem hp)
    · rw [hi]
      exact List.mem_append_right _ List.mem_cons_self
  · rintro ⟨ha, hp, hi⟩
    refine ⟨ha, fun u hu => ?_⟩
    rcases List.mem_append.1 hu with hu | hu
    · obtain ⟨p, hm, rfl⟩ := List.mem_map.1 hu
      exact hp p hm
    · cases index with
      | none => cases hu
      | some i => exact List.mem_singleton.1 hu ▸ hi i rfl

theorem normal_ofProps {props : List (Property Ty)} {index : Option (IndexSignature Ty)}
    (hp : ∀ p ∈ props, Normal p.type) (hi : ∀ i, index = some i → Normal i.value) :
    Normal (Shape.ofProps props index).toTy :=
  normal_object.2 ⟨Shape.ascending_ofProps props index, fun p h => hp p (Shape.mem_ofProps h), hi⟩

theorem normal_conditional {check bound yes no : Ty} {distribute : Bool} :
    Normal (conditional check bound yes no distribute) ↔
      (distribute = true → check.isParam = true) ∧ Normal check ∧ Normal bound ∧ Normal yes ∧ Normal no := by
  constructor
  · intro h
    refine ⟨h.form, h.child ?_, h.child ?_, h.child ?_, h.child ?_⟩ <;> simp [children, parts]
  · rintro ⟨hd, hc, hb, hy, hn⟩
    refine ⟨hd, fun u hu => ?_⟩
    simp only [children, parts, List.mem_cons, List.not_mem_nil, or_false] at hu
    rcases hu with rfl | rfl | rfl | rfl
    · exact hc
    · exact hb
    · exact hy
    · exact hn

end TypeCalculus.Ty

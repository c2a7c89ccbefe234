import Mathlib
import TypeCalculus.Proofs.Assignable.Wider

/-! Captures are sound where placeholders occur covariantly: a type without placeholders that is assignable to a pattern is
    assignable to the pattern with the captured types in place of its placeholders (`captures_sound`).

    The captures of one name accumulate, and the unions of a pattern are normalised again when its placeholders are replaced.
    So the induction is on the derivation, with the final captures, which cover all captures of the derivation (`Covers`). -/

namespace TypeCalculus
open Ty Assignable

/-! ### Patterns -/

/-- Placeholders occur only at the root, as elements, members of unions, arguments, types of properties, values of index
    signatures and results of functions. -/
inductive Covariant : Ty → Prop
  | closed {t} : (∀ name, ¬Placed name t) → Covariant t
  | infer {name constraint} : (∀ n, ¬Placed n constraint) → Covariant (.infer name constraint)
  | array {elem readonly} : Covariant elem → Covariant (.array elem readonly)
  | tuple {elems} : (∀ t ∈ elems, Covariant t) → Covariant (.tuple elems)
  | union {members} : (∀ t ∈ members, Covariant t) → Covariant (.union members)
  | reference {name args} : (∀ t ∈ args, Covariant t) → Covariant (.reference name args)
  | function {params result} : (∀ t ∈ params, ∀ n, ¬Placed n t) → Covariant result → Covariant (.function params result)
  | object {props index} : (∀ p ∈ props, Covariant p.type) → (∀ i, index = some i → Covariant i.value) →
      Covariant (.object props index)

namespace Ty
variable (σ : Subst)

mutual

/-- The pattern with the captured types in place of its placeholders, `never` for one that captured nothing. -/
def withCaptures : Ty → Ty
  | infer name _ => (σ.find? name).getD never
  | array elem readonly => array elem.withCaptures readonly
  | tuple elems => tuple (withCapturesAll elems)
  | union members => unionOf (withCapturesAll members)
  | reference name args => reference name (withCapturesAll args)
  | function params result => function (withCapturesAll params) result.withCaptures
  | object props index => (Shape.ofProps (withCapturesProps props) (withCapturesIndex index)).toTy
  | t => t
termination_by structural t => t

def withCapturesAll : List Ty → List Ty
  | [] => []
  | t :: ts => t.withCaptures :: withCapturesAll ts
termination_by structural ts => ts

def withCapturesProps : List (Property Ty) → List (Property Ty)
  | [] => []
  | ⟨key, type, optional, readonly⟩ :: rest => ⟨key, type.withCaptures, optional, readonly⟩ :: withCapturesProps rest
termination_by structural props => props

def withCapturesIndex : Option (IndexSignature Ty) → Option (IndexSignature Ty)
  | none => none
  | some ⟨key, value⟩ => some ⟨key, value.withCaptures⟩
termination_by structural index => index

end

theorem withCapturesAll_eq (ts : List Ty) : withCapturesAll σ ts = ts.map (withCaptures σ) := by
  induction ts with
  | nil => rfl
  | cons t ts ih => rw [withCapturesAll, ih, List.map_cons]

theorem withCapturesProps_eq (props : List (Property Ty)) :
    withCapturesProps σ props = props.map fun p => { p with type := p.type.withCaptures σ } := by
  induction props with
  | nil => rfl
  | cons p props ih => rw [withCapturesProps, ih, List.map_cons]

theorem withCapturesIndex_eq (index : Option (IndexSignature Ty)) :
    withCapturesIndex σ index = index.map fun i => { i with value := i.value.withCaptures σ } := by
  cases index <;> rfl

theorem withCaptures_object {props : List (Property Ty)} (h : Shape.Ascending props) (index : Option (IndexSignature Ty)) :
    (object props index).withCaptures σ = object (props.map fun p => { p with type := p.type.withCaptures σ })
      (index.map fun i => { i with value := i.value.withCaptures σ }) := by
  have ascending : Shape.Ascending (props.map fun p => { p with type := p.type.withCaptures σ }) := List.pairwise_map.2 h
  rw [withCaptures, withCapturesProps_eq, withCapturesIndex_eq, Shape.ofProps_self ascending]
  rfl

end Ty

section Covariant
variable {κ : String → Ty} {σ : Subst} {t u a b c : Ty}

/-- Without placeholders a type stays as it is. -/
theorem withCaptures_self (h : Definite κ t) : t.withCaptures σ = t := by
  induction t using children_induction with
  | step t ih =>
    have part : ∀ u ∈ t.children, u.withCaptures σ = u := fun u hu => ih u hu (h.child hu)
    have all : ∀ (ts : List Ty), (∀ u ∈ ts, u ∈ t.children) → ts.map (withCaptures σ) = ts := fun ts hts =>
      (List.map_congr_left fun u hu => part u (hts u hu)).trans (List.map_id ts)
    cases t with
    | infer name constraint => exact absurd rfl (h.not_infer name constraint)
    | array elem => rw [withCaptures, part elem List.mem_cons_self]
    | tuple ts | reference _ ts =>
      rw [withCaptures, withCapturesAll_eq, all ts fun _ hu => hu]
    | union ms =>
      rw [withCaptures, withCapturesAll_eq, all ms fun _ hu => hu, unionOf_members h.normal.form (h.tidy.node.union ms rfl)]
    | function ts t =>
      rw [withCaptures, withCapturesAll_eq, all ts fun _ hu => List.mem_append_left _ hu,
        part t (List.mem_append_right _ List.mem_cons_self)]
    | object props index =>
      have hp : props.map (fun p => { p with type := p.type.withCaptures σ }) = props := by
        refine (List.map_congr_left fun p hp => ?_).trans (List.map_id _)
        rw [part p.type (List.mem_append_left _ (List.mem_map_of_mem hp))]
        rfl
      have hi : index.map (fun i => { i with value := i.value.withCaptures σ }) = index := by
        cases index with
        | none => rfl
        | some i =>
          rw [Option.map_some, part i.value (List.mem_append_right _ List.mem_cons_self)]
      rw [withCaptures_object σ h.normal.form, hp, hi]
    | _ => rfl

theorem Formed.node (hf : NodeForm t) (ht : TidyNode t) (hp : ∀ n c d, t ≠ param n c d) (h : ∀ u ∈ t.children, Formed κ u) :
    Formed κ t :=
  ⟨⟨hf, fun u hu => (h u hu).normal⟩, ⟨ht, fun u hu => (h u hu).tidy⟩,
    ⟨fun n c d he => absurd he (hp n c d), fun u hu => (h u hu).constrained⟩⟩

theorem not_placed (hi : ∀ n c, t ≠ infer n c) (h : ∀ u ∈ t.children, ∀ name, ¬Placed name u) (name : String) :
    ¬Placed name t := by
  intro hn
  cases hn with
  | here => exact hi _ _ rfl
  | inside hu hn => exact h _ hu name hn

/-- A node that is well formed over definite children is definite, unless it is a parameter or a placeholder. -/
theorem Definite.node (hf : NodeForm t) (ht : TidyNode t) (hp : ∀ n c d, t ≠ param n c d) (hi : ∀ n c, t ≠ infer n c)
    (h : ∀ u ∈ t.children, Definite κ u) : Definite κ t :=
  ⟨.node hf ht hp fun u hu => (h u hu).toFormed, not_placed hi fun u hu => (h u hu).free⟩

/-- Every name captured has a definite type. -/
def DefiniteCaptures (κ : String → Ty) (σ : Subst) : Prop :=
  ∀ name t, σ.find? name = some t → Definite κ t ∧ t.isAbsent = false

theorem definite_withCaptures (hσ : DefiniteCaptures κ σ) (ht : Formed κ t) (hc : Covariant t) :
    Definite κ (t.withCaptures σ) := by
  have structural : ∀ {t : Ty}, t.isStructural = true → (∀ u ∈ t.children, Definite κ u) → NodeForm t → Definite κ t := by
    intro t ht h hf
    exact .node hf (tidyNode_of_structural ht) (by rintro _ _ _ rfl; cases ht) (by rintro _ _ rfl; cases ht) h
  have closed : ∀ {t}, Formed κ t → (∀ name, ¬Placed name t) → Definite κ t := fun ht h => ⟨ht, h⟩
  have all : ∀ {ts : List Ty}, (∀ t ∈ ts, Formed κ t) → (∀ t ∈ ts, Formed κ t → Definite κ (t.withCaptures σ)) →
      ∀ u ∈ ts.map (withCaptures σ), Definite κ u := by
    intro ts ht ih u hu
    obtain ⟨t, hm, rfl⟩ := List.mem_map.1 hu
    exact ih t hm (ht t hm)
  induction hc with
  | closed h =>
    have definite := closed ht h
    exact (withCaptures_self definite).symm ▸ definite
  | @infer name _ _ =>
    rw [withCaptures]
    cases hf : σ.find? name with
    | none => exact .atom rfl
    | some t => exact (hσ name t hf).1
  | array _ ih =>
    rw [withCaptures]
    exact structural rfl (List.forall_mem_singleton.2 (ih (ht.child List.mem_cons_self))) trivial
  | tuple _ ih =>
    rw [withCaptures, withCapturesAll_eq]
    exact structural rfl (all (fun _ hu => ht.child hu) ih) trivial
  | union _ ih =>
    rw [withCaptures, withCapturesAll_eq]
    exact .unionOf (all (fun _ hu => ht.child hu) ih)
  | reference _ ih =>
    rw [withCaptures, withCapturesAll_eq]
    exact .node trivial (tidyNode_of_pending (.inr rfl)) nofun nofun (all (fun _ hu => ht.child hu) ih)
  | @function params result hp _ ih =>
    have same : params.map (withCaptures σ) = params := by
      refine (List.map_congr_left fun u hu => ?_).trans (List.map_id _)
      exact withCaptures_self (closed (ht.child (List.mem_append_left _ hu)) (hp u hu))
    rw [withCaptures, withCapturesAll_eq, same]
    refine structural rfl (List.forall_mem_append.2 ⟨fun u hu => ?_, List.forall_mem_singleton.2 ?_⟩) trivial
    · exact closed (ht.child (List.mem_append_left _ hu)) (hp u hu)
    · exact ih (ht.child (List.mem_append_right _ List.mem_cons_self))
  | @object props index _ _ ihp ihi =>
    rw [withCaptures_object σ ht.normal.form]
    refine structural rfl (List.forall_mem_append.2 ⟨fun u hu => ?_, fun u hu => ?_⟩) (List.pairwise_map.2 ht.normal.form)
    · rw [List.map_map] at hu
      obtain ⟨p, hm, rfl⟩ := List.mem_map.1 hu
      exact ihp p hm (ht.child (List.mem_append_left _ (List.mem_map_of_mem hm)))
    · cases index with
      | none => cases hu
      | some i =>
        obtain rfl := List.mem_singleton.1 hu
        exact ihi i rfl (ht.child (List.mem_append_right _ List.mem_cons_self))

theorem present_withCaptures (hσ : DefiniteCaptures κ σ) (ht : t.isAbsent = false) : (t.withCaptures σ).isAbsent = false := by
  cases t with
  | infer name constraint =>
    rw [withCaptures]
    cases hf : σ.find? name with
    | none => rfl
    | some t => exact (hσ name t hf).2
  | union ms =>
    rw [withCaptures]
    exact present_unionOf _
  | absent => cases ht
  | _ => rfl

/-- What is identical to a definite type has no placeholders where captures may be. -/
theorem closed_of_alike (ha : Definite κ a) (h : Alike κ a b) (hb : Covariant b) : ∀ name, ¬Placed name b := by
  have closed : ∀ {t : Ty}, (∀ n c, t ≠ infer n c) → (∀ u ∈ t.children, ∀ name, ¬Placed name u) → ∀ name, ¬Placed name t := by
    intro t hi h name hn
    cases hn with
    | here => exact hi _ _ rfl
    | inside hu hn => exact h _ hu name hn
  have all : ∀ {ts us : List Ty}, (∀ t ∈ ts, Definite κ t) → List.Forall₂ (Alike κ) us ts →
      (∀ u ∈ us, ∀ {t}, Definite κ t → Alike κ t u → ∀ name, ¬Placed name u) → ∀ u ∈ us, ∀ name, ¬Placed name u := by
    intro ts us hts h ih u hu
    obtain ⟨t, ht, hut⟩ := exists_alike h hu
    exact ih u hu (hts t ht) hut.symm
  induction hb generalizing a with
  | closed hn => exact hn
  | infer =>
    obtain ⟨_, rfl, -⟩ := h.symm.infer
    exact absurd rfl (ha.not_infer _ _)
  | array _ ih =>
    obtain ⟨u, rfl, hu⟩ := h.symm.array
    exact closed nofun (List.forall_mem_singleton.2 (ih (ha.child List.mem_cons_self) hu.symm))
  | tuple _ ih =>
    obtain ⟨us, rfl, hus⟩ := h.symm.tuple
    exact closed nofun (all (fun _ hu => ha.child hu) hus fun u hu t ht => ih u hu ht)
  | union _ ih =>
    obtain ⟨us, rfl, hus⟩ := h.symm.union
    exact closed nofun (all (fun _ hu => ha.child hu) hus fun u hu t ht => ih u hu ht)
  | reference _ ih =>
    obtain ⟨us, rfl, hus⟩ := h.symm.reference
    exact closed nofun (all (fun _ hu => ha.child hu) hus fun u hu t ht => ih u hu ht)
  | function hp _ ih =>
    obtain ⟨_, u, rfl, -, hu⟩ := h.symm.function
    refine closed nofun (List.forall_mem_append.2 ⟨hp, List.forall_mem_singleton.2 ?_⟩)
    exact ih (ha.child (List.mem_append_right _ List.mem_cons_self)) hu.symm
  | @object props index _ _ ihp ihi =>
    obtain ⟨props', index', rfl, hprops, hindex⟩ := h.symm.object
    obtain ⟨definite, definitei⟩ := (handed_definite κ).object ha
    refine closed nofun (List.forall_mem_append.2 ⟨fun u hu => ?_, fun u hu => ?_⟩)
    · obtain ⟨p, hp, rfl⟩ := List.mem_map.1 hu
      obtain ⟨p', hp', hpp⟩ := Ty.partner hprops hp
      exact ihp p hp (definite p' hp') hpp.type.symm
    · cases hindex with
      | none => cases hu
      | some hij =>
        obtain rfl := List.mem_singleton.1 hu
        exact ihi _ rfl (definitei _ rfl) hij.2.symm

/-! ### Soundness along a derivation -/

/-- A type is recorded that a comparison may capture, and the constraint of its placeholder allows it. -/
structure Recorded (κ : String → Ty) (c : Capture) : Prop where
  definite : Definite κ c.type
  present : c.type.isAbsent = false
  allowed : c.constraint.isAbsent = false → accepts c.type c.constraint = true

/-- What is assignable to a captured type is assignable to what its name stands for. -/
structure Covers (κ : String → Ty) (σ : Subst) (cs : List Capture) : Prop where
  definite : DefiniteCaptures κ σ
  wide : ∀ c ∈ cs, ∀ a, Definite κ a → accepts a c.type = true → ∃ t, σ.find? c.name = some t ∧ accepts a t = true

theorem Covers.mono {cs ds : List Capture} (h : Covers κ σ cs) (hsub : ∀ c ∈ ds, c ∈ cs) : Covers κ σ ds :=
  ⟨h.definite, fun c hc => h.wide c (hsub c hc)⟩

/-- The captures are allowed, and with what covers them in the pattern the type is assignable to it. -/
structure Sound (κ : String → Ty) (a b : Ty) (cs : List Capture) : Prop where
  recorded : ∀ c ∈ cs, Recorded κ c
  fits : ∀ σ, Covers κ σ cs → accepts a (b.withCaptures σ) = true

theorem Sound.of_closed {cs : List Capture} (hr : ∀ c ∈ cs, Recorded κ c) (hb : Definite κ b) (h : accepts a b = true) :
    Sound κ a b cs :=
  ⟨hr, fun σ _ => by rwa [withCaptures_self hb]⟩

/-- What is known of the derivations that a step leads to. -/
structure Below (κ : String → Ty) (D : Derivation) : Prop where
  sound : ∀ {a b cs}, D a b cs → Definite κ a → Formed κ b → Covariant b → Sound κ a b cs
  yes : ∀ {a b cs}, D a b cs → accepts a b = true
  takes : ∀ {a name constraint cs}, Lone a → (∀ n c, a ≠ infer n c) → D a (infer name constraint) cs →
    a = never ∨ ⟨name, constraint, a⟩ ∈ cs

/-- Where the answer is yes at once, nothing is captured. -/
theorem sound_evident {o : Options} (ho : o.anyFits = false) (ha : Definite κ a) (pa : a.isAbsent = false) (hb : Formed κ b)
    (pb : b.isAbsent = false) (hc : Covariant b) (h : evident o a b = true) : Sound κ a b [] := by
  rcases (evident_iff ho).1 h with rfl | rfl | rfl | hi
  · exact ⟨List.forall_mem_nil _, fun σ hσ => accepts_at_once rfl (present_withCaptures hσ.definite pb) (.inl rfl)⟩
  · exact .of_closed (List.forall_mem_nil _) (.atom rfl) (accepts_at_once pa rfl (.inr (.inl rfl)))
  · exact .of_closed (List.forall_mem_nil _) (.atom rfl) (accepts_at_once pa rfl (.inr (.inr (.inl rfl))))
  · have closed := closed_of_alike ha (alike_of_identical ha.constrained hb.constrained hi) hc
    exact .of_closed (List.forall_mem_nil _) ⟨hb, closed⟩ (accepts_at_once pa pb (.inr (.inr (.inr hi))))

theorem lone_of_apparentShape? {s : Shape} (h : apparentShape? a = some s) : Lone a := by
  constructor <;> rintro ms rfl <;> cases h

namespace Below
variable {D : Derivation} (B : Below κ D) {cs : List Capture}
include B

theorem sourceMembers {ms : List Ty} (ha : Definite κ (union ms)) (hb : Formed κ b) (hc : Covariant b)
    (h : Each (fun m => D m b) ms cs) : Sound κ (union ms) b cs := by
  refine ⟨h.origin fun m hm ds hd => (B.sound hd (ha.child hm) hb hc).recorded, fun σ hσ => ?_⟩
  refine ha.accepts_union_left.2 fun m hm => ?_
  obtain ⟨ds, hd, hsub⟩ := h.mem hm
  exact (B.sound hd (ha.child hm) hb hc).fits σ (hσ.mono hsub)

theorem bound (ha : Definite κ a) (hb : Formed κ b) (hc : Covariant b) (hu : upperBound? a = some u) (h : D u b cs) :
    Sound κ a b cs := by
  have s := B.sound h (ha.upperBound hu) hb hc
  exact ⟨s.recorded, fun σ hσ => accepts_of_bound hu ha.toFormed (definite_withCaptures hσ.definite hb hc) (s.fits σ hσ)⟩

/-- A placeholder takes a type. -/
theorem takesType {name : String} {constraint : Ty} (ha : Definite κ a) (pa : a.isAbsent = false)
    (hb : Formed κ (infer name constraint)) (hn : ∀ n, ¬Placed n constraint) (h : Takes D name constraint a cs) :
    Sound κ a (infer name constraint) cs := by
  have own : (constraint.isAbsent = false → accepts a constraint = true) → Recorded κ ⟨name, constraint, a⟩ :=
    fun h => ⟨ha, pa, h⟩
  have last : (⟨name, constraint, a⟩ : Capture) ∈ cs := by
    cases h with
    | unconstrained => exact List.mem_cons_self
    | allowed => exact List.mem_append_right _ List.mem_cons_self
  constructor
  · cases h with
    | unconstrained => exact List.forall_mem_singleton.2 (own nofun)
    | allowed _ hd =>
      have hk := (handed_formed κ).constraint hb
      exact List.forall_mem_append.2 ⟨(B.sound hd ha hk (.closed hn)).recorded, List.forall_mem_singleton.2 (own fun _ => B.yes hd)⟩
  · intro σ hσ
    obtain ⟨t, hf, ht⟩ := hσ.wide _ last a ha (accepts_at_once pa pa (.inr (.inr (.inr (identical_refl a)))))
    rwa [withCaptures, hf]

/-- A placeholder takes the first part of an intersection. What is assignable to it need not be assignable to what the
    name stands for in the end, unless as the part is. -/
theorem takesPart {name : String} {constraint : Ty} {ms : List Ty} (ha : Definite κ (intersection ms))
    (hb : Formed κ (infer name constraint)) (hc : Covariant (infer name constraint))
    (h : First (fun m => D m (infer name constraint)) ms cs) : Sound κ (intersection ms) (infer name constraint) cs := by
  obtain ⟨m, hm, hd⟩ := h.mem
  have lone := ha.lone_meetMember hm
  refine ⟨(B.sound hd (ha.child hm) hb hc).recorded, fun σ hσ => ?_⟩
  rcases B.takes lone (ha.child hm).not_infer hd with rfl | taken
  · cases ha.normal.form.single _ hm
  · have pm := ha.present_meetMember hm
    have part : accepts (intersection ms) m = true :=
      accepts_of_permits rfl pm (.sourcePart lone.1 hm (accepts_at_once pm pm (.inr (.inr (.inr (identical_refl m))))))
    obtain ⟨t, hf, ht⟩ := hσ.wide _ taken _ ha part
    rwa [withCaptures, hf]

theorem sourcePart {ms : List Ty} (ha : Definite κ (intersection ms)) (hb : Formed κ b) (pb : b.isAbsent = false)
    (hc : Covariant b) (hn : ∀ σ ns, b.withCaptures σ ≠ union ns) (h : First (fun m => D m b) ms cs) :
    Sound κ (intersection ms) b cs := by
  obtain ⟨m, hm, hd⟩ := h.mem
  have s := B.sound hd (ha.child hm) hb hc
  refine ⟨s.recorded, fun σ hσ => ?_⟩
  exact accepts_of_permits rfl (present_withCaptures hσ.definite pb) (.sourcePart (hn σ) hm (s.fits σ hσ))

/-- The cases apart from the structure, for a target that is neither a union or intersection nor a placeholder. -/
theorem lone {o : Options} (ho : o.anyFits = false) (ha : Definite κ a) (pa : a.isAbsent = false) (hb : Formed κ b)
    (pb : b.isAbsent = false) (hc : Covariant b) (hl : Lone b) (hi : ∀ n c, b ≠ infer n c)
    (hn : ∀ σ ns, b.withCaptures σ ≠ union ns) (structural : Structural D a b cs → Sound κ a b cs) (h : Step o D a b cs) :
    Sound κ a b cs := by
  cases h with
  | evident he => exact sound_evident ho ha pa hb pb hc he
  | rule _ hr =>
    cases hr with
    | sourceMembers h => exact B.sourceMembers ha hb hc h
    | splitBoolean | targetMember | targetBound => exact absurd rfl (hl.1 _)
    | sourcePart _ h => exact B.sourcePart ha hb pb hc hn h
    | targetParts => exact absurd rfl (hl.2 _)
    | single _ _ _ _ h =>
      cases h with
      | targetInfer => exact absurd rfl (hi _ _)
      | sourceInfer => exact absurd rfl (ha.not_infer _ _)
      | bound _ hu h => exact B.bound ha hb hc hu h
      | structural h => exact structural h

theorem infer {o : Options} (ho : o.anyFits = false) {name : String} {constraint : Ty} (ha : Definite κ a)
    (pa : a.isAbsent = false) (hb : Formed κ (infer name constraint)) (hn : ∀ n, ¬Placed n constraint)
    (h : Step o D a (.infer name constraint) cs) : Sound κ a (.infer name constraint) cs := by
  cases h with
  | evident he => exact sound_evident ho ha pa hb rfl (.infer hn) he
  | rule _ hr =>
    cases hr with
    | sourceMembers h => exact B.sourceMembers ha hb (.infer hn) h
    | sourcePart _ h => exact B.takesPart ha hb (.infer hn) h
    | single _ _ _ _ h =>
      cases h with
      | targetInfer h => exact B.takesType ha pa hb hn h
      | sourceInfer hi => exact absurd rfl (hi _ _)
      | bound hi => exact absurd rfl (hi _ _)
      | structural h => cases h

theorem union {o : Options} (ho : o.anyFits = false) {ms : List Ty} (ha : Definite κ a) (pa : a.isAbsent = false)
    (hb : Formed κ (union ms)) (hm : ∀ m ∈ ms, Covariant m) (h : Step o D a (.union ms) cs) : Sound κ a (.union ms) cs := by
  have hc : Covariant (.union ms) := .union hm
  have members : ∀ σ, DefiniteCaptures κ σ → ∀ t ∈ ms.map (withCaptures σ), Definite κ t := by
    intro σ hσ t ht
    obtain ⟨m, hm', rfl⟩ := List.mem_map.1 ht
    exact definite_withCaptures hσ (hb.child hm') (hm m hm')
  cases h with
  | evident he => exact sound_evident ho ha pa hb rfl hc he
  | rule _ hr =>
    cases hr with
    | sourceMembers h => exact B.sourceMembers ha hb hc h
    | splitBoolean hs =>
      obtain ⟨rfl, ht, hf⟩ := hs
      refine ⟨List.forall_mem_nil _, fun σ hσ => ?_⟩
      rw [withCaptures, withCapturesAll_eq]
      refine boolean_accepts_unionOf fun v => ?_
      obtain ⟨m, hm', hi⟩ := List.any_eq_true.1 (show hasMember ms (boolLit v) = true by cases v <;> assumption)
      obtain rfl := eq_of_identical_atom rfl hi
      refine unionMembers_subset (List.mem_map_of_mem hm') ?_
      rw [withCaptures_self (.atom rfl : Definite κ (boolLit v)), unionMembers_self (t := boolLit v) (fun _ h => by cases h) fun h => by cases h]
      exact List.mem_cons_self
    | targetMember _ _ h =>
      obtain ⟨m, hm', hd⟩ := h.mem
      have s := B.sound hd ha (hb.child hm') (hm m hm')
      refine ⟨s.recorded, fun σ hσ => ?_⟩
      have member : m.withCaptures σ ∈ ms.map (withCaptures σ) := List.mem_map_of_mem hm'
      rw [withCaptures, withCapturesAll_eq]
      exact accepts_wider (members σ hσ.definite) a _ ha (members σ hσ.definite _ member)
        (fun u hu => unionMembers_subset member hu) (s.fits σ hσ)
    | targetBound _ _ _ hu h => exact B.bound ha hb hc hu h
    | sourcePart hn => exact absurd rfl (hn _)
    | single _ hn => exact absurd rfl (hn _)

theorem pointwise {xs ys : List Ty} (hx : ∀ x ∈ xs, Definite κ x) (hy : ∀ y ∈ ys, Formed κ y) (hc : ∀ y ∈ ys, Covariant y)
    (h : Each (fun p : Ty × Ty => D p.1 p.2) (xs.zip ys) cs) :
    (∀ c ∈ cs, Recorded κ c) ∧ ∀ σ, Covers κ σ cs → Pointwise (accepts · · = true) xs (ys.map (withCaptures σ)) := by
  have each : ∀ p ∈ xs.zip ys, ∀ ds, D p.1 p.2 ds → Sound κ p.1 p.2 ds := fun p hp ds hd =>
    B.sound hd (hx _ (List.of_mem_zip hp).1) (hy _ (List.of_mem_zip hp).2) (hc _ (List.of_mem_zip hp).2)
  refine ⟨h.origin fun p hp ds hd => (each p hp ds hd).recorded, fun σ hσ i x y' hxi hyi => ?_⟩
  obtain ⟨y, hy', rfl⟩ := Option.map_eq_some_iff.1 ((List.getElem?_map ..).symm.trans hyi)
  have hp : (x, y) ∈ xs.zip ys := List.mem_of_getElem? (List.getElem?_zip_eq_some.2 ⟨hxi, hy'⟩)
  obtain ⟨ds, hd, hsub⟩ := h.mem hp
  exact (each _ hp ds hd).fits σ (hσ.mono hsub)

theorem array {elem : Ty} {readonly : Bool} (ha : Definite κ a) (pa : a.isAbsent = false) (hb : Formed κ (array elem readonly))
    (hc : Covariant elem) (h : Structural D a (.array elem readonly) cs) : Sound κ a (.array elem readonly) cs := by
  have he := hb.child List.mem_cons_self
  cases h with
  | array hr hd =>
    have s := B.sound hd (ha.child List.mem_cons_self) he hc
    exact ⟨s.recorded, fun σ hσ => accepts_of_permits pa rfl (.structural ⟨nofun, nofun⟩ (.array hr (s.fits σ hσ)))⟩
  | elements hd =>
    have s := B.sound hd (.unionOf fun u hu => ha.child hu) he hc
    exact ⟨s.recorded, fun σ hσ => accepts_of_permits pa rfl (.structural ⟨nofun, nofun⟩ (.elements (s.fits σ hσ)))⟩

theorem tuple {elems : List Ty} (ha : Definite κ a) (pa : a.isAbsent = false) (hb : Formed κ (tuple elems))
    (hc : ∀ t ∈ elems, Covariant t) (h : Structural D a (.tuple elems) cs) : Sound κ a (.tuple elems) cs := by
  cases h with
  | tuple hl hd =>
    obtain ⟨recorded, fits⟩ := B.pointwise (fun x hx => ha.child hx) (fun y hy => hb.child hy) hc hd
    refine ⟨recorded, fun σ hσ => accepts_of_permits pa rfl (.structural ⟨nofun, nofun⟩ ?_)⟩
    rw [withCaptures, withCapturesAll_eq]
    exact .tuple (by rw [List.length_map, hl]) (fits σ hσ)

theorem reference {name : String} {args : List Ty} (ha : Definite κ a) (pa : a.isAbsent = false)
    (hb : Formed κ (reference name args)) (hc : ∀ t ∈ args, Covariant t) (h : Structural D a (.reference name args) cs) :
    Sound κ a (.reference name args) cs := by
  cases h with
  | reference hl hd =>
    obtain ⟨recorded, fits⟩ := B.pointwise (fun x hx => ha.child hx) (fun y hy => hb.child hy) hc hd
    refine ⟨recorded, fun σ hσ => accepts_of_permits pa rfl (.structural ⟨nofun, nofun⟩ ?_)⟩
    rw [withCaptures, withCapturesAll_eq]
    exact .reference (by rw [List.length_map, hl]) (fits σ hσ)

theorem function {params : List Ty} {result : Ty} (ha : Definite κ a) (pa : a.isAbsent = false)
    (hb : Formed κ (function params result)) (hp : ∀ t ∈ params, ∀ n, ¬Placed n t) (hc : Covariant result)
    (h : Structural D a (.function params result) cs) : Sound κ a (.function params result) cs := by
  have definite : ∀ t ∈ params, Definite κ t := fun t ht => ⟨hb.child (List.mem_append_left _ ht), hp t ht⟩
  cases h with
  | @function xs _ x _ ds es hl hps hd =>
    have s := B.sound hd (ha.child (List.mem_append_right _ List.mem_cons_self))
      (hb.child (List.mem_append_right _ List.mem_cons_self)) hc
    refine ⟨List.forall_mem_append.2 ⟨hps.origin fun p hp ds hd => ?_, s.recorded⟩, fun σ hσ => ?_⟩
    · refine (B.sound hd (definite _ (List.of_mem_zip hp).2) ?_ (.closed ?_)).recorded
      · exact ha.toFormed.child (List.mem_append_left _ (List.of_mem_zip hp).1)
      · exact (ha.child (List.mem_append_left _ (List.of_mem_zip hp).1)).free
    · have same : params.map (withCaptures σ) = params :=
        (List.map_congr_left fun u hu => withCaptures_self (definite u hu)).trans (List.map_id params)
      rw [withCaptures, withCapturesAll_eq, same]
      refine accepts_of_permits pa rfl (.structural ⟨nofun, nofun⟩ (.function hl (fun i x y hx hy => ?_) ?_))
      · have hp : (x, y) ∈ xs.zip params := List.mem_of_getElem? (List.getElem?_zip_eq_some.2 ⟨hx, hy⟩)
        obtain ⟨ds, hd, -⟩ := hps.mem hp
        exact B.yes hd
      · exact s.fits σ (hσ.mono fun c hc => List.mem_append_right _ hc)

theorem object {props : List (Property Ty)} {index : Option (IndexSignature Ty)} (ha : Definite κ a) (pa : a.isAbsent = false)
    (hb : Formed κ (object props index)) (hp : ∀ p ∈ props, Covariant p.type) (hi : ∀ i, index = some i → Covariant i.value)
    (h : Structural D a (.object props index) cs) : Sound κ a (.object props index) cs := by
  obtain ⟨formed, formedi⟩ := (handed_formed κ).object hb
  cases h with
  | @object _ s _ _ ds es hs hprops hindex =>
    obtain ⟨definite, definitei⟩ := handed_apparentShape (handed_definite κ) hs ha
    have property : ∀ want ∈ props, ∀ fs, ProvidesProp D s.props want fs → (∀ c ∈ fs, Recorded κ c) ∧
        ∀ σ, Covers κ σ fs → HasProp (accepts · · = true) s.props { want with type := want.type.withCaptures σ } := by
      intro want hw fs h
      unfold HasProp
      cases h with
      | missing hf ho => exact ⟨List.forall_mem_nil _, fun σ _ => by rwa [hf]⟩
      | found hf ho hr hd =>
        have sound := B.sound hd (definite _ (Shape.mem_of_find? hf)) (formed want hw) (hp want hw)
        exact ⟨sound.recorded, fun σ hσ => by rw [hf]; exact ⟨ho, hr, sound.fits σ hσ⟩⟩
    have signature : (∀ c ∈ es, Recorded κ c) ∧ ∀ σ, Covers κ σ es → ∀ want, index = some want →
        HasIndex (accepts · · = true) s { want with value := want.value.withCaptures σ } := by
      cases hindex with
      | none => exact ⟨List.forall_mem_nil _, fun _ _ _ h => by cases h⟩
      | @some want fs gs hcovered hvalues =>
        have covered : ∀ p ∈ s.props.filter fun p => want.covers p.key, ∀ fs, D p.type want.value fs →
            Sound κ p.type want.value fs := fun p hm fs hd =>
          B.sound hd (definite p (List.mem_filter.1 hm).1) (formedi _ rfl) (hi _ rfl)
        have values : ∀ got fs, s.index = some got → D got.value want.value fs → Sound κ got.value want.value fs :=
          fun got fs hg hd => B.sound hd (definitei got hg) (formedi _ rfl) (hi _ rfl)
        refine ⟨List.forall_mem_append.2 ⟨hcovered.origin fun p hm fs hd => (covered p hm fs hd).recorded, ?_⟩, ?_⟩
        · cases hvalues with
          | other => exact List.forall_mem_nil _
          | same hg _ hd => exact (values _ _ hg hd).recorded
        · rintro σ hσ _ ⟨⟩
          refine ⟨fun p hm hk => ?_, fun got hg hk => ?_⟩
          · have hmem : p ∈ s.props.filter fun p => want.covers p.key := List.mem_filter.2 ⟨hm, hk⟩
            obtain ⟨hs, hd, hsub⟩ := hcovered.mem hmem
            exact (covered p hmem hs hd).fits σ (hσ.mono fun c hc => List.mem_append_left _ (hsub c hc))
          · cases hvalues with
            | other hn => exact absurd hk (hn got hg)
            | same hg' _ hd =>
              cases hg.symm.trans hg'
              exact (values _ _ hg hd).fits σ (hσ.mono fun c hc => List.mem_append_right _ hc)
    refine ⟨List.forall_mem_append.2 ⟨hprops.origin fun want hw fs hd => (property want hw fs hd).1, signature.1⟩, fun σ hσ => ?_⟩
    rw [withCaptures_object σ hb.normal.form]
    refine accepts_of_permits pa rfl (.structural (lone_of_apparentShape? hs) (.object hs (fun want' hw' => ?_) fun want' hw' => ?_))
    · obtain ⟨want, hw, rfl⟩ := List.mem_map.1 hw'
      obtain ⟨fs, hd, hsub⟩ := hprops.mem hw
      exact (property want hw fs hd).2 σ (hσ.mono fun c hc => List.mem_append_left _ (hsub c hc))
    · obtain ⟨want, hw, rfl⟩ := Option.map_eq_some_iff.1 hw'
      exact signature.2 σ (hσ.mono fun c hc => List.mem_append_right _ hc) want hw

end Below

theorem accepts_of_derives {o : Options} (ho : o.anyFits = false) {n : Nat} {cs : List Capture} (h : Derives o n a b cs) :
    accepts a b = true :=
  accepts_of_relate ho ((relate_derived o n a b).sound cs h {}).1

theorem taken_of_derives {o : Options} (ho : o.anyFits = false) {n : Nat} {name : String} {constraint : Ty}
    {cs : List Capture} (hl : Lone a) (hi : ∀ n c, a ≠ infer n c) (h : Derives o n a (infer name constraint) cs) :
    a = never ∨ ⟨name, constraint, a⟩ ∈ cs := by
  cases n with
  | zero => exact h.elim
  | succ n =>
    obtain ⟨-, -, h⟩ := h
    cases h with
    | evident he =>
      rcases (evident_iff ho).1 he with h | h | h | h
      · exact .inl h
      · cases h
      · cases h
      · have same := (identical_iff a _).1 h
        cases a <;> first | exact absurd rfl (hi _ _) | cases same
    | rule _ hr =>
      cases hr with
      | sourceMembers => exact absurd rfl (hl.1 _)
      | sourcePart => exact absurd rfl (hl.2 _)
      | single _ _ _ _ h =>
        cases h with
        | targetInfer h =>
          cases h with
          | unconstrained => exact .inr List.mem_cons_self
          | allowed => exact .inr (List.mem_append_right _ List.mem_cons_self)
        | sourceInfer hb => exact absurd rfl (hb _ _)
        | bound hb => exact absurd rfl (hb _ _)
        | structural h => cases h

theorem below_derives {o : Options} (ho : o.anyFits = false) (n : Nat) : Below κ (Derives o n) := by
  induction n with
  | zero => exact ⟨False.elim, False.elim, fun _ _ => False.elim⟩
  | succ n B =>
    refine ⟨?_, accepts_of_derives ho, taken_of_derives ho⟩
    intro a b cs h ha hb hc
    have ⟨pa, pb, step⟩ := h
    cases hc with
    | closed hn =>
      refine .of_closed (fun c hc => ?_) ⟨hb, hn⟩ (accepts_of_derives ho h)
      exact ((derives_placed h c hc).elim (ha.free _) (hn _)).elim
    | infer hn => exact B.infer ho ha pa hb hn step
    | array hc => exact B.lone ho ha pa hb pb (.array hc) ⟨nofun, nofun⟩ nofun nofun (B.array ha pa hb hc) step
    | tuple hc => exact B.lone ho ha pa hb pb (.tuple hc) ⟨nofun, nofun⟩ nofun nofun (B.tuple ha pa hb hc) step
    | union hc => exact B.union ho ha pa hb hc step
    | reference hc => exact B.lone ho ha pa hb pb (.reference hc) ⟨nofun, nofun⟩ nofun nofun (B.reference ha pa hb hc) step
    | function hp hc =>
      exact B.lone ho ha pa hb pb (.function hp hc) ⟨nofun, nofun⟩ nofun nofun (B.function ha pa hb hp hc) step
    | object hp hi => exact B.lone ho ha pa hb pb (.object hp hi) ⟨nofun, nofun⟩ nofun nofun (B.object ha pa hb hp hi) step

/-! ### The final captures -/

/-- What is assignable to a type that a name stands for stays so when one more type is recorded. -/
theorem covers_record {c : Capture} (hc : Recorded κ c) (hσ : DefiniteCaptures κ σ) :
    DefiniteCaptures κ (c.record σ) ∧
    (∀ a, Definite κ a → accepts a c.type = true → ∃ u, (c.record σ).find? c.name = some u ∧ accepts a u = true) ∧
    ∀ name t, σ.find? name = some t → ∀ a, Definite κ a → accepts a t = true →
      ∃ u, (c.record σ).find? name = some u ∧ accepts a u = true := by
  have wider : ∀ {ts : List Ty} {t : Ty}, (∀ t ∈ ts, Definite κ t) → t ∈ ts → ∀ a, Definite κ a → accepts a t = true →
      accepts a (unionOf ts) = true := fun hts ht a ha h =>
    accepts_wider hts a _ ha (hts _ ht) (fun u hu => unionMembers_subset ht hu) h
  have other : ∀ {name}, name ≠ c.name → (c.record σ).find? name = σ.find? name := Subst.find?_insert_ne σ _
  cases hf : σ.find? c.name with
  | none =>
    have found : (c.record σ).find? c.name = some c.type := by
      rw [Capture.record, Subst.find?_insert_self, hf]
    refine ⟨fun name t ht => ?_, fun a _ h => ⟨_, found, h⟩, fun name t ht a _ h => ?_⟩
    · by_cases hn : name = c.name
      · rw [hn, found] at ht
        cases ht
        exact ⟨hc.definite, hc.present⟩
      · exact hσ name t (other hn ▸ ht)
    · refine ⟨t, ?_, h⟩
      rw [other, ht]
      rintro rfl
      cases hf.symm.trans ht
  | some previous =>
    have found : (c.record σ).find? c.name = some (unionOf [previous, c.type]) := by
      rw [Capture.record, Subst.find?_insert_self, hf]
    have both : ∀ t ∈ [previous, c.type], Definite κ t :=
      List.forall_mem_cons.2 ⟨(hσ _ _ hf).1, List.forall_mem_singleton.2 hc.definite⟩
    refine ⟨fun name t ht => ?_, fun a ha h => ⟨_, found, ?_⟩, fun name t ht a ha h => ?_⟩
    · by_cases hn : name = c.name
      · rw [hn, found] at ht
        cases ht
        exact ⟨.unionOf both, present_unionOf _⟩
      · exact hσ name t (other hn ▸ ht)
    · exact wider both (List.mem_cons_of_mem _ List.mem_cons_self) a ha h
    · by_cases hn : name = c.name
      · subst hn
        cases hf.symm.trans ht
        exact ⟨_, found, wider both List.mem_cons_self a ha h⟩
      · exact ⟨t, (other hn).trans ht, h⟩

/-- The captures after a derivation cover all of its own. -/
theorem covers_replay {cs : List Capture} (hr : ∀ c ∈ cs, Recorded κ c) {σ : Subst} (hσ : DefiniteCaptures κ σ) :
    Covers κ (replay cs σ) cs ∧ ∀ name t, σ.find? name = some t → ∀ a, Definite κ a → accepts a t = true →
      ∃ u, (replay cs σ).find? name = some u ∧ accepts a u = true := by
  induction cs generalizing σ with
  | nil => exact ⟨⟨hσ, nofun⟩, fun _ t ht a _ h => ⟨t, ht, h⟩⟩
  | cons c cs ih =>
    obtain ⟨hc, hcs⟩ := List.forall_mem_cons.1 hr
    obtain ⟨definite, own, kept⟩ := covers_record hc hσ
    obtain ⟨covers, later⟩ := ih hcs definite
    refine ⟨⟨covers.definite, List.forall_mem_cons.2 ⟨fun a ha h => ?_, covers.wide⟩⟩, fun name t ht a ha h => ?_⟩
    · obtain ⟨u, hu, h⟩ := own a ha h
      exact later _ u hu a ha h
    · obtain ⟨u, hu, h⟩ := kept name t ht a ha h
      exact later _ u hu a ha h

end Covariant

namespace Assignable
variable {κ : String → Ty}

/-- Where a type without placeholders is assignable to a pattern, it is assignable to the pattern with the captured types in
    place of its placeholders, under every limit that does not cut the comparison off. The captures are those of a derivation,
    and each of its types is assignable to the constraint of the placeholder that took it. -/
theorem captures_sound {a b : Ty} (ha : Definite κ a) (hb : Formed κ b) (hc : Covariant b) {d : Nat}
    (h : (run ⟨d, false⟩ a b).1 = true) :
    (∀ d', (run ⟨d', false⟩ a (b.withCaptures (run ⟨d, false⟩ a b).2.captures)).2.clipped = false →
      (run ⟨d', false⟩ a (b.withCaptures (run ⟨d, false⟩ a b).2.captures)).1 = true) ∧
    ∃ cs, Derives ⟨d, false⟩ d a b cs ∧ (run ⟨d, false⟩ a b).2.captures = replay cs {} ∧
      ∀ c ∈ cs, c.constraint.isAbsent = false → ∀ d', (run ⟨d', false⟩ c.type c.constraint).2.clipped = false →
        (run ⟨d', false⟩ c.type c.constraint).1 = true := by
  have derived := relate_derived ⟨d, false⟩ d a b
  obtain ⟨cs, hcs⟩ := derived.complete {} h
  have captures : (run ⟨d, false⟩ a b).2.captures = replay cs {} := (derived.sound cs hcs {}).2
  have sound := (below_derives rfl d).sound hcs ha hb hc
  have empty : DefiniteCaptures κ {} := fun _ _ hf => by cases hf
  refine ⟨fun d' uncut => ?_, cs, hcs, captures, fun c hm hk d' uncut => ?_⟩
  · rw [accepts_of_uncut uncut, captures]
    exact sound.fits _ (covers_replay sound.recorded empty).1
  · rw [accepts_of_uncut uncut]
    exact (sound.recorded c hm).allowed hk

/-- A pair with an element that must be text and an array of what is captured from another array. -/
theorem captures_sound_pair :
    let a := Ty.tuple [.string, .array .number true]
    let b := Ty.tuple [.infer "X" .string, .array (.infer "Y" .absent) true]
    (run ⟨30, false⟩ a b).1 = true ∧ (run ⟨30, false⟩ a (b.withCaptures (run ⟨30, false⟩ a b).2.captures)).1 = true := by
  intro a b
  have number : Definite (fun _ => absent) Ty.number := .atom rfl
  have text : Definite (fun _ => absent) Ty.string := .atom rfl
  have ha : Definite (fun _ => absent) a := by
    refine .node trivial (tidyNode_of_structural rfl) nofun nofun (List.forall_mem_cons.2 ⟨text, ?_⟩)
    refine List.forall_mem_singleton.2 (.node trivial (tidyNode_of_structural rfl) nofun nofun ?_)
    exact List.forall_mem_singleton.2 number
  have hb : Formed (fun _ => absent) b := by
    refine .node trivial (tidyNode_of_structural rfl) nofun (List.forall_mem_cons.2 ⟨?_, List.forall_mem_singleton.2 ?_⟩)
    · exact .node trivial (tidyNode_of_pending (.inl rfl)) nofun (List.forall_mem_singleton.2 text.toFormed)
    · refine .node trivial (tidyNode_of_structural rfl) nofun (List.forall_mem_singleton.2 ?_)
      exact .node trivial (tidyNode_of_pending (.inl rfl)) nofun nofun
  have hc : Covariant b := by
    refine .tuple (List.forall_mem_cons.2 ⟨.infer text.free, List.forall_mem_singleton.2 (.array (.infer ?_))⟩)
    exact not_placed nofun nofun
  have accepted : (run ⟨30, false⟩ a b).1 = true := by cbv
  exact ⟨accepted, (captures_sound ha hb hc accepted).1 30 (relate_uncut _ (by decide) {} rfl)⟩

/-- Where one name stands for parameters with two constraints, members of the pattern may become identical: the one that is
    left is not the one that was matched. -/
theorem captures_misled_by_constraints :
    let member (constraint : Ty) (placeholder : String) :=
      Ty.function [.param "T" constraint .absent] (.infer placeholder .absent)
    let a := Ty.function [.string] .never
    let b := Ty.union [member .number "A", member .string "B"]
    Built a ∧ Built b ∧ (∀ name, ¬Placed name a) ∧ Covariant b ∧ (run ⟨10, false⟩ a b).1 = true ∧
      (run ⟨10, false⟩ a b).2.clipped = false ∧
      ∀ d, (run ⟨d, false⟩ a (b.withCaptures (run ⟨10, false⟩ a b).2.captures)).1 = false := by
  intro member a b
  have built : ∀ {constraint name}, constraint.isAtom = true → Built (member constraint name) := by
    intro constraint name hc
    refine built_plain rfl (List.forall_mem_cons.2 ⟨?_, List.forall_mem_singleton.2 (built_plain rfl nofun)⟩)
    refine ⟨⟨trivial, ?_⟩, tidyNode_of_pending (.inl rfl), nofun⟩
    exact List.forall_mem_cons.2 ⟨carried_normal.atom hc, List.forall_mem_singleton.2 normal_absent⟩
  have leaf : ∀ {t : Ty}, t.isAtom = true → Definite (fun _ => absent) t := .atom
  have covariant : ∀ {constraint name}, constraint.isAtom = true → Covariant (member constraint name) := by
    intro constraint name hc
    refine .function (List.forall_mem_singleton.2 (not_placed nofun ?_)) (.infer (not_placed nofun nofun))
    exact List.forall_mem_cons.2 ⟨(leaf hc).free, List.forall_mem_singleton.2 (not_placed nofun nofun)⟩
  refine ⟨?_, ?_, ?_, ?_, ?_, ?_, fun d => ?_⟩
  · exact built_plain rfl (List.forall_mem_cons.2 ⟨built_atom rfl, List.forall_mem_singleton.2 (built_atom rfl)⟩)
  · exact built_pair (built rfl) (built rfl) rfl rfl rfl (by decide) (by decide)
  · exact not_placed nofun (List.forall_mem_cons.2 ⟨(leaf rfl).free, List.forall_mem_singleton.2 (leaf rfl).free⟩)
  · exact .union (List.forall_mem_cons.2 ⟨covariant rfl, List.forall_mem_singleton.2 (covariant rfl)⟩)
  · cbv
  · cbv
  · have left : b.withCaptures (run ⟨10, false⟩ a b).2.captures = Ty.function [.param "T" .number .absent] .never := by cbv
    rw [left, Bool.eq_false_iff]
    intro h
    have refused : accepts a (Ty.function [.param "T" .number .absent] .never) = false := by cbv
    exact Bool.false_ne_true (refused.symm.trans (accepts_of_relate rfl h))

end Assignable
end TypeCalculus

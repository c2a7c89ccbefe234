import TypeCalculus.Proofs.Ty.Template
import TypeCalculus.Proofs.Ty.Intersection
import TypeCalculus.Proofs.Ty.Row

/-! Rebuilding hands on what all constructors hand on (`Carried`), in every monad in which results can be spoken of: a
    type rebuilt from parts with such a property has it, since each variant is built by its normalising constructor.
    The normal form is such a property. Two rebuilds of one type can be followed side by side (`Linked`). -/

namespace TypeCalculus

namespace Ty

/-- The partner of a member of the first list. -/
theorem partner {α β : Type} {P : α → β → Prop} {xs : List α} {ys : List β} (h : List.Forall₂ P xs ys) {x : α}
    (hx : x ∈ xs) : ∃ y ∈ ys, P x y := by
  induction h with
  | nil => cases hx
  | cons hp _ ih =>
    rcases List.mem_cons.1 hx with rfl | hx
    · exact ⟨_, List.mem_cons_self, hp⟩
    · obtain ⟨y, hy, hp⟩ := ih hx
      exact ⟨y, List.mem_cons_of_mem _ hy, hp⟩

end Ty

/-- What can be said of the results of two steps side by side, if it is said of the steps that they are composed of. -/
structure Linked (m n : Type → Type) [Monad m] [Monad n] where
  /-- The steps go along with each other, and every result satisfies a property. -/
  All : {α : Type} → (α → Prop) → m α → n α → Prop
  pure : ∀ {α : Type} {P : α → Prop} {a : α}, P a → All P (Pure.pure a) (Pure.pure a)
  bind : ∀ {α β : Type} {P : α → Prop} {Q : β → Prop} {x : m α} {y : n α} {f : α → m β} {g : α → n β},
    All P x y → (∀ a, P a → All Q (f a) (g a)) → All Q (x >>= f) (y >>= g)

section Linked
variable {m n : Type → Type} [Monad m] [LawfulMonad m] [Monad n] [LawfulMonad n] (L : Linked m n)

theorem Linked.imp {α : Type} {P Q : α → Prop} {x : m α} {y : n α} (h : ∀ a, P a → Q a) (hx : L.All P x y) : L.All Q x y := by
  have := L.bind (f := Pure.pure) (g := Pure.pure) hx fun a ha => L.pure (h a ha)
  rwa [bind_pure, bind_pure] at this

/-- Results one by one, each with what it is the result of. -/
theorem Linked.mapM_forall₂ {α β : Type} {P : α → β → Prop} {f : α → m β} {g : α → n β} {xs : List α}
    (h : ∀ x ∈ xs, L.All (P x) (f x) (g x)) : L.All (List.Forall₂ P xs) (xs.mapM f) (xs.mapM g) := by
  induction xs with
  | nil =>
    rw [List.mapM_nil, List.mapM_nil]
    exact L.pure .nil
  | cons x xs ih =>
    rw [List.mapM_cons, List.mapM_cons]
    refine L.bind (h x List.mem_cons_self) fun y hy => ?_
    exact L.bind (ih fun z hz => h z (List.mem_cons_of_mem _ hz)) fun ys hys => L.pure (.cons hy hys)

theorem Linked.mapM {α β : Type} {P : β → Prop} {f : α → m β} {g : α → n β} {xs : List α}
    (h : ∀ x ∈ xs, L.All P (f x) (g x)) : L.All (fun ys => ∀ y ∈ ys, P y) (xs.mapM f) (xs.mapM g) := by
  refine L.imp (fun ys hys y hy => ?_) (L.mapM_forall₂ (P := fun _ => P) h)
  obtain ⟨x, -, hp⟩ := Ty.partner hys.flip hy
  exact hp

end Linked

/-- What can be said of the results of steps, if it is said of the steps that they are composed of. -/
structure Results (m : Type → Type) [Monad m] where
  /-- Every result of a step satisfies a property. -/
  All : {α : Type} → (α → Prop) → m α → Prop
  pure : ∀ {α : Type} {P : α → Prop} {a : α}, P a → All P (Pure.pure a)
  bind : ∀ {α β : Type} {P : α → Prop} {Q : β → Prop} {x : m α} {f : α → m β},
    All P x → (∀ a, P a → All Q (f a)) → All Q (x >>= f)

namespace Results

/-- Of two steps only the first is spoken of. -/
def linked {m : Type → Type} [Monad m] (R : Results m) : Linked m m where
  All P x _ := R.All P x
  pure := R.pure
  bind := R.bind

section
variable {m : Type → Type} [Monad m] [LawfulMonad m] (R : Results m)

theorem imp {α : Type} {P Q : α → Prop} {x : m α} (h : ∀ a, P a → Q a) (hx : R.All P x) : R.All Q x := by
  have both : R.linked.All P x x := hx
  exact R.linked.imp h both

theorem mapM {α β : Type} {P : β → Prop} {f : α → m β} {xs : List α} (h : ∀ x ∈ xs, R.All P (f x)) :
    R.All (fun ys => ∀ y ∈ ys, P y) (xs.mapM f) := by
  have both : ∀ x ∈ xs, R.linked.All P (f x) (f x) := h
  exact R.linked.mapM both

/-- Results one by one, each with what it is the result of. -/
theorem mapM_forall₂ {α β : Type} {P : α → β → Prop} {f : α → m β} {xs : List α} (h : ∀ x ∈ xs, R.All (P x) (f x)) :
    R.All (List.Forall₂ P xs) (xs.mapM f) := by
  have both : ∀ x ∈ xs, R.linked.All (P x) (f x) (f x) := h
  exact R.linked.mapM_forall₂ both

end

def option : Results Option where
  All P x := ∀ a, x = some a → P a
  pure h a e := by
    cases e
    exact h
  bind hx hf b e := by
    obtain ⟨a, ha, hb⟩ := Option.bind_eq_some_iff.1 e
    exact hf a (hx a ha) b hb

def except (ε : Type) : Results (Except ε) where
  All P x := ∀ a, x = .ok a → P a
  pure h a e := by
    cases e
    exact h
  bind {_ _ _ _ x _} hx hf b e := by
    cases x with
    | error => cases e
    | ok a => exact hf a (hx a rfl) b e

/-- A computation that may fail, after one of whose result nothing is known. -/
theorem except_after {ε α β : Type} {P : β → Prop} {x : Except ε α} {f : α → Except ε β}
    (h : ∀ a, (except ε).All P (f a)) : (except ε).All P (x >>= f) :=
  (except ε).bind (P := fun _ => True) (fun _ _ => trivial) fun a _ => h a

end Results

namespace Ty

/-! ### Properties that all constructors hand on -/

/-- A known type without parts. -/
def isAtom : Ty → Bool
  | any | unknown | void | never | prim _ | literal .. => true
  | _ => false

/-- The type is made of its parts as they are. -/
def isPlain : Ty → Bool
  | array .. | tuple _ | function .. | infer .. | reference .. | keyOf _ | access .. | mapping .. => true
  | _ => false

theorem isPlain_refill (t : Ty) (us : List Ty) : (t.refill us).isPlain = t.isPlain := by
  cases t <;> rfl

/-- Trees hand the property on to their children, and all ways of building a type hand it on from parts. -/
structure Carried (P : Ty → Prop) : Prop where
  absent : P absent
  atom : ∀ {t}, t.isAtom = true → P t
  child : ∀ {t u}, P t → u ∈ t.children → P u
  plain : ∀ {t}, t.isPlain = true → (∀ u ∈ t.parts, P u) → P t
  conditional : ∀ {check bound yes no distribute}, (distribute = true → check.isParam = true) → P check → P bound →
    P yes → P no → P (conditional check bound yes no distribute)
  unionOf : ∀ {ts}, (∀ t ∈ ts, P t) → P (unionOf ts)
  meetOf : ∀ {ts}, (∀ t ∈ ts, P t) → P (meetOf ts)
  templateOf : ∀ {segments}, (∀ t ∈ holes segments, P t) → P (templateOf segments)
  ofProps : ∀ {props index}, (∀ p ∈ props, P p.type) → (∀ i, index = some i → P i.value) →
    P (Shape.ofProps props index).toTy

theorem carried_true : Carried fun _ => True := by
  constructor <;> intros <;> trivial

theorem carried_normal : Carried Normal where
  absent := normal_absent
  atom {t} ht := by
    cases t with
    | any | unknown | void | never | prim | literal => exact .leaf trivial rfl
    | _ => cases ht
  child h hu := h.child hu
  plain {t} ht h := by
    cases t with
    | array | tuple | function | infer | reference | keyOf | access | mapping => exact ⟨trivial, h⟩
    | _ => cases ht
  conditional hd hc hb hy hn := normal_conditional.2 ⟨hd, hc, hb, hy, hn⟩
  unionOf := normal_unionOf
  meetOf := normal_meetOf
  templateOf := normal_templateOf
  ofProps := normal_ofProps

theorem mem_holes {segments : List (Segment Ty)} {t : Ty} (h : .hole t ∈ segments) : t ∈ holes segments :=
  List.mem_filterMap.2 ⟨.hole t, h, rfl⟩

section Parts
variable {m n : Type → Type} [Monad m] [Monad n] (L : Linked m n) {f : Ty → m Ty} {g : Ty → n Ty} {P : Ty → Prop}

theorem linked_mapHole {s : Segment Ty} (h : ∀ t, s = .hole t → L.All P (f t) (g t)) :
    L.All (fun s' => ∀ t, s' = .hole t → P t) (mapHole f s) (mapHole g s) := by
  cases s with
  | text s => exact L.pure nofun
  | hole t =>
    refine L.bind (h t rfl) fun u hu => L.pure ?_
    cases u with
    | absent => nofun
    | _ =>
      rintro v ⟨⟩
      exact hu

/-- A row is rebuilt by putting what becomes of its parts in their places. -/
theorem linked_row [LawfulMonad m] [LawfulMonad n] {t : Ty} {S : Ty → Ty → Prop} (hn : NodeForm t) (ht : t.isRow = true)
    (hf : ∀ u ∈ t.parts, L.All (S u) (f u) (g u)) :
    L.All (fun u => ∃ us, List.Forall₂ S t.parts us ∧ u = t.refill us) (t.rebuild f) (t.rebuild g) := by
  rw [rebuild_row hn ht, rebuild_row hn ht, map_eq_pure_bind, map_eq_pure_bind]
  exact L.bind (L.mapM_forall₂ hf) fun us hus => L.pure ⟨us, hus, rfl⟩

theorem results_row [LawfulMonad m] (R : Results m) {t : Ty} {S : Ty → Ty → Prop} (hn : NodeForm t) (ht : t.isRow = true)
    (hf : ∀ u ∈ t.parts, R.All (S u) (f u)) : R.All (fun u => ∃ us, List.Forall₂ S t.parts us ∧ u = t.refill us) (t.rebuild f) :=
  linked_row R.linked (g := f) hn ht hf

end Parts

/-- What a type of the variant of `t` is when it is built from parts with a property `P`: parameters and conditionals are
    not built by constructors. -/
structure Rebuilds (P Q : Ty → Prop) (t : Ty) : Prop where
  leaf : t.isAtom = true ∨ t = absent → Q t
  plain : ∀ {u}, u.isPlain = true → u.kind? = t.kind? → (∀ v ∈ u.parts, P v) → Q u
  unionOf : ∀ {ms us}, t = union ms → (∀ u ∈ us, P u) → Q (unionOf us)
  meetOf : ∀ {ms us}, t = intersection ms → (∀ u ∈ us, P u) → Q (meetOf us)
  templateOf : ∀ {segments segments'}, t = template segments → (∀ u ∈ holes segments', P u) → Q (templateOf segments')
  ofProps : ∀ {props props' index index'}, t = object props index → (∀ p ∈ props', P p.type) →
    (∀ i, index' = some i → P i.value ∧ ∃ j, index = some j ∧ i.key = j.key) → Q (Shape.ofProps props' index').toTy

section Rebuild
variable {m n : Type → Type} [Monad m] [LawfulMonad m] [Monad n] [LawfulMonad n] (L : Linked m n) {f : Ty → m Ty}
  {g : Ty → n Ty} {P Q : Ty → Prop}

/-- A type rebuilt from parts with a property is what the constructors make of such parts. -/
theorem Rebuilds.rebuild {t : Ty} (B : Rebuilds P Q t) (hparam : t.isParam = false) (hcond : t.isConditional = false)
    (hf : ∀ u ∈ t.parts, L.All P (f u) (g u)) : L.All Q (t.rebuild f) (t.rebuild g) := by
  have all : ∀ {ts : List Ty}, (∀ u ∈ ts, u ∈ t.parts) → L.All (fun us => ∀ u ∈ us, P u) (ts.mapM f) (ts.mapM g) :=
    fun h => L.mapM fun u hu => hf u (h u hu)
  have row : NodeForm t → t.isRow = true → t.isPlain = true → L.All Q (t.rebuild f) (t.rebuild g) := by
    intro hn ht hp
    refine L.imp ?_ (linked_row L (S := fun _ => P) hn ht hf)
    rintro _ ⟨us, hus, rfl⟩
    refine B.plain ((isPlain_refill t us).trans hp) (kind?_refill t us) fun v hv => ?_
    rw [parts_refill ht hus.length_eq.symm] at hv
    obtain ⟨_, -, hv⟩ := partner hus.flip hv
    exact hv
  cases t with
  | template segments =>
    have hole : ∀ s ∈ segments, L.All (fun s' => ∀ t, s' = .hole t → P t) (mapHole f s) (mapHole g s) := by
      refine fun s hs => linked_mapHole L ?_
      rintro u rfl
      exact hf u (mem_holes hs)
    refine L.bind (L.mapM hole) fun ss hss => L.pure (B.templateOf rfl fun t ht => ?_)
    obtain ⟨s, hs, he⟩ := List.mem_filterMap.1 ht
    cases s with
    | text => cases he
    | hole u =>
      cases he
      exact hss _ hs _ rfl
  | object props index =>
    have prop : ∀ p ∈ props, L.All (fun q : Property Ty => P q.type) (mapProp f p) (mapProp g p) := fun p hp =>
      L.bind (hf p.type (List.mem_append_left _ (List.mem_map_of_mem hp))) fun u hu => L.pure hu
    have value : L.All (fun index' => ∀ i, index' = some i → P i.value ∧ ∃ j, index = some j ∧ i.key = j.key)
        (mapIndex f index) (mapIndex g index) := by
      cases index with
      | none => exact L.pure nofun
      | some j =>
        refine L.bind (hf j.value (List.mem_append_right _ List.mem_cons_self)) fun u hu => L.pure ?_
        rintro i ⟨⟩
        exact ⟨hu, j, rfl, rfl⟩
    exact L.bind (L.mapM prop) fun ps hps => L.bind value fun i hi => L.pure (B.ofProps rfl hps hi)
  | union members => exact L.bind (all fun _ hu => hu) fun us hus => L.pure (B.unionOf rfl hus)
  | intersection members => exact L.bind (all fun _ hu => hu) fun us hus => L.pure (B.meetOf rfl hus)
  | infer name constraint =>
    rw [Ty.rebuild, Ty.rebuild]
    cases constraint with
    | absent =>
      rw [if_pos (by rfl), if_pos (by rfl)]
      exact L.pure (B.plain rfl rfl (List.forall_mem_nil _))
    | _ =>
      rw [if_neg (by simp [isAbsent]), if_neg (by simp [isAbsent])]
      refine L.bind (hf _ List.mem_cons_self) fun u hu => L.pure (B.plain rfl rfl fun v hv => ?_)
      cases u with
      | absent => cases hv
      | _ => exact List.mem_singleton.1 hv ▸ hu
  | array | tuple | reference | function | keyOf | access | mapping => exact row trivial rfl rfl
  | param => cases hparam
  | conditional => cases hcond
  | absent => exact L.pure (B.leaf (.inr rfl))
  | any | unknown | void | never | prim | literal => exact L.pure (B.leaf (.inl rfl))

theorem Rebuilds.results (R : Results m) {t : Ty} (B : Rebuilds P Q t) (hparam : t.isParam = false)
    (hcond : t.isConditional = false) (hf : ∀ u ∈ t.parts, R.All P (f u)) : R.All Q (t.rebuild f) := by
  have both : R.linked.All Q (t.rebuild f) (t.rebuild f) := B.rebuild R.linked hparam hcond hf
  exact both

end Rebuild

namespace Carried
variable {P : Ty → Prop} (C : Carried P)
include C

theorem single {t u : Ty} (ht : t.isPlain = true) (hp : t.parts = [u]) (hu : P u) : P t :=
  C.plain ht fun v hv => by
    rw [hp] at hv
    exact List.mem_singleton.1 hv ▸ hu

theorem unionOf_pair {a b : Ty} (ha : P a) (hb : P b) : P (Ty.unionOf [a, b]) := by
  refine C.unionOf fun t ht => ?_
  rcases List.mem_cons.1 ht with rfl | ht
  · exact ha
  · exact List.mem_singleton.1 ht ▸ hb

theorem infer {name : String} {constraint : Ty} : P (.infer name constraint) ↔ P constraint := by
  have kids : (Ty.infer name constraint).children = constraint.present?.toList := rfl
  constructor
  · intro h
    cases constraint with
    | absent => exact C.absent
    | _ => exact C.child h (by rw [kids]; exact List.mem_cons_self)
  · intro h
    refine C.plain rfl fun u hu => ?_
    cases constraint with
    | absent => cases hu
    | _ => exact List.mem_singleton.1 hu ▸ h

theorem object {props : List (Property Ty)} {index : Option (IndexSignature Ty)} (h : P (.object props index)) :
    (∀ p ∈ props, P p.type) ∧ ∀ i, index = some i → P i.value := by
  refine ⟨fun p hp => C.child h (List.mem_append_left _ (List.mem_map_of_mem hp)), ?_⟩
  rintro i rfl
  exact C.child h (List.mem_append_right _ List.mem_cons_self)

theorem branches {check bound yes no : Ty} {distribute : Bool} (h : P (.conditional check bound yes no distribute)) :
    P check ∧ P bound ∧ P yes ∧ P no := by
  refine ⟨C.child h ?_, C.child h ?_, C.child h ?_, C.child h ?_⟩ <;> simp [children, parts]

/-! ### Rebuilding -/

section Rebuild
variable {m n : Type → Type} [Monad m] [LawfulMonad m] [Monad n] [LawfulMonad n] (L : Linked m n) {f : Ty → m Ty}
  {g : Ty → n Ty}

/-- A type rebuilt from parts with the property has it. -/
theorem rebuild {t : Ty} (ht : P t) (hf : ∀ u ∈ t.children, L.All P (f u) (g u)) :
    L.All P (t.rebuild f) (t.rebuild g) := by
  have rebuilds : Rebuilds P P t :=
    ⟨fun _ => ht, fun hu _ => C.plain hu, fun _ => C.unionOf, fun _ => C.meetOf, fun _ => C.templateOf,
      fun _ hp hi => C.ofProps hp fun i h => (hi i h).1⟩
  cases t with
  | conditional check bound yes no distribute =>
    refine L.bind (hf check (by simp [children, parts])) fun c hc => ?_
    refine L.bind (hf bound (by simp [children, parts])) fun b hb => ?_
    refine L.bind (hf yes (by simp [children, parts])) fun y hy => ?_
    refine L.bind (hf no (by simp [children, parts])) fun n hn => L.pure ?_
    exact C.conditional (fun hd => (Bool.and_eq_true_iff.1 hd).1) hc hb hy hn
  | param => exact L.pure ht
  | _ => exact rebuilds.rebuild L rfl rfl hf

end Rebuild
end Carried

/-! ### Checked constructors -/

theorem normal_readLiteral {base : Prim} {text : String} {t : Ty} (h : readLiteral base text = .ok t) : Normal t := by
  unfold readLiteral at h
  split at h
  · cases h
    exact normal_literal _ _
  · split at h
    · split at h
      · cases h
        exact normal_literal _ _
      · cases h
    · cases h
  · split at h
    · cases h
      exact normal_literal _ _
    · cases h
  · split at h
    · cases h
      exact normal_literal _ _
    · cases h
  · split at h
    · cases h
    · cases h
      exact normal_literal _ _
  · cases h
  · cases h

theorem normal_newTemplate {segments : List (Segment Ty)} {t : Ty} (hs : ∀ u ∈ holes segments, Normal u)
    (h : newTemplate segments = .ok t) : Normal t := by
  unfold newTemplate at h
  split at h
  · cases h
  · cases h
    exact normal_templateOf hs

theorem normal_newObject {props : List (Property Ty)} {index : Option (IndexSignature Ty)} {t : Ty}
    (hp : ∀ p ∈ props, Normal p.type) (hi : ∀ i, index = some i → Normal i.value)
    (h : newObject props index = .ok t) : Normal t := by
  let R := Results.except TypeError
  have shape : R.All Normal (pure (Shape.ofProps props index).toTy) := R.pure (normal_ofProps hp hi)
  have all : R.All Normal (newObject props index) := by
    refine Results.except_after fun _ => Results.except_after fun _ => ?_
    dsimp only
    split
    · exact shape
    · split
      · split
        · rintro t ⟨⟩
        · exact shape
      · exact shape
  exact all t h

theorem normal_newConditional {check bound yes no t : Ty} (hc : Normal check) (hb : Normal bound) (hy : Normal yes)
    (hn : Normal no) (h : newConditional check bound yes no = .ok t) : Normal t := by
  let R := Results.except TypeError
  have made : R.All Normal (pure (conditional check bound yes no check.isParam)) :=
    R.pure (normal_conditional.2 ⟨id, hc, hb, hy, hn⟩)
  have checked : R.All Normal (do check.validate; yes.validate; no.validate; bound.validateBound
                                  return conditional check bound yes no check.isParam) :=
    Results.except_after fun _ => Results.except_after fun _ => Results.except_after fun _ =>
      Results.except_after fun _ => made
  have all : R.All Normal (newConditional check bound yes no) := by
    unfold newConditional
    split
    · exact Results.except_after fun _ => checked
    · exact checked
  exact all t h

end Ty
end TypeCalculus

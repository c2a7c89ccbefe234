import TypeCalculus.Proofs.Assignable.Comparison
import TypeCalculus.Proofs.Substitute

/-! What the placeholders of a comparison capture has every property of the types compared that all constructors hand
    on, such as the normal form: every type that a comparison comes across is a part of its operands, or built from
    such parts by a normalising constructor. -/

namespace TypeCalculus.Assignable
open Ty (Normal Carried holes)

/-- Trees hand the property on to their children, and what a comparison puts together from parts has it. -/
structure Handed (P : Ty → Prop) : Prop where
  absent : P .absent
  atom : ∀ {t : Ty}, t.isAtom = true → P t
  child : ∀ {t u : Ty}, P t → u ∈ t.children → P u
  unionOf : ∀ {ts : List Ty}, (∀ t ∈ ts, P t) → P (Ty.unionOf ts)
  templateOf : ∀ {segments : List (Segment Ty)}, (∀ t ∈ holes segments, P t) → P (Ty.templateOf segments)

theorem Handed.of_carried {P : Ty → Prop} (C : Carried P) : Handed P :=
  ⟨C.absent, C.atom, C.child, C.unionOf, C.templateOf⟩

theorem Handed.and {P Q : Ty → Prop} (hP : Handed P) (hQ : Handed Q) : Handed fun t => P t ∧ Q t where
  absent := ⟨hP.absent, hQ.absent⟩
  atom ht := ⟨hP.atom ht, hQ.atom ht⟩
  child h hu := ⟨hP.child h.1 hu, hQ.child h.2 hu⟩
  unionOf h := ⟨hP.unionOf fun t ht => (h t ht).1, hQ.unionOf fun t ht => (h t ht).2⟩
  templateOf h := ⟨hP.templateOf fun t ht => (h t ht).1, hQ.templateOf fun t ht => (h t ht).2⟩

section Handed
variable {P : Ty → Prop} (H : Handed P)
include H

theorem Handed.constraint {name : String} {c : Ty} (h : P (.infer name c)) : P c := by
  cases c with
  | absent => exact H.absent
  | _ => exact H.child h List.mem_cons_self

theorem Handed.unionOf_pair {a b : Ty} (ha : P a) (hb : P b) : P (Ty.unionOf [a, b]) :=
  H.unionOf (List.forall_mem_cons.2 ⟨ha, List.forall_mem_singleton.2 hb⟩)

theorem Handed.object {props : List (Property Ty)} {index : Option (IndexSignature Ty)} (h : P (.object props index)) :
    (∀ p ∈ props, P p.type) ∧ ∀ i, index = some i → P i.value := by
  refine ⟨fun p hp => H.child h (List.mem_append_left _ (List.mem_map_of_mem hp)), ?_⟩
  rintro i rfl
  exact H.child h (List.mem_append_right _ List.mem_cons_self)

theorem Constant.handed {t : Ty} (h : Constant t) : P t := by
  rcases h with rfl | rfl | ⟨base, text, rfl⟩ <;> exact H.atom rfl

theorem handed_captured (region : String) (u : Ty) : P (captured region u) := (captured_constant region u).handed H

theorem Matched.handed {t u : Ty} (h : Matched t u) (ht : P t) : P u := by
  induction h with
  | self => exact ht
  | constraint => exact H.constraint ht
  | hole hm _ ih => exact ih (H.child ht hm)
  | member hm _ ih => exact ih (H.child ht hm)

theorem handed_upperBound {t u : Ty} (h : upperBound? t = some u) (ht : P t) : P u := by
  cases t with
  | param name constraint default =>
    have : constraint = u := by cases constraint <;> simp_all [upperBound?, Ty.present?]
    exact this ▸ H.child ht List.mem_cons_self
  | conditional check bound yes no distribute =>
    cases h
    exact H.unionOf_pair (H.child ht (by simp [Ty.children, Ty.parts])) (H.child ht (by simp [Ty.children, Ty.parts]))
  | keyOf target =>
    cases h
    refine H.unionOf fun v hv => ?_
    simp only [List.mem_cons, List.not_mem_nil, or_false] at hv
    rcases hv with rfl | rfl | rfl <;> exact H.atom rfl
  | _ => cases h

theorem handed_apparentShape {t : Ty} {s : Shape} (h : apparentShape? t = some s) (ht : P t) :
    (∀ p ∈ s.props, P p.type) ∧ ∀ i, s.index = some i → P i.value := by
  cases t with
  | object props index =>
    cases h
    exact H.object ht
  | array elem readonly =>
    cases h
    refine ⟨fun p hp => ?_, ?_⟩
    · rw [List.mem_singleton.1 (Shape.mem_ofProps hp)]
      exact H.atom rfl
    · rintro i ⟨⟩
      exact H.child ht List.mem_cons_self
  | tuple elems =>
    cases h
    refine ⟨fun p hp => ?_, ?_⟩
    · rcases mem_tupleProps (Shape.mem_ofProps hp) with hm | ⟨n, hn⟩
      · exact H.child ht hm
      · rw [hn]
        exact H.atom rfl
    · rintro i ⟨⟩
      exact H.unionOf fun u hu => H.child ht hu
  | function params result | reference name args =>
    cases h
    refine ⟨?_, ?_⟩
    · intro p hp
      cases hp
    · intro i hi
      cases hi
  | _ => cases h

/-- The property is handed on to the types that a comparison leads to. -/
theorem Compares.handed {a b x y : Ty} (h : Compares a b x y) (ha : P a) (hb : P b) : P x ∧ P y := by
  cases h with
  | sourceMember hm | sourcePart hm => exact ⟨H.child ha hm, hb⟩
  | targetMember hm | targetPart hm => exact ⟨ha, H.child hb hm⟩
  | bound hu => exact ⟨handed_upperBound H hu ha, hb⟩
  | targetInfer => exact ⟨ha, H.constraint hb⟩
  | sourceInfer => exact ⟨hb, H.constraint ha⟩
  | hole ht hu => exact ⟨handed_captured H _ _, hu.handed H (H.child hb ht)⟩
  | aligned hx hy => exact ⟨H.child ha hx, H.child hb hy⟩
  | peeled hs hr =>
    refine ⟨H.templateOf fun t ht => ?_, H.child hb (mem_of_singleHole? hs)⟩
    rw [holes_peeled? hr] at ht
    exact H.child ha ht
  | mapping => exact ⟨ha, H.child hb List.mem_cons_self⟩
  | prop hs hp hq => exact ⟨(handed_apparentShape H hs ha).1 _ hp, (H.object hb).1 _ hq⟩
  | covered hs hp => exact ⟨(handed_apparentShape H hs ha).1 _ hp, (H.object hb).2 _ rfl⟩
  | index hs hi => exact ⟨(handed_apparentShape H hs ha).2 _ hi, (H.object hb).2 _ rfl⟩
  | element => exact ⟨H.child ha List.mem_cons_self, H.child hb List.mem_cons_self⟩
  | elements => exact ⟨H.unionOf fun u hu => H.child ha hu, H.child hb List.mem_cons_self⟩
  | position hx hy | argument hx hy => exact ⟨H.child ha hx, H.child hb hy⟩
  | parameter hx hy => exact ⟨H.child hb (List.mem_append_left _ hy), H.child ha (List.mem_append_left _ hx)⟩
  | result =>
    exact ⟨H.child ha (List.mem_append_right _ List.mem_cons_self), H.child hb (List.mem_append_right _ List.mem_cons_self)⟩

omit H in
/-- The comparison captures only types with the property. -/
def CapturesOnly (P : Ty → Prop) (x : Relating Bool) : Prop :=
  ∀ p, p.captures.Forall P → (x p).2.captures.Forall P

omit H in
theorem capture_forall (union : ∀ {a b}, P a → P b → P (Ty.unionOf [a, b])) {t : Ty} (name : String) (ht : P t) {p : Progress}
    (hp : p.captures.Forall P) : (capture name t p).2.captures.Forall P := by
  change (p.captures.insert name _).Forall P
  refine hp.insert name ?_
  split
  · rename_i previous hf
    exact union (hp.find? hf) ht
  · exact ht

omit H in
theorem capturesOnly_compatible (union : ∀ {a b}, P a → P b → P (Ty.unionOf [a, b])) :
    Compatible P fun x _ => CapturesOnly P x where
  answer _ _ hp := hp
  both hx hy p hp := by
    change ((if _ then _ else _ : Relating Bool) _).2.captures.Forall P
    split
    · exact hy _ (hx p hp)
    · exact hx p hp
  either hx hy p hp := by
    change ((if _ then _ else _ : Relating Bool) _).2.captures.Forall P
    split
    · exact hx p hp
    · exact hy _ (hx p hp)
  attempt {x _} hx p hp := by
    change ((if !(x p).1 then _ else _ : Relating Bool) (x p).2).2.captures.Forall P
    split
    · exact hp
    · exact hx p hp
  capture name ht p hp := capture_forall union name ht hp
  report _ _ _ hp := hp

theorem relate_capturesOnly (o : Options) {n : Nat} {a b : Ty} (ha : P a) (hb : P b) :
    CapturesOnly P (relate o n a b) := by
  induction n generalizing a b with
  | zero =>
    intro p hp
    simp only [relate]
    split
    · exact hp
    · change (if p.clipped then p else _ : Progress).captures.Forall P
      split <;> exact hp
  | succ n ih =>
    rw [relate]
    split
    · exact (capturesOnly_compatible H.unionOf_pair).answer false
    · refine @Compatible.check _ _ (capturesOnly_compatible H.unionOf_pair) _ (relate o n) o o rfl a b ha hb (handed_captured H) ?_
      intro x y hxy
      obtain ⟨hx, hy⟩ := hxy.handed H ha hb
      exact ih hx hy

end Handed

/-- A comparison captures types with the properties of its operands. -/
theorem carried_captures {P : Ty → Prop} (C : Carried P) (o : Options) {a b : Ty} (ha : P a) (hb : P b) :
    (run o a b).2.captures.Forall P :=
  relate_capturesOnly (.of_carried C) o ha hb {} Subst.forall_empty

theorem normal_captures (o : Options) {a b : Ty} (ha : Normal a) (hb : Normal b) :
    (run o a b).2.captures.Forall Normal :=
  carried_captures Ty.carried_normal o ha hb

/-- No placeholder captures a missing type. -/
theorem captures_present (o : Options) (a b : Ty) : (run o a b).2.captures.Forall (· ≠ .absent) := by
  have compatible : Compatible (· ≠ .absent) fun x _ => CapturesOnly (· ≠ .absent) x :=
    capturesOnly_compatible fun _ _ => Ty.unionOf_ne_absent _
  have all : ∀ n a b, CapturesOnly (· ≠ .absent) (relate o n a b) := by
    intro n
    induction n with
    | zero =>
      intro a b p hp
      simp only [relate]
      split
      · exact hp
      · change (if p.clipped then p else _ : Progress).captures.Forall _
        split <;> exact hp
    | succ n ih =>
      intro a b
      rw [relate]
      split
      · exact compatible.answer false
      · rename_i hab
        refine @Compatible.check _ _ compatible _ (relate o n) o o rfl a b ?_ ?_ (fun region u => ?_) fun x y _ => ih x y
        · rintro rfl
          exact hab rfl
        · rintro rfl
          exact hab (Bool.or_true _)
        · rcases captured_constant region u with h | h | ⟨_, _, h⟩ <;> rw [h] <;> nofun
  exact all o.limit a b {} Subst.forall_empty

end TypeCalculus.Assignable

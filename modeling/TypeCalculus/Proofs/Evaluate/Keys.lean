import Mathlib
import TypeCalculus.Proofs.Assignable.Keys
import TypeCalculus.Proofs.Evaluate.Distribute

/-! The keys that `keyof` gives a type can index it (`keys_index_type`): those of a union fall under the keys of each of its
    members. The one thing lost on the way is which numbers are positions of a tuple. `number` stands for all of them among
    its keys, so a number that another member has for a key need not be a position. -/

namespace TypeCalculus
open Ty Assignable

/-! ### The keys of a type -/

namespace Ty
variable {part k : Ty} {props : List (Property Ty)} {signature : Option (IndexSignature Ty)}

/-- The index can be used on the type. -/
def Indexable (t index : Ty) : Prop := ∃ u, indexed t index = .ok u

/-- The key falls under the keys of the part, and a number is a position if the part is a tuple. -/
structure HasKey (part k : Ty) : Prop where
  covered : part.keysOf.Covers k
  position : ∀ elems text, part = tuple elems → k = literal .number text →
    ∃ i : Nat, readInt? text = some (i : Int) ∧ i < elems.length

/-- Index signatures are for strings or for numbers. -/
abbrev Signed (t : Ty) : Prop :=
  Throughout parts (fun u => ∀ props i, u = object props (some i) → i.key = .string ∨ i.key = .number) t

/-- A type that is neither a union nor an intersection, with nothing open in it. -/
structure Part (t : Ty) : Prop where
  present : t ≠ absent
  single : t.isMeetMember = true
  concrete : t.isConcrete = true
  form : NodeForm t
  signed : Signed t

theorem keyLiteral_cases (key : String) :
    keyLiteral key = stringLit key ∨ isNumericKey key = true ∧ keyLiteral key = literal .number key := by
  unfold keyLiteral isNumericKey
  split
  · rename_i x hx
    rw [hx]
    split
    · rename_i he
      exact .inr ⟨decide_eq_true he, congrArg _ he⟩
    · exact .inl rfl
  · exact .inl rfl

theorem key_keyLiteral (key : String) : Key (keyLiteral key) := by
  rcases keyLiteral_cases key with he | ⟨hn, he⟩
  · rw [he]
    exact .name key
  · rw [he]
    exact .digits hn

theorem keyLiteral_numeric {text : String} (h : isNumericKey text = true) : keyLiteral text = literal .number text := by
  obtain ⟨x, hx, hw⟩ := (Option.any_eq_true _ _).1 h
  have hw : Number.write x = text := of_decide_eq_true hw
  rw [keyLiteral, hx]
  exact (if_pos hw).trans (congrArg (literal .number) hw)

theorem mem_indexKeys {t : Ty} (h : t ∈ indexKeys signature) :
    ∃ i, signature = some i ∧ (t = number ∨ i.key = .string ∧ t = string) := by
  unfold indexKeys at h
  split at h
  · cases h
  · rename_i i
    refine ⟨i, rfl, ?_⟩
    split at h
    · rename_i hs
      simp only [List.mem_cons, List.not_mem_nil, or_false] at h
      exact h.imp_right fun ht => ⟨hs, ht⟩
    · exact .inl (List.mem_singleton.1 h)

theorem number_mem_indexKeys (i : IndexSignature Ty) : number ∈ indexKeys (some i) := by
  unfold indexKeys
  dsimp only
  split <;> exact List.mem_cons_self

theorem key_number : Key number := .all List.mem_cons_self

theorem key_of_object : ∀ t ∈ props.map (fun p => keyLiteral p.key) ++ indexKeys signature, Key t := by
  intro t ht
  rcases List.mem_append.1 ht with ht | ht
  · obtain ⟨p, -, rfl⟩ := List.mem_map.1 ht
    exact key_keyLiteral p.key
  · obtain ⟨i, -, rfl | ⟨-, rfl⟩⟩ := mem_indexKeys ht
    · exact key_number
    · exact .all (by decide)

theorem key_of_sequence : ∀ t ∈ [number, stringLit lengthKey], Key t :=
  List.forall_mem_cons.2 ⟨key_number, List.forall_mem_singleton.2 (.name _)⟩

theorem mem_positionKeys {t : Ty} : {i : Nat} → {elems : List Ty} → t ∈ positionKeys i elems →
    ∃ j, i ≤ j ∧ j < i + elems.length ∧ t = stringLit (toString j)
  | i, _ :: elems, h => by
    rcases List.mem_cons.1 h with rfl | h
    · exact ⟨i, Nat.le_refl i, by simp, rfl⟩
    · obtain ⟨j, hl, hj, he⟩ := mem_positionKeys h
      refine ⟨j, by omega, ?_, he⟩
      rw [List.length_cons]
      omega

theorem key_of_tuple (elems : List Ty) : ∀ t ∈ positionKeys 0 elems ++ [number, stringLit lengthKey], Key t := by
  intro t ht
  rcases List.mem_append.1 ht with ht | ht
  · obtain ⟨j, -, -, rfl⟩ := mem_positionKeys ht
    exact .name _
  · exact key_of_sequence t ht

/-- What is known of a part has keys, or none. -/
theorem Part.keySet (h : Part part) : KeySet part.keysOf := by
  cases part with
  | absent => exact absurd rfl h.present
  | object => exact keySet_unionOf fun t ht => .one (key_of_object t ht)
  | array => exact keySet_unionOf fun t ht => .one (key_of_sequence t ht)
  | tuple elems => exact keySet_unionOf fun t ht => .one (key_of_tuple elems t ht)
  | union | intersection | any | unknown | never => cases h.single
  | param | infer | conditional | keyOf | access | mapping => exact absurd h.concrete Bool.false_ne_true
  | _ => exact .none

/-! ### Indexing a part -/

theorem Part.indexed_key (h : Part part) (hk : Key k) :
    indexed part k = match part with
      | object props signature => indexShape props signature k
      | array elem readonly => indexArray elem readonly k
      | tuple elems => indexTuple elems k
      | t => noSuchIndex t k := by
  have single := h.single
  rw [indexed.eq_def, if_neg (by rw [h.concrete, hk.firstOrder.concrete]; exact Bool.false_ne_true), if_neg]
  · cases part <;> first | cases single; done | (cases hk <;> rfl)
  · cases part <;> first | cases single; done | exact Bool.false_ne_true

theorem indexable_shape (ascending : Shape.Ascending props)
    (signed : ∀ i, signature = some i → i.key = .string ∨ i.key = .number) (hk : Key k)
    (h : (object props signature).keysOf.Covers k) : ∃ u, indexShape props signature k = .ok u := by
  have named : ∀ {p base}, p ∈ props → base = Prim.string ∨ base = .number →
      ∃ u, indexShape props signature (literal base p.key) = .ok u := by
    rintro p base hp (rfl | rfl) <;>
    · simp only [indexShape, Shape.find?_of_mem ascending hp]
      exact ⟨_, rfl⟩
  have fallback : ∀ {i base text}, signature = some i → base = Prim.string ∨ base = .number → i.covers text = true →
      ∃ u, indexShape props signature (literal base text) = .ok u := by
    rintro i base text rfl (rfl | rfl) hc <;>
    · simp only [indexShape, hc, if_true]
      split <;> exact ⟨_, rfl⟩
  obtain ⟨t, ht, hu⟩ := (covers_keys key_of_object hk).1 h
  rcases List.mem_append.1 ht with ht | ht
  · obtain ⟨p, hp, rfl⟩ := List.mem_map.1 ht
    rcases keyLiteral_cases p.key with he | ⟨-, he⟩ <;> rw [he] at hu <;> cases hu
    · exact named hp (.inl rfl)
    · exact named hp (.inr rfl)
  · obtain ⟨i, rfl, rfl | ⟨hs, rfl⟩⟩ := mem_indexKeys ht
    · cases hu with
      | refl =>
        have : (number.identical (prim i.key) || (number.isNumeric && i.key = .string)) = true := by
          rcases signed i rfl with hi | hi <;> rw [hi] <;> rfl
        simp only [indexShape, this, if_true]
        exact ⟨_, rfl⟩
      | base he =>
        subst he
        cases hk with
        | digits hn => exact fallback rfl (.inr rfl) (by rw [IndexSignature.covers, hn, Bool.or_true])
    · cases hu with
      | refl =>
        have : (string.identical (prim i.key) || (string.isNumeric && i.key = .string)) = true := by rw [hs]; rfl
        simp only [indexShape, this, if_true]
        exact ⟨_, rfl⟩
      | base he =>
        subst he
        exact fallback rfl (.inl rfl) (by rw [IndexSignature.covers, hs]; rfl)

/-- A position is read from its text. -/
theorem readInt?_toString (n : Nat) : readInt? (toString n) = some (n : Int) := by
  have digits : ∀ c ∈ Nat.toDigits 10 n, c.isDigit = true := fun c hc => Nat.isDigit_of_mem_toDigits (by decide) (by decide) hc
  have text : (toString n).toList = Nat.toDigits 10 n := by rw [Nat.toString_eq_ofList_toDigits, String.toList_ofList]
  have unsigned : Number.splitSign (Nat.toDigits 10 n) = (false, Nat.toDigits 10 n) := by
    generalize Nat.toDigits 10 n = cs at digits
    unfold Number.splitSign
    split
    · exact absurd (digits '-' List.mem_cons_self) (by decide)
    · exact absurd (digits '+' List.mem_cons_self) (by decide)
    · rfl
  have value : ∀ {cs : List Char} {m : Nat}, (∀ c ∈ cs, c.isDigit = true) →
      cs.foldl (fun (n : Int) c => n * 10 + (c.toNat - '0'.toNat)) (m : Int) = (Nat.ofDigitChars 10 cs m : Nat) := by
    intro cs
    induction cs with
    | nil => exact fun _ => rfl
    | cons c cs ih =>
      intro m h
      obtain ⟨hc, hcs⟩ := List.forall_mem_cons.1 h
      have low : '0'.toNat ≤ c.toNat := by
        simp only [Char.isDigit, Bool.and_eq_true, decide_eq_true_eq] at hc
        exact hc.1
      rw [List.foldl_cons, Nat.ofDigitChars_cons, ← ih hcs]
      congr 1
      omega
  unfold readInt?
  rw [text, unsigned]
  dsimp only
  have filled : (Nat.toDigits 10 n).isEmpty = false := List.isEmpty_eq_false_iff.2 Nat.toDigits_ne_nil
  rw [if_neg (by rw [filled, List.all_eq_true.2 digits]; exact Bool.false_ne_true), if_neg Bool.false_ne_true]
  exact congrArg some ((value digits).trans (by rw [Nat.ofDigitChars_ten_toDigits]))

/-- The text of a position indexes a tuple. -/
theorem indexable_position {elems : List Ty} {base : Prim} {text : String} {i : Nat} (hr : readInt? text = some (i : Int))
    (hi : i < elems.length) : ∃ u, indexTuple elems (literal base text) = .ok u := by
  unfold indexTuple
  dsimp only
  split
  · exact ⟨_, rfl⟩
  · rw [hr]
    dsimp only
    rw [if_neg (Int.not_lt.2 (Int.natCast_nonneg i)), Int.toNat_natCast, List.getElem?_eq_getElem hi]
    exact ⟨_, rfl⟩

/-- A key of a part can index it. -/
theorem HasKey.indexable (hp : Part part) (hk : Key k) (h : part.HasKey k) : Indexable part k := by
  unfold Indexable
  rw [hp.indexed_key hk]
  have none : ¬never.Covers k := by
    rintro ⟨a, ha, hu⟩
    cases List.mem_singleton.1 ha
    cases hu
    exact hk.ne_never rfl
  cases part with
  | object props signature => exact indexable_shape hp.form (fun i hi => hp.signed.node props i (by rw [hi])) hk h.covered
  | array elem readonly =>
    obtain ⟨t, ht, hu⟩ := (covers_keys key_of_sequence hk).1 h.covered
    simp only [List.mem_cons, List.not_mem_nil, or_false] at ht
    rcases ht with rfl | rfl
    · exact ⟨elem, if_pos (beq_iff_eq.2 hu.baseOf?_eq)⟩
    · cases hu
      exact ⟨number, rfl⟩
  | tuple elems =>
    obtain ⟨t, ht, hu⟩ := (covers_keys (key_of_tuple elems) hk).1 h.covered
    rcases List.mem_append.1 ht with ht | ht
    · obtain ⟨j, -, hj, rfl⟩ := mem_positionKeys ht
      cases hu
      exact indexable_position (readInt?_toString j) (by omega)
    · simp only [List.mem_cons, List.not_mem_nil, or_false] at ht
      rcases ht with rfl | rfl
      · cases hu with
        | refl => exact ⟨unionOf elems, rfl⟩
        | base he =>
          obtain ⟨i, hi, hlt⟩ := h.position elems _ rfl he
          exact he ▸ indexable_position hi hlt
      · cases hu
        exact ⟨natLit elems.length, rfl⟩
  | union | intersection | any | unknown | never => cases hp.single
  | absent => exact absurd rfl hp.present
  | param | infer | conditional | keyOf | access | mapping => exact absurd hp.concrete Bool.false_ne_true
  | _ => exact absurd h.covered none

/-- A number that can index a part is a key of it. -/
theorem Indexable.hasKey {text : String} (hp : Part part) (hn : isNumericKey text = true) (h : Indexable part (literal .number text)) : part.HasKey (literal .number text) := by
  have hk : Key (literal .number text) := .digits hn
  obtain ⟨u, hu⟩ := h
  rw [hp.indexed_key hk] at hu
  have under : Under (literal .number text) number := .base rfl
  cases part with
  | object props signature =>
    refine ⟨(covers_keys key_of_object hk).2 ?_, fun _ _ he => by cases he⟩
    simp only [indexShape] at hu
    split at hu
    · rename_i p hp
      refine ⟨keyLiteral p.key, List.mem_append_left _ (List.mem_map_of_mem (Shape.mem_of_find? hp)), ?_⟩
      rw [Shape.key_of_find? hp, keyLiteral_numeric hn]
      exact .refl
    · split at hu
      · exact ⟨number, List.mem_append_right _ (number_mem_indexKeys _), under⟩
      · cases hu
  | array elem readonly => exact ⟨(covers_keys key_of_sequence hk).2 ⟨number, List.mem_cons_self, under⟩, fun _ _ he => by cases he⟩
  | tuple elems =>
    refine ⟨(covers_keys (key_of_tuple elems) hk).2 ⟨number, List.mem_append_right _ List.mem_cons_self, under⟩, ?_⟩
    rintro _ _ ⟨⟩ ⟨⟩
    change indexTuple elems (literal .number text) = .ok u at hu
    rw [indexTuple, if_neg (show ¬(decide (Prim.number = .string) && decide (text = lengthKey)) = true from Bool.false_ne_true)] at hu
    split at hu
    · rename_i i hi
      split at hu
      · cases hu
      · rename_i hneg
        split at hu
        · rename_i t ht
          obtain ⟨hlt, -⟩ := List.getElem?_eq_some_iff.1 ht
          exact ⟨i.toNat, by rw [hi, Int.toNat_of_nonneg (Int.not_lt.1 hneg)], hlt⟩
        · cases hu
    · cases hu
  | _ => cases hu

/-! ### Indexing unions and intersections -/

variable {t m : Ty} {ms ks : List Ty}

theorem exists_of_mapM {α β ε : Type} {f : α → Except ε β} {xs : List α} {ys : List β} (h : xs.mapM f = .ok ys) :
    ∀ x ∈ xs, ∃ y, f x = .ok y := by
  have each := (Results.except ε).mapM_forall₂ (P := fun x y => f x = .ok y) (fun _ _ _ h => h) ys h
  clear h
  induction each with
  | nil => exact fun x hx => by cases hx
  | cons h _ ih => exact List.forall_mem_cons.2 ⟨⟨_, h⟩, ih⟩

theorem exists_unionOf_mapM {α : Type} {f : α → Except TypeError Ty} {xs : List α} :
    (∃ u, (do return unionOf (← xs.mapM f)) = Except.ok u) ↔ ∀ x ∈ xs, ∃ u, f x = .ok u := by
  constructor
  · rintro ⟨u, hu⟩ x hx
    cases hm : xs.mapM f with
    | error e =>
      rw [hm] at hu
      cases hu
    | ok us => exact exists_of_mapM hm x hx
  · intro h
    cases hd : (do return unionOf (← xs.mapM f) : Except TypeError Ty) with
    | ok u => exact ⟨u, rfl⟩
    | error e =>
      obtain ⟨x, hx, he⟩ := mem_of_unionOf_mapM_error hd
      obtain ⟨u, hu⟩ := h x hx
      rw [he] at hu
      cases hu

/-- Every key of a union is used by itself. -/
theorem indexable_union_index (ht : t.isConcrete = true) (ha : t.isAny = false) (hc : (union ks).isConcrete = true) :
    Indexable t (union ks) ↔ ∀ k ∈ ks, Indexable t k := by
  unfold Indexable
  rw [indexed.eq_def, if_neg (by rw [ht, hc]; exact Bool.false_ne_true), if_neg (by rw [ha]; exact Bool.false_ne_true)]
  exact exists_unionOf_mapM.trans ⟨fun h k hk => h ⟨k, hk⟩ (List.mem_attach _ _), fun h k _ => h k.1 k.2⟩

/-- A key indexes every member of a union. -/
theorem indexable_union_target (hc : (union ms).isConcrete = true) (hk : k = never ∨ Key k) :
    Indexable (union ms) k ↔ ∀ m ∈ ms, Indexable m k := by
  have known : k.isConcrete = true := by
    rcases hk with rfl | hk
    · rfl
    · exact hk.firstOrder.concrete
  have each : (∃ u, (do return unionOf (← ms.attach.mapM fun m => indexed m.1 k)) = Except.ok u) ↔
      ∀ m ∈ ms, ∃ u, indexed m k = .ok u :=
    exists_unionOf_mapM.trans ⟨fun h m hm => h ⟨m, hm⟩ (List.mem_attach _ _), fun h m _ => h m.1 m.2⟩
  unfold Indexable
  rw [indexed.eq_def, if_neg (by rw [hc, known]; exact Bool.false_ne_true), if_neg (show ¬(union ms).isAny = true from Bool.false_ne_true)]
  rcases hk with rfl | hk
  · exact each
  · cases hk <;> exact each

/-- A key indexes an intersection if it indexes a member. -/
theorem indexable_intersection (hc : (intersection ms).isConcrete = true) (hk : Key k) :
    Indexable (intersection ms) k ↔ ∃ m ∈ ms, Indexable m k := by
  unfold Indexable
  rw [indexed.eq_def, if_neg (by rw [hc, hk.firstOrder.concrete]; exact Bool.false_ne_true),
    if_neg (show ¬(intersection ms).isAny = true from Bool.false_ne_true)]
  have mem : ∀ {u} {f : {m // m ∈ ms} → Option Ty}, (∀ m, f m = (indexed m.1 k).toOption) →
      (u ∈ ms.attach.filterMap f ↔ ∃ m ∈ ms, indexed m k = .ok u) := by
    intro u f hf
    rw [List.mem_filterMap]
    constructor
    · rintro ⟨m, -, hu⟩
      exact ⟨m.1, m.2, eq_ok_of_toOption (hf m ▸ hu)⟩
    · rintro ⟨m, hm, hu⟩
      exact ⟨⟨m, hm⟩, List.mem_attach _ _, by rw [hf, hu]; rfl⟩
  split
  · cases hk
  · contradiction
  · cases hk
  · contradiction
  · contradiction
  · contradiction
  · rename_i heq _ _
    cases heq
    have known := fun {u} => @mem u _ fun _ => rfl
    split
    · rename_i nothing
      rw [nothing] at known
      constructor
      · rintro ⟨u, hu⟩
        cases hu
      · rintro ⟨m, hm, u, hu⟩
        cases known.2 ⟨m, hm, hu⟩
    · rename_i some
      refine iff_of_true ⟨_, rfl⟩ ?_
      obtain ⟨u, hu⟩ := List.exists_mem_of_ne_nil _ some
      obtain ⟨m, hm, hu⟩ := known.1 hu
      exact ⟨m, hm, u, hu⟩
  · rename_i other
    exact (other ms rfl).elim

/-! ### Members of a union -/

/-- A member of a union, or a type that is no union, with nothing open in it. -/
structure Member (m : Ty) : Prop where
  built : Built m
  present : m ≠ absent
  single : m.isUnionMember = true
  concrete : m.isConcrete = true
  signed : Signed m

/-- The parts of an intersection, or the type itself. -/
theorem Member.parts_cases (h : Member m) : (∃ ms, m = intersection ms ∧ m.meetMembers = ms ∧ ∀ p ∈ ms, Part p) ∨
    m.meetMembers = [m] ∧ Part m := by
  have lone : (∀ ms, m ≠ intersection ms) → m.meetMembers = [m] ∧ Part m := by
    intro hi
    have single := h.single
    have form := h.built.normal.form
    refine ⟨meetMembers_self h.present hi, h.present, ?_, h.concrete, form, h.signed⟩
    cases m with
    | intersection ms => exact absurd rfl (hi ms)
    | union | any | unknown | never => cases single
    | _ => rfl
  by_cases hi : ∃ ms, m = intersection ms
  · obtain ⟨ms, rfl⟩ := hi
    have form : MeetForm ms := h.built.normal.form
    have parts : ∀ p ∈ ms, Part p := fun p hp => by
      have tidy := (h.built.tidy.node.meet ms rfl).present
      refine ⟨fun he => tidy (he ▸ hp), form.single p hp, concrete_of_part h.concrete hp, ?_, h.signed.under hp⟩
      exact (h.built.part rfl hp).normal.form
    refine .inl ⟨ms, rfl, ?_, parts⟩
    rw [meetMembers]
    clear form h lone
    induction ms with
    | nil => rfl
    | cons p ms ih =>
      obtain ⟨hp, rest⟩ := List.forall_mem_cons.1 parts
      rw [meetMembersAll, ih rest, meetMembers_self hp.present]
      · rfl
      · rintro ns rfl
        cases hp.single
  · exact .inr (lone fun ms he => hi ⟨ms, he⟩)

theorem keysOfAll_eq (ts : List Ty) : keysOfAll ts = ts.map keysOf := by
  induction ts with
  | nil => rfl
  | cons t ts ih => rw [keysOfAll, ih, List.map_cons]

theorem Member.keySet (h : Member m) : KeySet m.keysOf := by
  rcases h.parts_cases with ⟨ms, rfl, -, parts⟩ | ⟨-, part⟩
  · rw [keysOf, keysOfAll_eq]
    exact keySet_unionOf (List.forall_mem_map.2 fun p hp => (parts p hp).keySet)
  · exact part.keySet

/-- A key of a type is a key of a part. -/
theorem Member.covers_iff (h : Member m) (hk : Key k) : m.keysOf.Covers k ↔ ∃ p ∈ m.meetMembers, p.keysOf.Covers k := by
  rcases h.parts_cases with ⟨ms, rfl, he, parts⟩ | ⟨he, part⟩
  · rw [he, keysOf, keysOfAll_eq, covers_unionOf (List.forall_mem_map.2 fun p hp => (parts p hp).keySet) hk]
    simp only [List.mem_map, exists_exists_and_eq_and]
  · rw [he]
    simp only [List.mem_singleton, exists_eq_left]

theorem Member.indexable_iff (h : Member m) (hk : Key k) : Indexable m k ↔ ∃ p ∈ m.meetMembers, Indexable p k := by
  rcases h.parts_cases with ⟨ms, rfl, he, -⟩ | ⟨he, -⟩
  · rw [he]
    exact indexable_intersection h.concrete hk
  · rw [he]
    simp only [List.mem_singleton, exists_eq_left]

theorem Member.meetPart (h : Member m) {p : Ty} (hp : p ∈ m.meetMembers) : Part p := by
  rcases h.parts_cases with ⟨ms, rfl, he, parts⟩ | ⟨he, part⟩
  · exact parts p (he ▸ hp)
  · rw [he] at hp
    exact List.mem_singleton.1 hp ▸ part

/-- What falls under the keys of a type can index it, unless it is a number that has to be a position of a tuple. -/
theorem Member.indexable_of_covers (h : Member m) (hk : Key k) (hc : m.keysOf.Covers k) :
    Indexable m k ↔ ∀ text, k = literal .number text → (∃ elems, tuple elems ∈ m.meetMembers) →
      ∃ p ∈ m.meetMembers, p.HasKey k := by
  rw [h.indexable_iff hk]
  constructor
  · rintro ⟨p, hp, hi⟩ text rfl -
    cases hk with
    | digits hn => exact ⟨p, hp, hi.hasKey (h.meetPart hp) hn⟩
  · intro positions
    obtain ⟨p, hp, hc⟩ := (h.covers_iff hk).1 hc
    have found : ∃ p ∈ m.meetMembers, p.HasKey k := by
      by_cases number : ∃ text, k = literal .number text
      · obtain ⟨text, he⟩ := number
        by_cases tuples : ∃ elems, tuple elems ∈ m.meetMembers
        · exact positions text he tuples
        · refine ⟨p, hp, hc, ?_⟩
          rintro elems _ rfl
          exact absurd ⟨elems, hp⟩ tuples
      · exact ⟨p, hp, hc, fun _ text _ he => absurd ⟨text, he⟩ number⟩
    obtain ⟨p, hp, has⟩ := found
    exact ⟨p, hp, has.indexable (h.meetPart hp) hk⟩

theorem indexable_never (hc : t.isConcrete = true) (hu : ∀ ms, t ≠ union ms) : Indexable t never := by
  unfold Indexable
  rw [indexed.eq_def, if_neg (by rw [hc]; exact Bool.false_ne_true)]
  split
  · exact ⟨any, rfl⟩
  · cases t with
    | union ms => exact absurd rfl (hu ms)
    | _ => exact ⟨never, rfl⟩

/-- A type is indexed by each of its keys. -/
theorem KeySet.indexable_iff {keys : Ty} (h : KeySet keys) (hc : t.isConcrete = true) (ha : t.isAny = false) :
    Indexable t keys ↔ ∀ k ∈ keys.unionMembers, Indexable t k := by
  have single : keys.unionMembers = [keys] → (Indexable t keys ↔ ∀ k ∈ keys.unionMembers, Indexable t k) := fun he => by
    rw [he, List.forall_mem_singleton]
  cases h with
  | none => exact single rfl
  | one h => exact single h.unionMembers
  | @many ms h =>
    have concrete : (union ms).isConcrete = true := concrete_of_throughout ⟨rfl, fun m hm => by
      cases h m hm <;> exact ⟨rfl, fun _ hu => by cases hu⟩⟩
    have members : (union ms).unionMembers = ms := by
      rw [unionMembers, unionMembersAll_self]
      · exact fun m hm => by cases h m hm <;> rfl
      · intro ha
        cases h absent ha
    rw [members]
    exact indexable_union_index hc ha concrete

/-- The keys of a union fall under the keys of each of its members. -/
theorem keySet_union {members : List Ty} (h : ∀ m ∈ members, Member m) (hne : members ≠ []) :
    KeySet (union members).keysOf ∧ ∀ k ∈ (union members).keysOf.unionMembers, k = never ∨ ∀ m ∈ members, m.keysOf.Covers k := by
  rw [keysOf, keysOfAll_eq, meetOf]
  obtain ⟨keys, under⟩ := meetsKeys_meetAt (List.forall_mem_map.2 fun m hm => (h m hm).keySet) (mt List.map_eq_nil_iff.1 hne)
  exact ⟨keys, fun k hk => (under k hk).imp_right fun hc m hm => hc _ (List.mem_map_of_mem hm)⟩

/-- Every number among the keys of a union is a position of each of its tuples, or a key of what stands beside the tuple in an
    intersection. -/
def Positioned (t : Ty) : Prop :=
  ∀ members, t = union members → ∀ text, literal .number text ∈ t.keysOf.unionMembers → ∀ m ∈ members,
    (∃ elems, tuple elems ∈ m.meetMembers) → ∃ p ∈ m.meetMembers, p.HasKey (literal .number text)

/-- No number is among the keys of a tuple. -/
theorem not_mem_tuple_keys {elems : List Ty} {text : String} : literal .number text ∉ (tuple elems).keysOf.unionMembers := by
  intro h
  rcases mem_unionOf h with he | h
  · cases he
  obtain ⟨t, ht, h⟩ := mem_unionMembersAll h
  rw [(key_of_tuple elems t ht).unionMembers] at h
  cases List.mem_singleton.1 h
  rcases List.mem_append.1 ht with ht | ht
  · obtain ⟨j, -, -, he⟩ := mem_positionKeys ht
    cases he
  · simp only [List.mem_cons, List.not_mem_nil, or_false] at ht
    rcases ht with he | he <;> cases he

/-- A number among the keys of a type that is no union is a key of one of its parts. -/
theorem Member.hasKey {text : String} (h : Member m) (hk : literal .number text ∈ m.keysOf.unionMembers) :
    ∃ p ∈ m.meetMembers, p.HasKey (literal .number text) := by
  have own : ∀ {p}, literal .number text ∈ (keysOf p).unionMembers → p.HasKey (literal .number text) := fun hp => by
    refine ⟨⟨_, hp, .refl⟩, ?_⟩
    rintro elems _ rfl
    exact absurd hp not_mem_tuple_keys
  rcases h.parts_cases with ⟨ms, rfl, he, -⟩ | ⟨he, -⟩
  · rw [keysOf, keysOfAll_eq] at hk
    rcases mem_unionOf hk with hn | hk
    · cases hn
    obtain ⟨t, ht, hk⟩ := mem_unionMembersAll hk
    obtain ⟨p, hp, rfl⟩ := List.mem_map.1 ht
    exact ⟨p, by rwa [he], own hk⟩
  · exact ⟨m, he ▸ List.mem_singleton_self m, own hk⟩

/-- Every key of a type that is no union can index it. -/
theorem Member.indexable_keysOf (h : Member m) : Indexable m m.keysOf := by
  have single := h.single
  refine (h.keySet.indexable_iff h.concrete (by cases m <;> first | rfl | cases single)).2 fun k hk => ?_
  rcases h.keySet.members k hk with rfl | key
  · refine indexable_never h.concrete ?_
    rintro ms rfl
    cases single
  · refine (h.indexable_of_covers key ⟨k, hk, .refl⟩).2 ?_
    rintro text rfl -
    exact h.hasKey hk

/-- The keys of a union can index it exactly if the numbers among them are positions. -/
theorem indexable_keysOf_union {members : List Ty} (hc : (union members).isConcrete = true) (h : ∀ m ∈ members, Member m)
    (hne : members ≠ []) : Indexable (union members) (union members).keysOf ↔ (union members).Positioned := by
  obtain ⟨keys, under⟩ := keySet_union h hne
  rw [keys.indexable_iff hc rfl]
  constructor
  · rintro indexable _ ⟨⟩ text hk m hm tuples
    have key := (keys.members _ hk).resolve_left fun he => by cases he
    have covers := (under _ hk).resolve_left (fun he => by cases he) m hm
    have each := (indexable_union_target hc (.inr key)).1 (indexable _ hk) m hm
    exact ((h m hm).indexable_of_covers key covers).1 each text rfl tuples
  · intro positioned k hk
    refine (indexable_union_target hc (keys.members k hk)).2 fun m hm => ?_
    rcases keys.members k hk with rfl | key
    · refine indexable_never (h m hm).concrete ?_
      rintro ms rfl
      cases (h _ hm).single
    · refine ((h m hm).indexable_of_covers key ((under k hk).resolve_left key.ne_never m hm)).2 ?_
      rintro text rfl tuples
      exact positioned members rfl text hk m hm tuples

/-- The keys of a type can index it exactly if the numbers among them are positions. -/
theorem indexable_keysOf (built : Built t) (signed : Signed t) (hc : t.isConcrete = true) (hn : t ≠ never) :
    Indexable t t.keysOf ↔ t.Positioned := by
  have lone : (∀ ms, t ≠ union ms) → t.Positioned := fun hu ms he => absurd he (hu ms)
  have member : t ≠ absent → t.isUnionMember = true → Member t := fun ha hs => ⟨built, ha, hs, hc, signed⟩
  cases t with
  | union members =>
    have form : UnionForm members := built.normal.form
    refine indexable_keysOf_union hc (fun m hm => ?_) (List.ne_nil_of_length_pos (Nat.lt_of_lt_of_le Nat.two_pos form.two))
    have present : m ≠ absent := fun he => built.tidy.node.union members rfl (he ▸ hm)
    exact ⟨built.part rfl hm, present, form.single m hm, concrete_of_part hc hm, signed.under hm⟩
  | never => exact absurd rfl hn
  | absent => exact iff_of_true ⟨_, indexed_open rfl⟩ (lone fun ms he => by cases he)
  | any =>
    refine iff_of_true ?_ (lone fun ms he => by cases he)
    unfold Indexable
    rw [indexed.eq_def]
    split <;> exact ⟨_, rfl⟩
  | unknown => exact iff_of_true (indexable_never rfl fun ms he => by cases he) (lone fun ms he => by cases he)
  | _ => exact iff_of_true (member (fun he => by cases he) rfl).indexable_keysOf (lone fun ms he => by cases he)

/-- The number is what the keys of a tuple and of a shape with one numeric key share. -/
theorem keysOf_shared {text : String} (digits : isNumericKey text = true) :
    (Ty.union [.tuple [.string], .object [⟨text, .number, false, false⟩] none]).keysOf = .literal .number text := by
  have sorted : sortByText [stringLit "0", number, stringLit lengthKey] = [stringLit "0", stringLit lengthKey, number] := by
    have low : (stringLit "0").print ≤ number.print := by decide
    have middle : (stringLit "0").print ≤ (stringLit lengthKey).print := by decide
    have high : ¬number.print ≤ (stringLit lengthKey).print := by decide
    simp [sortByText, List.mergeSort, low, middle, high]
  have first : (tuple [.string]).keysOf = .union [stringLit "0", stringLit lengthKey, number] := by
    rw [← sorted]
    rfl
  have second : (object [⟨text, .number, false, false⟩] none).keysOf = unionOf [keyLiteral text] := rfl
  have shared : (Ty.union [.tuple [.string], .object [⟨text, .number, false, false⟩] none]).keysOf =
      meetOf [(tuple [.string]).keysOf, (object [⟨text, .number, false, false⟩] none).keysOf] := rfl
  rw [shared, first, second, keyLiteral_numeric digits]
  cbv

end Ty

namespace Evaluate

/-- A type indexed by its keys is evaluated to what its value gives, unless it nests too deep. -/
theorem outcome_access_keyOf {env : Env} (hg : env.guarded = true) {u t : Ty} (h : outcome env u = .ok t) :
    TooDeep (outcome env (.access u (.keyOf u))) ∨ outcome env (.access u (.keyOf u)) = Ty.indexed t t.keysOf := by
  have value : ∀ {room}, room ≤ env.limit → ∀ {r}, Resolution.Level {} r →
      (TooDeep ((reduce env room u).run r).1 ∨ ((reduce env room u).run r).1 = .ok t) ∧
        Resolution.Level {} ((reduce env room u).run r).2 := fun hroom _ hr => h ▸ run_alone hg hroom u hr
  have stuck : ∀ {v}, isReducible env v = true → ∀ r, TooDeep ((reduce env 0 v).run r).1 := fun hv _ => by
    rw [reduce_zero hv]
    exact ⟨_, _, rfl⟩
  unfold outcome
  cases hl : env.limit with
  | zero => exact .inl (stuck rfl {})
  | succ room =>
    have step : ((reduce env (room + 1) (.access u (.keyOf u))).run {}).1 =
        ((reduce env room u >>= fun target => reduce env room (.keyOf u) >>= fun index =>
          ofExcept (Ty.indexed target index)).run (Resolution.enter {})).1 := by
      rw [reduce_succ rfl, run_nested]
      rfl
    rw [step]
    obtain ⟨deep | target, level⟩ := @value room (by omega) (Resolution.enter {}) ⟨rfl, rfl⟩
    · exact .inl deep.bind
    rw [run_bind_ok target]
    generalize ((reduce env room u).run (Resolution.enter {})).2 = r at level
    have keys : TooDeep ((reduce env room (.keyOf u)).run r).1 ∨ ((reduce env room (.keyOf u)).run r).1 = .ok t.keysOf := by
      cases room with
      | zero => exact .inl (stuck rfl r)
      | succ room =>
        have step : ((reduce env (room + 1) (.keyOf u)).run r).1 =
            ((reduce env room u >>= fun target => pure target.keysOf).run r.enter).1 := by
          rw [reduce_succ rfl, run_nested]
          rfl
        rw [step]
        obtain ⟨deep | target, -⟩ := @value room (by omega) r.enter ⟨level.stack, level.active⟩
        · exact .inl deep.bind
        · rw [run_bind_ok target]
          exact .inr rfl
    rcases keys with deep | keys
    · exact .inl deep.bind
    · rw [run_bind_ok keys]
      cases Ty.indexed t t.keysOf <;> exact .inr rfl

/-- The keys of a type can index it exactly if the numbers among them are positions of its tuples, and a type that comes to it
    is evaluated under its keys to what stands behind them. -/
theorem keys_index_type {t : Ty} (built : Built t) (signed : t.Signed) (concrete : t.isConcrete = true) (inhabited : t ≠ .never) :
    (t.Indexable t.keysOf ↔ t.Positioned) ∧ ∀ env u, env.guarded = true → outcome env u = .ok t →
      TooDeep (outcome env (.access u (.keyOf u))) ∨ outcome env (.access u (.keyOf u)) = Ty.indexed t t.keysOf :=
  ⟨Ty.indexable_keysOf built signed concrete inhabited, fun _ _ hg h => outcome_access_keyOf hg h⟩

/-- `0` is the key that the two members share, and a position of the first. -/
theorem keys_index_type_shared :
    let t := Ty.union [.tuple [.string], .object [⟨"0", .number, false, false⟩] none]
    Built t ∧ t.Signed ∧ t.isConcrete = true ∧ t ≠ .never ∧ t.Positioned ∧ t.Indexable t.keysOf := by
  intro t
  have atom : ∀ {p}, (Ty.prim p).Signed := ⟨fun _ _ he => Ty.noConfusion he, List.forall_mem_nil _⟩
  have built : Built t := by
    have tuple : Built (.tuple [.string]) := Ty.built_plain rfl (List.forall_mem_singleton.2 (Ty.built_atom rfl))
    have shape : Built (.object [⟨"0", .number, false, false⟩] none) :=
      Ty.built_object (List.pairwise_singleton _ _) (List.forall_mem_singleton.2 (Ty.built_atom rfl)) fun _ he => by cases he
    exact Ty.built_pair tuple shape rfl rfl rfl rfl (by decide)
  have signed : t.Signed := by
    have tuple : (Ty.tuple [.string]).Signed := ⟨fun _ _ he => Ty.noConfusion he, List.forall_mem_singleton.2 atom⟩
    have shape : (Ty.object [⟨"0", .number, false, false⟩] none).Signed :=
      ⟨fun _ _ he => (by cases he), List.forall_mem_singleton.2 atom⟩
    exact ⟨fun _ _ he => Ty.noConfusion he, List.forall_mem_cons.2 ⟨tuple, List.forall_mem_singleton.2 shape⟩⟩
  have positioned : t.Positioned := by
    intro members same text hk m hm ⟨elems, he⟩
    injection same with same
    subst same
    rw [Ty.keysOf_shared (by decide +kernel)] at hk
    cases List.mem_singleton.1 hk
    rcases List.mem_pair.1 hm with rfl | rfl
    · refine ⟨.tuple [.string], List.mem_singleton_self _, ?_, ?_⟩
      · have digits : isNumericKey "0" = true := by decide +kernel
        have listed : Ty.number ∈ Ty.positionKeys 0 [Ty.string] ++ [Ty.number, Ty.stringLit lengthKey] :=
          List.mem_append_right _ List.mem_cons_self
        exact (covers_keys (Ty.key_of_tuple _) (.digits digits)).2 ⟨Ty.number, listed, .base rfl⟩
      · rintro _ _ ⟨⟩ ⟨⟩
        exact ⟨0, rfl, Nat.one_pos⟩
    · cases List.mem_singleton.1 he
  have inhabited : t ≠ .never := Ty.noConfusion
  exact ⟨built, signed, rfl, inhabited, positioned, (keys_index_type built signed rfl inhabited).1.2 positioned⟩

/-- `5` is no position of the tuple. The tuple has it for a key, for `number` stands among its keys. -/
theorem keys_beyond_positions :
    let t := Ty.union [.tuple [.string], .object [⟨"5", .number, false, false⟩] none]
    t.keysOf = .literal .number "5" ∧ Ty.indexed t t.keysOf = Ty.noSuchIndex (.tuple [.string]) (.literal .number "5") := by
  intro t
  have keys : t.keysOf = .literal .number "5" := Ty.keysOf_shared (by decide +kernel)
  refine ⟨keys, ?_⟩
  rw [keys]
  cbv

end Evaluate
end TypeCalculus

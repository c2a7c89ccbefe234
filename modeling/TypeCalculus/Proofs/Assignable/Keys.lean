import Mathlib
import TypeCalculus.Proofs.Assignable.Meet
import TypeCalculus.Proofs.Ty.Members

/-! Property keys as types: literals of names and numbers, and the primitives that stand for all of them. Two keys exclude each
    other unless one falls under the other, so the intersection of unions of keys is a union of keys again, each of which
    falls under a key of every one of them (`meetsKeys_meetAt`). -/

namespace TypeCalculus
open Ty Assignable

namespace Ty

/-! ### Keys -/

/-- What unions of keys are made of. -/
inductive Key : Ty → Prop
  | name (text : String) : Key (stringLit text)
  | digits {text : String} : isNumericKey text = true → Key (literal .number text)
  | all {p : Prim} : p ∈ [.number, .string, .symbol] → Key (prim p)

/-- The first key is the second, or one of those that the second stands for. -/
inductive Under (k : Ty) : Ty → Prop
  | refl : Under k k
  | base {p : Prim} {text : String} : k = literal p text → Under k (prim p)

/-- A key falls under one of the keys of a union. -/
def Covers (keys k : Ty) : Prop := ∃ a ∈ keys.unionMembers, Under k a

/-- The type is a key, or a union of keys, or there are none. -/
inductive KeySet : Ty → Prop
  | none : KeySet never
  | one {k : Ty} : Key k → KeySet k
  | many {ms : List Ty} : (∀ m ∈ ms, Key m) → KeySet (union ms)

end Ty

section Key
variable {x y k : Ty}

theorem Ty.Key.firstOrder (h : Key k) : FirstOrder k := by
  cases h <;> exact .leaf rfl trivial rfl rfl

theorem Ty.Key.ne_never (h : Key k) : k ≠ never := by
  rintro rfl
  cases h

theorem Ty.Key.unionMembers (h : Key k) : k.unionMembers = [k] := by
  cases h <;> rfl

theorem Ty.Under.trans {a : Ty} (h : Under x y) (h' : Under y a) : Under x a := by
  cases h with
  | refl => exact h'
  | base hx =>
    cases h' with
    | refl => exact .base hx
    | base hy => cases hy

theorem Ty.Under.baseOf?_eq {p : Prim} (h : Under k (prim p)) : k.baseOf? = some p := by
  cases h with
  | refl => rfl
  | base hk => rw [hk]; rfl

/-- A key is assignable only to those that it falls under. -/
theorem Ty.Key.under_of_accepts (hx : Key x) (hy : Key y) (h : accepts x y = true) : Under x y := by
  have single : ∀ {z}, Key z → isUnion z = false := fun hz => by cases hz <;> rfl
  rcases (accepts_iff_conforms hx.firstOrder hy.firstOrder (single hx) (single hy)).1 h with (rfl | rfl | rfl | rfl) | h
  · cases hx
  · cases hy
  · cases hy
  · exact .refl
  · cases h with
    | literal => exact .base rfl
    | _ => cases hy

/-- Two keys that may stand side by side in an intersection are one. -/
theorem Ty.Key.eq_of_coexist (hx : Key x) (hy : Key y) (h : Coexist x y) : x = y := by
  obtain ⟨-, -, apart⟩ := h hx.firstOrder.concrete hy.firstOrder.concrete
  have base : ∀ {z}, Key z → ∃ p, z.baseOf? = some p := fun hz => by cases hz <;> exact ⟨_, rfl⟩
  obtain ⟨p, hp⟩ := base hx
  obtain ⟨q, hq⟩ := base hy
  simp only [isDisjoint, hp, hq, Bool.or_eq_false_iff, decide_eq_false_iff_not, not_not] at apart
  have whole : ∀ {z r}, Key z → z.baseOf? = some r → z.isLiteral = false → z = prim r := fun hz hr hl => by
    cases hz with
    | all => cases hr; rfl
    | _ => cases hl
  rw [whole hx hp apart.1.2, whole hy hq apart.2, apart.1.1]

/-! ### Unions of keys -/

variable {ts : List Ty}

theorem Ty.Key.covers_self (h : Key k) {a : Ty} : k.Covers a ↔ Under a k := by
  unfold Covers
  rw [h.unionMembers]
  exact ⟨fun ⟨_, hm, ha⟩ => List.mem_singleton.1 hm ▸ ha, fun ha => ⟨k, List.mem_singleton_self k, ha⟩⟩

theorem Ty.KeySet.present {t : Ty} (h : KeySet t) : t ≠ absent := by
  rintro rfl
  cases h with
  | one h => cases h

theorem Ty.KeySet.members {t : Ty} (h : KeySet t) : ∀ k ∈ t.unionMembers, k = never ∨ Key k := by
  intro k hk
  cases h with
  | none => exact .inl (List.mem_singleton.1 hk)
  | one h =>
    rw [h.unionMembers] at hk
    exact .inr (List.mem_singleton.1 hk ▸ h)
  | many h =>
    obtain ⟨m, hm, hk⟩ := mem_unionMembersAll hk
    rw [(h m hm).unionMembers] at hk
    exact .inr (List.mem_singleton.1 hk ▸ h m hm)

/-- The members of a union come from the types that it is made of. -/
theorem mem_unionOf {u : Ty} (h : u ∈ (unionOf ts).unionMembers) : u = never ∨ u ∈ unionMembersAll ts := by
  refine unionOf_forall (P := fun t => ∀ u ∈ t.unionMembers, u = never ∨ u ∈ unionMembersAll ts) ?_ ?_ ?_ ?_ u h
  · exact fun u hu => .inl (List.mem_singleton.1 hu)
  · exact fun h m hm u hu => h u (unionMembers_subset hm hu)
  · intro ms h u hu
    obtain ⟨m, hm, hu⟩ := mem_unionMembersAll hu
    exact h m hm u hu
  · exact fun t ht u hu => .inr (unionMembers_subset ht hu)

theorem keySet_unionOf (h : ∀ t ∈ ts, KeySet t) : KeySet (unionOf ts) := by
  have keys : ∀ u ∈ unionMembersAll ts, u = never ∨ Key u := by
    intro u hu
    obtain ⟨t, ht, hu⟩ := mem_unionMembersAll hu
    exact (h t ht).members u hu
  have kept : ∀ u ∈ keptMembers ts, Key u := by
    intro u hu
    refine (keys u (mem_of_keptMembers hu)).resolve_left ?_
    rintro rfl
    exact not_redundant_of_kept hu rfl
  rcases unionOf_cases ts with ⟨hm, -⟩ | ⟨hm, -⟩ | ⟨-, -, ⟨-, he⟩ | ⟨t, ht, he⟩ | he⟩
  · rcases keys _ hm with hc | hc <;> cases hc
  · rcases keys _ hm with hc | hc <;> cases hc
  · rw [he]
    exact .none
  · rw [he]
    exact .one (kept t (ht ▸ List.mem_singleton_self t))
  · rw [he]
    exact .many fun m hm => kept m (mem_sortByText.1 hm)

/-- A key falls under a union of keys if it falls under one of them. -/
theorem covers_unionOf (h : ∀ t ∈ ts, KeySet t) (hk : Key k) : (unionOf ts).Covers k ↔ ∃ t ∈ ts, t.Covers k := by
  constructor
  · rintro ⟨a, ha, hka⟩
    rcases mem_unionOf ha with rfl | ha
    · cases hka
      exact absurd rfl hk.ne_never
    · obtain ⟨t, ht, ha⟩ := mem_unionMembersAll ha
      exact ⟨t, ht, a, ha, hka⟩
  · rintro ⟨t, ht, a, ha, hka⟩
    have member := unionMembers_subset ht ha
    have key : Key a := by
      refine ((h t ht).members a ha).resolve_left ?_
      rintro rfl
      cases hka
      exact hk.ne_never rfl
    have single : ∀ {v : Ty}, v ∈ unionMembersAll ts → v.unionMembers = [v] := fun {v} hv => by
      obtain ⟨u, -, hv⟩ := mem_unionMembersAll hv
      refine unionMembers_self ?_ ?_
      · intro ms he
        exact union_not_mem_unionMembers u (he ▸ hv)
      · rintro rfl
        exact absent_not_mem_unionMembers u hv
    have keys := keySet_unionOf h
    rcases unionOf_covers member with he | he | rfl | ⟨v, hv, left, covered⟩
    · have := keys.members any (by rw [he]; exact List.mem_singleton_self _)
      rcases this with hc | hc <;> cases hc
    · have := keys.members unknown (by rw [he]; exact List.mem_singleton_self _)
      rcases this with hc | hc <;> cases hc
    · cases key
    · have mem : v ∈ (unionOf ts).unionMembers := by
        rcases left with he | ⟨ms, he, hm⟩
        · rw [he, single hv]
          exact List.mem_singleton_self v
        · rw [he]
          refine unionMembers_subset hm ?_
          rw [single hv]
          exact List.mem_singleton_self v
      refine ⟨v, mem, hka.trans ?_⟩
      rcases covered with hi | ⟨base, text, hl, rfl⟩
      · cases eq_of_identical_concrete key.firstOrder.concrete (identical_symm hi)
        exact .refl
      · exact .base hl

/-! ### Intersections of keys -/

/-- Every key that is left out falls under one that is left. -/
theorem exists_under_prune {kept : List Ty} (keys : ∀ x ∈ ts, Key x) (h : prune ts = some kept) {y : Ty} (hy : y ∈ ts) :
    ∃ k ∈ kept, Under k y := by
  induction ts using prune.induct generalizing kept y with
  | case1 => cases hy
  | case2 x xs hp =>
    rw [prune] at h
    split at h
    · cases h
    · rename_i hp'
      rw [hp] at hp'
      cases hp'
  | case3 x xs stays rest hp ih =>
    rw [prune] at h
    split at h
    · cases h
    rename_i hp'
    rw [hp] at hp'
    cases hp'
    obtain ⟨left, hleft, rfl⟩ := Option.map_eq_some_iff.1 h
    obtain ⟨stayed, gone⟩ := pruneAgainst_spec hp
    have sub : ∀ {z}, z ∈ rest → z ∈ xs := fun hz => (pruneAgainst_sublist hp).subset hz
    have key := List.forall_mem_cons.1 keys
    have later : ∀ {z}, z ∈ rest → ∃ k ∈ (if stays = true then x :: left else left), Under k z := by
      intro z hz
      obtain ⟨k, hk, hu⟩ := ih (fun u hu => key.2 u (sub hu)) hleft hz
      refine ⟨k, ?_, hu⟩
      split
      · exact List.mem_cons_of_mem _ hk
      · exact hk
    have head : ∃ k ∈ (if stays = true then x :: left else left), Under k x := by
      cases stays with
      | true => exact ⟨x, List.mem_cons_self, .refl⟩
      | false =>
        obtain ⟨z, hz, hi⟩ := gone rfl
        obtain ⟨k, hk, hkz⟩ := later hz
        exact ⟨k, hk, hkz.trans ((key.2 z (sub hz)).under_of_accepts key.1 hi.accepts)⟩
    rcases List.mem_cons.1 hy with rfl | hy
    · exact head
    · rcases stayed y hy with hr | hi
      · exact later hr
      · obtain ⟨k, hk, hkx⟩ := head
        exact ⟨k, hk, hkx.trans (key.1.under_of_accepts (key.2 y hy) hi.accepts)⟩

/-- The intersection of single keys is a key that falls under each of them, if it is not `never`. -/
theorem closeMeet_keys (keys : ∀ x ∈ ts, Key x) (hne : ts ≠ []) :
    closeMeet ts = never ∨ Key (closeMeet ts) ∧ ∀ y ∈ ts, Under (closeMeet ts) y := by
  have sub : ∀ {u}, u ∈ distinct [] ts → u ∈ ts := fun hu => (distinct_sublist [] ts).subset hu
  have under : ∀ {kept}, prune (distinct [] ts) = some kept → ∀ y ∈ ts, ∃ k ∈ kept, Under k y := by
    intro kept hp y hy
    obtain ⟨u, hu | hu, hi⟩ := @identical_mem_distinct [] _ _ hy
    · cases hu
    cases eq_of_identical_concrete (keys u (sub hu)).firstOrder.concrete hi
    exact exists_under_prune (fun x hx => keys x (sub hx)) hp hu
  have key : ∀ {kept}, prune (distinct [] ts) = some kept → ∀ k ∈ kept, Key k := fun hp k hk =>
    keys k (sub ((prune_sublist hp).subset hk))
  obtain ⟨y, hy⟩ := List.exists_mem_of_ne_nil ts hne
  unfold closeMeet
  split
  · exact .inl rfl
  · rename_i hp
    obtain ⟨k, hk, -⟩ := under hp y hy
    cases hk
  · rename_i t hp
    refine .inr ⟨key hp t (List.mem_singleton_self t), fun y hy => ?_⟩
    obtain ⟨k, hk, hu⟩ := under hp y hy
    exact List.mem_singleton.1 hk ▸ hu
  · rename_i kept h₀ h₁ hp
    obtain ⟨a, b, rest, rfl⟩ : ∃ a b rest, kept = a :: b :: rest := by
      rcases kept with _ | ⟨a, _ | ⟨b, rest⟩⟩
      · exact absurd rfl h₀
      · exact absurd rfl (h₁ a)
      · exact ⟨a, b, rest, rfl⟩
    have single : a = b := (key hp a List.mem_cons_self).eq_of_coexist (key hp b (List.mem_cons_of_mem _ List.mem_cons_self))
      ((List.pairwise_cons.1 (coexist_prune hp)).1 b List.mem_cons_self)
    have apart := (distinct_pairwise [] ts).sublist (prune_sublist hp)
    have := (List.pairwise_cons.1 apart).1 b List.mem_cons_self
    rw [single, identical_refl] at this
    cases this

theorem gatherShapes_none (meet : List Ty → Ty) (h : ∀ t ∈ ts, t.isShape = false) : gatherShapes meet none ts = ts := by
  induction ts with
  | nil => rfl
  | cons t ts ih =>
    have rest := List.forall_mem_cons.1 h
    rw [gatherShapes, ih rest.2]
    rintro props index rfl
    cases rest.1

theorem knownMembers_keys (h : ∀ t ∈ ts, KeySet t) : knownMembers ts = ts := by
  have single : ∀ t ∈ ts, t.meetMembers = [t] ∧ t.isUnknown = false := by
    intro t ht
    have keys := h t ht
    refine ⟨meetMembers_self keys.present ?_, ?_⟩
    · rintro ms rfl
      rcases keys.members _ (List.mem_singleton_self _) with hc | hc <;> cases hc
    · cases t with
      | unknown => rcases keys.members _ (List.mem_singleton_self _) with hc | hc <;> cases hc
      | _ => rfl
  unfold knownMembers
  induction ts with
  | nil => rfl
  | cons t ts ih =>
    obtain ⟨hm, hu⟩ := single t List.mem_cons_self
    rw [meetMembersAll, hm, List.filter_append, ih (fun t ht => h t (List.mem_cons_of_mem _ ht))
      fun t ht => single t (List.mem_cons_of_mem _ ht)]
    rw [List.filter_cons_of_pos (by rw [hu]; rfl)]
    rfl

/-- The type is a union of keys, each of which falls under a key of every one of the types. -/
def MeetsKeys (ts : List Ty) (u : Ty) : Prop := KeySet u ∧ ∀ k ∈ u.unionMembers, k = never ∨ ∀ t ∈ ts, t.Covers k

theorem meetsKeys_never (ts : List Ty) : MeetsKeys ts never := ⟨.none, fun _ hk => .inl (List.mem_singleton.1 hk)⟩

/-- Without unions among them, sets of keys are single keys, and so they are compared with each other. -/
theorem meetsKeys_closeMeet {meet : List Ty → Ty} (h : ∀ t ∈ ts, KeySet t) (hne : ts ≠ [])
    (hnever : ¬(knownMembers ts).any isNever = true) (hu : splitAtUnion (knownMembers ts) = none) :
    MeetsKeys ts (closeMeet (gatherShapes meet none (knownMembers ts))) := by
  rw [knownMembers_keys h] at hnever hu ⊢
  have key : ∀ t ∈ ts, Key t := by
    intro t ht
    have keys := h t ht
    have single : t.unionMembers = [t] := unionMembers_self (fun ms he => splitAtUnion_eq_none hu ms (he ▸ ht)) keys.present
    refine (keys.members t (by rw [single]; exact List.mem_singleton_self t)).resolve_left ?_
    rintro rfl
    exact hnever (List.any_eq_true.2 ⟨never, ht, rfl⟩)
  have shapeless : ∀ t ∈ ts, t.isShape = false := fun t ht => by cases key t ht <;> rfl
  rw [gatherShapes_none _ shapeless]
  rcases closeMeet_keys key hne with he | ⟨hkey, under⟩
  · rw [he]
    exact meetsKeys_never ts
  · refine ⟨.one hkey, fun k hk => .inr fun t ht => ?_⟩
    rw [hkey.unionMembers] at hk
    cases List.mem_singleton.1 hk
    exact (key t ht).covers_self.2 (under t ht)

/-- A union among the types is met member by member. -/
theorem meetsKeys_distribute {before members after : List Ty} {meet : List Ty → Ty}
    (each : ∀ m ∈ members, MeetsKeys (before ++ m :: after) (meet (before ++ m :: after))) :
    MeetsKeys (before ++ union members :: after) (unionOf (members.map fun m => meet (before ++ m :: after))) := by
  refine ⟨keySet_unionOf fun r hr => ?_, fun k hk => ?_⟩
  · obtain ⟨m, hm, rfl⟩ := List.mem_map.1 hr
    exact (each m hm).1
  rcases mem_unionOf hk with rfl | hk
  · exact .inl rfl
  obtain ⟨r, hr, hk⟩ := mem_unionMembersAll hk
  obtain ⟨m, hm, rfl⟩ := List.mem_map.1 hr
  refine ((each m hm).2 k hk).imp_right fun covers t ht => ?_
  rcases List.mem_append.1 ht with ht | ht
  · exact covers t (List.mem_append_left _ ht)
  · rcases List.mem_cons.1 ht with rfl | ht
    · obtain ⟨a, ha, hka⟩ := covers m (by simp)
      exact ⟨a, unionMembers_subset hm ha, hka⟩
    · exact covers t (List.mem_append_right _ (List.mem_cons_of_mem _ ht))

/-- The intersection of unions of keys is a union of keys that fall under a key of each of them. -/
theorem meetsKeys_meetAt {level : Nat} (h : ∀ t ∈ ts, KeySet t) (hne : ts ≠ []) : MeetsKeys ts (meetAt level ts) := by
  induction level, ts using meetAt.induct with
  | case1 level ts hnever =>
    rw [meetAt.eq_def, if_pos hnever]
    exact meetsKeys_never ts
  | case2 level ts hnever hany =>
    obtain ⟨u, hu, ha⟩ := List.any_eq_true.1 hany
    rw [knownMembers_keys h] at hu
    cases u with
    | any => rcases (h any hu).members _ (List.mem_singleton_self _) with hc | hc <;> cases hc
    | _ => cases ha
  | case3 level ts hnever hany before members after hu ih =>
    rw [meetAt_union hnever hany hu]
    rw [knownMembers_keys h] at hu
    obtain rfl := splitAtUnion_eq_some hu
    have keys : KeySet (union members) := h _ (by simp)
    have others : ∀ m ∈ members, ∀ t ∈ before ++ m :: after, KeySet t := by
      intro m hm t ht
      rcases List.mem_append.1 ht with ht | ht
      · exact h t (List.mem_append_left _ ht)
      · rcases List.mem_cons.1 ht with rfl | ht
        · cases keys with
          | one hc => cases hc
          | many keys => exact .one (keys t hm)
        · exact h t (List.mem_append_right _ (List.mem_cons_of_mem _ ht))
    exact meetsKeys_distribute fun m hm => ih m hm (others m hm) (by simp)
  | case4 ts hnever hany hu =>
    rw [meetAt_zero hnever hany hu]
    exact meetsKeys_closeMeet h hne hnever hu
  | case5 ts hnever hany hu level ih =>
    rw [meetAt_succ hnever hany hu]
    exact meetsKeys_closeMeet h hne hnever hu

theorem covers_keys (h : ∀ t ∈ ts, Key t) (hk : Key k) : (unionOf ts).Covers k ↔ ∃ t ∈ ts, Under k t := by
  rw [covers_unionOf (fun t ht => .one (h t ht)) hk]
  constructor
  · rintro ⟨t, ht, hc⟩
    exact ⟨t, ht, (h t ht).covers_self.1 hc⟩
  · rintro ⟨t, ht, hu⟩
    exact ⟨t, ht, (h t ht).covers_self.2 hu⟩

end Key

end TypeCalculus

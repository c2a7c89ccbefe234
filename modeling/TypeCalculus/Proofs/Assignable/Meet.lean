import Mathlib
import TypeCalculus.Proofs.Assignable.Narrows
import TypeCalculus.Proofs.Ty.FiniteMap

/-! The intersection of types is a lower bound of them under assignability (`meet_is_lower_bound`): taking unions,
    intersections and shapes apart, merging shapes and leaving wider members out loses nothing that a member asks for. What
    is left narrows every operand, and pieces that are left out pass this on to a narrower one (`Narrows.of_implies`). -/

namespace TypeCalculus
open Ty Assignable

theorem isPiece_of_identical {t u : Ty} (h : t.identical u = true) : t.isPiece = u.isPiece :=
  congr_of_identical (fun t => by cases t <;> rfl) h

theorem isShape_of_identical {t u : Ty} (h : t.identical u = true) : t.isShape = u.isShape :=
  congr_of_identical (fun t => by cases t <;> rfl) h

namespace Narrows
variable {optional : Bool} {r s t u k x y : Ty}

/-! ### The rules of the relation turned round -/

theorem refl (h : MeetTarget optional t) : Narrows t t := by
  induction t using children_induction with
  | step t ih =>
    rcases union_or_object_or_other t with ⟨ms, rfl⟩ | ⟨props, index, rfl⟩ | ⟨hu, ho⟩
    · have form : UnionForm ms := h.built.normal.form
      refine .alternatives fun m hm => .member ?_ hm (ih m hm (h.part hm))
      rintro ns rfl
      cases form.single _ hm
    · obtain ⟨rfl, ascending⟩ := h.operand.node.shape props index rfl
      have found : ∀ want ∈ props, Shape.find? props want.key = some want := fun want hw => Shape.find?_of_mem ascending hw
      refine .shape (fun want hw => ⟨want, found want hw, id, id⟩) fun want hw got hg => ?_
      cases (found want hw).symm.trans hg
      have part := List.mem_map_of_mem (f := (·.type)) hw
      exact ih want.type (List.mem_append_left _ part) (h.part part)
    · cases t with
      | union ms => exact absurd rfl (hu ms)
      | object props index => exact absurd rfl (ho props index)
      | intersection ms => exact absurd rfl (h.unmet.node ms)
      | any => exact absurd rfl h.nodes.node.notAny
      | never => exact .never
      | unknown => exact .unknown
      | _ => exact .same rfl (identical_refl _)

theorem of_union {rs : List Ty} (h : Narrows (union rs) t) : ∀ r ∈ rs, Narrows r t := by
  cases h with
  | unknown => exact fun _ _ => .unknown
  | same hp => cases hp
  | implied hp => cases hp
  | member hn => exact absurd rfl (hn rs)
  | alternatives h => exact h

protected theorem unionOf {rs : List Ty} (h : ∀ r ∈ rs, Narrows r t) : Narrows (unionOf rs) t :=
  unionOf_forall .never of_union .alternatives h

/-- An intersection is narrower because of one of its members. -/
theorem exists_part {ks : List Ty} (hks : ks ≠ [] ∧ ∀ k ∈ ks, k.isMeetMember = true) (h : Narrows (intersection ks) t) :
    ∃ k ∈ ks, Narrows k t := by
  generalize hr : intersection ks = r at h
  induction h with
  | never => cases hr
  | unknown =>
    obtain ⟨k, hk⟩ := List.exists_mem_of_ne_nil ks hks.1
    exact ⟨k, hk, .unknown⟩
  | same hp | implied hp =>
    subst hr
    cases hp
  | shape => cases hr
  | part _ hk h =>
    cases hr
    exact ⟨_, hk, h⟩
  | member _ hm _ ih =>
    obtain ⟨k, hk, h⟩ := ih hr
    refine ⟨k, hk, .member ?_ hm h⟩
    rintro rs rfl
    cases hks.2 _ hk
  | alternatives => cases hr

/-- An intersection is as narrow as each of its members. -/
theorem of_part {ks : List Ty} (hk : k ∈ ks) (hm : k.isMeetMember = true) (h : Narrows k t) : Narrows (intersection ks) t := by
  induction h with
  | never => cases hm
  | unknown => exact .unknown
  | @same k t hp hi =>
    refine .part ?_ hk (.same hp hi)
    rintro ms rfl
    rw [isPiece_of_identical hi] at hp
    cases hp
  | implied hp hf hu h => exact .part hu hk (.implied hp hf hu h)
  | shape has h => exact .part nofun hk (.shape has h)
  | part => cases hm
  | member _ hmem _ ih => exact .member nofun hmem (ih hk hm)
  | alternatives => cases hm

/-! ### Members that are left out -/

/-- A piece narrows what an identical one narrows. -/
theorem of_identical (hp : u.isPiece = true) (hi : u.identical y = true) (h : Narrows y t) : Narrows u t := by
  have piece : y.isPiece = true := isPiece_of_identical hi ▸ hp
  induction h with
  | never | shape | part | alternatives => cases piece
  | unknown => exact .unknown
  | same _ hi' => exact .same hp (identical_trans hi hi')
  | @implied y t _ hy hu h =>
    cases eq_of_identical_concrete hy.concrete (identical_symm hi)
    exact .implied hp hy hu h
  | member _ hm _ ih =>
    refine .member ?_ hm (ih hi piece)
    rintro ms rfl
    cases hp

/-- A piece that is assignable to another one narrows what that one narrows. -/
theorem of_piece (hp : k.isPiece = true) (hk : FirstOrder k) (hpy : y.isPiece = true) (hy : FirstOrder y)
    (hky : Assignable.accepts k y = true) (ht : MeetTarget optional t) (h : Narrows y t) : Narrows k t := by
  induction h with
  | never | shape | part | alternatives => cases hpy
  | unknown => exact .unknown
  | @same y t _ hi =>
    cases eq_of_identical_concrete hy.concrete hi
    refine .implied hp hk ?_ ?_
    · rintro ms rfl
      cases hpy
    · rwa [core_piece hpy hy.concrete]
  | implied _ _ hu h => exact .implied hp hk hu (accepts_trans hk hy ht.firstOrder_core hky h)
  | member _ hm _ ih =>
    refine .member ?_ hm (ih hpy hy hky (ht.part hm))
    rintro ms rfl
    cases hp

/-- A piece that is assignable to a shape narrows what the shape narrows. -/
theorem of_shape {ps : List (Property Ty)} (hp : k.isPiece = true) (hk : FirstOrder k) (hs : MeetOperand optional (object ps none))
    (hc : (object ps none).isConcrete = true) (hks : Assignable.accepts k (object ps none) = true) (ht : MeetTarget optional t)
    (h : Narrows (object ps none) t) : Narrows k t := by
  have lone : ∀ ms, k ≠ union ms := by
    rintro ms rfl
    cases hp
  generalize he : object ps none = s at h
  induction h with
  | never | part | alternatives => cases he
  | unknown => exact .unknown
  | same hps | implied hps =>
    subst he
    cases hps
  | shape has hn =>
    rw [he] at hs hc hks
    exact .implied hp hk nofun ((Narrows.shape has hn).core hs ht hc hk hks)
  | member _ hm _ ih => exact .member lone hm (ih (ht.part hm) he)

end Narrows

/-! ### Pruning -/

section Pruning
variable {optional : Bool} {x y k t : Ty} {ts kept : List Ty}

/-- Both types can be compared, and the first is assignable to the second. -/
structure Implies (x y : Ty) : Prop where
  left : x.isConcrete = true
  right : y.isConcrete = true
  accepts : accepts x y = true

theorem eq_object_of_isShape (h : t.isShape = true) : ∃ props index, t = object props index := by
  cases t <;> first | exact ⟨_, _, rfl⟩ | cases h

/-- A shape is assignable to no piece that it can be compared with. -/
theorem not_accepts_shape {props : List (Property Ty)} {index : Option (IndexSignature Ty)} (hp : y.isPiece = true)
    (hy : FirstOrder y) : ¬accepts (object props index) y = true := by
  intro h
  rcases accepts_cases rfl hy.present h with he | rfl | rfl | he | hr
  · cases he
  · cases hp
  · cases hp
  · cases eq_of_identical_concrete hy.concrete (identical_symm he)
    cases hp
  · rcases @permits_known _ (object props index) y ⟨nofun, nofun⟩ rfl nofun hr with ⟨_, rfl, -⟩ | ⟨_, rfl, -⟩ | ⟨_, _, rfl, -⟩ | hm
    · cases hp
    · cases hp
    · cases hy.node
    · cases hm with
      | object => cases hp

/-- A member that goes leaves a narrower one behind, unless both are shapes. -/
theorem Narrows.of_implies (hk : MeetOperand optional k) (hmk : k.isMeetMember = true) (hy : MeetOperand optional y) (hmy : y.isMeetMember = true)
    (shapes : k.isShape = false ∨ y.isShape = false) (hi : Implies k y) (ht : MeetTarget optional t) (h : Narrows y t) :
    Narrows k t := by
  have piece : ∀ {z : Ty}, z.isMeetMember = true → z.isShape = false → z.isPiece = true := fun hm hs => by
    rw [isPiece, hm, hs]
    rfl
  have first : ∀ {z}, MeetOperand optional z → z.isPiece = true → z.isConcrete = true → FirstOrder z := fun hz hp hc =>
    (hz.node.comparable hp hc).1
  cases hks : k.isShape with
  | false =>
    have hpk := piece hmk hks
    cases hys : y.isShape with
    | false =>
      have hpy := piece hmy hys
      exact .of_piece hpk (first hk hpk hi.left) hpy (first hy hpy hi.right) hi.accepts ht h
    | true =>
      obtain ⟨ps, index, rfl⟩ := eq_object_of_isShape hys
      obtain ⟨rfl, -⟩ := hy.node.shape ps index rfl
      exact .of_shape hpk (first hk hpk hi.left) hy hi.right hi.accepts ht h
  | true =>
    have hys := shapes.resolve_left (by rw [hks]; nofun)
    have hpy := piece hmy hys
    obtain ⟨ps, index, rfl⟩ := eq_object_of_isShape hks
    exact absurd hi.accepts (not_accepts_shape hpy (first hy hpy hi.right))

theorem pruneAgainst_spec {stays : Bool} (h : pruneAgainst x ts = some (stays, kept)) :
    (∀ y ∈ ts, y ∈ kept ∨ Implies x y) ∧ (stays = false → ∃ y ∈ kept, Implies y x) := by
  have implies : ∀ {x y : Ty}, (!x.isConcrete || !y.isConcrete) = false → assignable x y = true → Implies x y := by
    intro x y hc ha
    simp only [Bool.or_eq_false_iff, Bool.not_eq_false'] at hc
    exact ⟨hc.1, hc.2, accepts_of_relate rfl ha⟩
  induction ts generalizing kept stays with
  | nil =>
    cases h
    exact ⟨nofun, nofun⟩
  | cons y ys ih =>
    have keep : (pruneAgainst x ys).map (fun r => (r.1, y :: r.2)) = some (stays, kept) →
        (∀ z ∈ y :: ys, z ∈ kept ∨ Implies x z) ∧ (stays = false → ∃ z ∈ kept, Implies z x) := by
      intro h
      obtain ⟨⟨s, rest⟩, hr, e⟩ := Option.map_eq_some_iff.1 h
      cases e
      obtain ⟨left, gone⟩ := ih hr
      refine ⟨List.forall_mem_cons.2 ⟨.inl List.mem_cons_self, fun z hz => ?_⟩, fun hs => ?_⟩
      · exact (left z hz).imp_left (List.mem_cons_of_mem _)
      · obtain ⟨z, hz, hi⟩ := gone hs
        exact ⟨z, List.mem_cons_of_mem _ hz, hi⟩
    rw [pruneAgainst] at h
    split at h
    · exact keep h
    · rename_i hc
      have hc := Bool.eq_false_iff.2 hc
      split at h
      · rename_i ha
        obtain ⟨left, gone⟩ := ih h
        exact ⟨List.forall_mem_cons.2 ⟨.inr (implies hc ha), left⟩, gone⟩
      · split at h
        · rename_i ha
          cases h
          exact ⟨fun z hz => .inl hz, fun _ => ⟨y, List.mem_cons_self, implies (by rwa [Bool.or_comm]) ha⟩⟩
        · split at h
          · cases h
          · exact keep h

/-- What a member narrows, a member that is left narrows. -/
theorem narrows_prune (ordered : ts.Pairwise fun a _ => a.isShape = false) (operands : ∀ u ∈ ts, MeetOperand optional u)
    (members : ∀ u ∈ ts, u.isMeetMember = true) (h : prune ts = some kept) (ht : MeetTarget optional t) (hy : y ∈ ts) (hn : Narrows y t) :
    ∃ k ∈ kept, Narrows k t := by
  induction ts using prune.induct generalizing kept y with
  | case1 => cases hy
  | case2 x xs hp =>
    rw [prune] at h
    split at h
    · cases h
    · rename_i hp'
      rw [hp] at hp'
      cases hp'
  | case3 x xs stays rest hp ih =>
    rw [prune] at h
    split at h
    · cases h
    rename_i hp'
    rw [hp] at hp'
    cases hp'
    obtain ⟨left, hleft, rfl⟩ := Option.map_eq_some_iff.1 h
    obtain ⟨stayed, gone⟩ := pruneAgainst_spec hp
    have sub : ∀ {z}, z ∈ rest → z ∈ xs := fun hz => (pruneAgainst_sublist hp).subset hz
    obtain ⟨hx, hxs⟩ := List.pairwise_cons.1 ordered
    have ordered' := hxs.sublist (pruneAgainst_sublist hp)
    have operand := List.forall_mem_cons.1 operands
    have member := List.forall_mem_cons.1 members
    have later : ∀ {z}, z ∈ rest → Narrows z t → ∃ k ∈ (if stays = true then x :: left else left), Narrows k t := by
      intro z hz hn
      obtain ⟨k, hk, h⟩ := ih ordered' (fun u hu => operand.2 u (sub hu)) (fun u hu => member.2 u (sub hu)) hleft hz hn
      refine ⟨k, ?_, h⟩
      split
      · exact List.mem_cons_of_mem _ hk
      · exact hk
    have head : Narrows x t → ∃ k ∈ (if stays = true then x :: left else left), Narrows k t := by
      intro hn
      cases stays with
      | true => exact ⟨x, List.mem_cons_self, hn⟩
      | false =>
        obtain ⟨z, hz, hi⟩ := gone rfl
        have mem := sub hz
        exact later hz (.of_implies (operand.2 z mem) (member.2 z mem) operand.1 member.1 (.inr (hx z mem)) hi ht hn)
    rcases List.mem_cons.1 hy with rfl | hy
    · exact head hn
    · rcases stayed y hy with hr | hi
      · exact later hr hn
      · exact head (.of_implies operand.1 member.1 (operand.2 y hy) (member.2 y hy) (.inl (hx y hy)) hi ht hn)

end Pruning

/-! ### Merging shapes -/

section Merging
variable {optional : Bool} {meet : List Ty → Ty} {a b : Shape} {key : String} {p q : Property Ty} {t : Ty}

/-- A shape narrows what another one narrows if it narrows its properties. -/
theorem Narrows.of_props (hi : b.index = none)
    (kept : ∀ key p, Shape.find? a.props key = some p → ∃ q, Shape.find? b.props key = some q ∧
      (q.optional = true → p.optional = true) ∧ (q.readonly = true → p.readonly = true) ∧
      ∀ t, MeetTarget optional t → Narrows p.type t → Narrows q.type t)
    (ht : MeetTarget optional t) (h : Narrows a.toTy t) : Narrows b.toTy t := by
  obtain ⟨props, index⟩ := b
  cases hi
  generalize hr : a.toTy = r at h
  induction h with
  | never | part | alternatives => cases hr
  | unknown => exact .unknown
  | same hp | implied hp =>
    subst hr
    cases hp
  | @shape ps qs has hn =>
    obtain ⟨_, _⟩ := a
    cases hr
    refine .shape (fun want hw => ?_) fun want hw got hg => ?_
    · obtain ⟨p, hp, ho, hro⟩ := has want hw
      obtain ⟨q, hq, ho', hro', -⟩ := kept _ p hp
      exact ⟨q, hq, ho ∘ ho', hro ∘ hro'⟩
    · obtain ⟨p, hp, -⟩ := has want hw
      obtain ⟨q, hq, -, -, hpq⟩ := kept _ p hp
      cases hq.symm.trans hg
      exact hpq _ (ht.part (List.mem_map_of_mem hw)) (hn want hw p hp)
  | member _ hm _ ih => exact .member nofun hm (ih (ht.part hm) hr)

theorem operand_meeting : Meeting (MeetOperand optional) where
  never := ⟨⟨rfl, nofun, nofun, nofun, nofun⟩, nofun⟩
  emptyObject := by
    refine ⟨⟨rfl, nofun, nofun, ?_, nofun⟩, nofun⟩
    rintro props index ⟨⟩
    exact ⟨rfl, .nil⟩
  unionMember h hm := h.under hm
  unionOf h := unionOf_forall ⟨⟨rfl, nofun, nofun, nofun, nofun⟩, nofun⟩ (fun h _ hm => h.under hm)
    (fun h => ⟨⟨rfl, nofun, nofun, nofun, nofun⟩, h⟩) h
  meetMember h hm := h.under hm
  meet h _ two members := by
    refine ⟨⟨rfl, nofun, ?_, nofun, nofun⟩, h⟩
    rintro ms ⟨⟩
    exact ⟨List.ne_nil_of_length_pos (Nat.lt_of_lt_of_le Nat.two_pos two), members⟩
  merge {meet a b} hmeet ha hb := by
    have hia := (ha.node.shape _ _ rfl).1
    have hib := (hb.node.shape _ _ rfl).1
    refine ⟨⟨rfl, nofun, nofun, ?_, nofun⟩, fun u hu => ?_⟩
    · rintro _ _ ⟨⟩
      refine ⟨?_, Shape.ascending_ofProps _ _⟩
      simp only [mergeShapes, Shape.ofProps, hia, hib]
    · obtain ⟨p, hp, rfl⟩ := List.mem_map.1 hu
      rcases List.mem_append.1 (Shape.mem_ofProps hp) with hp | hp
      · obtain ⟨q, hq, rfl⟩ := List.mem_map.1 hp
        have operand : MeetOperand optional q.type := ha.under (List.mem_map_of_mem hq)
        split
        · rename_i r hr
          exact hmeet _ _ operand (hb.under (List.mem_map_of_mem (Shape.mem_of_find? hr)))
        · exact operand
      · exact hb.under (List.mem_map_of_mem (List.mem_filter.1 hp).1)

/-- Two shapes merged narrow what one of them narrows. -/
theorem narrows_mergeShapes (hmeet : ∀ x y, MeetOperand optional x → MeetOperand optional y → MeetOperand optional (meet [x, y]))
    (lower : ∀ x y t, MeetOperand optional x → MeetOperand optional y → MeetTarget optional t → Narrows x t ∨ Narrows y t → Narrows (meet [x, y]) t)
    (ha : MeetOperand optional a.toTy) (hb : MeetOperand optional b.toTy) (ht : MeetTarget optional t) (h : Narrows a.toTy t ∨ Narrows b.toTy t) :
    Narrows (mergeShapes meet a b).toTy t := by
  have ascendingA := (ha.node.shape _ _ rfl).2
  have ascendingB := (hb.node.shape _ _ rfl).2
  have index : (mergeShapes meet a b).index = none := ((operand_meeting.merge hmeet ha hb).node.shape _ _ rfl).1
  have found := find?_mergeShapes meet ascendingA ascendingB
  have part : ∀ {s : Shape} {key p}, MeetOperand optional s.toTy → Shape.find? s.props key = some p → MeetOperand optional p.type :=
    fun hs hp => hs.under (List.mem_map_of_mem (Shape.mem_of_find? hp))
  have both : ∀ {v w : Bool}, (v && w) = true → v = true ∧ w = true := (Bool.and_eq_true _ _).mp
  rcases h with h | h
  · refine .of_props index (fun key p hp => ?_) ht h
    have merged := found key
    rw [hp] at merged
    cases hq : Shape.find? b.props key with
    | none =>
      rw [hq] at merged
      exact ⟨p, merged, id, id, fun _ _ => id⟩
    | some q =>
      rw [hq] at merged
      exact ⟨_, merged, fun h => (both h).1, fun h => (both h).1, fun t ht hn => lower _ _ t (part ha hp) (part hb hq) ht (.inl hn)⟩
  · refine .of_props index (fun key q hq => ?_) ht h
    have merged := found key
    rw [hq] at merged
    cases hp : Shape.find? a.props key with
    | none =>
      rw [hp] at merged
      exact ⟨q, merged, id, id, fun _ _ => id⟩
    | some p =>
      rw [hp] at merged
      exact ⟨_, merged, fun h => (both h).2, fun h => (both h).2, fun t ht hn => lower _ _ t (part ha hp) (part hb hq) ht (.inr hn)⟩

/-- Merging shapes keeps what one of the types narrows. -/
theorem narrows_gatherShapes (hmeet : ∀ x y, MeetOperand optional x → MeetOperand optional y → MeetOperand optional (meet [x, y]))
    (lower : ∀ x y t, MeetOperand optional x → MeetOperand optional y → MeetTarget optional t → Narrows x t ∨ Narrows y t → Narrows (meet [x, y]) t)
    {merged : Option Shape} {ts : List Ty} (hmerged : ∀ s, merged = some s → MeetOperand optional s.toTy)
    (hts : ∀ u ∈ ts, MeetOperand optional u) (ht : MeetTarget optional t)
    (h : (∃ s, merged = some s ∧ Narrows s.toTy t) ∨ ∃ y ∈ ts, Narrows y t) : ∃ u ∈ gatherShapes meet merged ts, Narrows u t := by
  induction merged, ts using gatherShapes.induct meet with
  | case1 merged =>
    rw [gatherShapes]
    rcases h with ⟨s, rfl, hn⟩ | ⟨y, hy, -⟩
    · exact ⟨s.toTy, List.mem_singleton_self _, hn⟩
    · cases hy
  | case2 merged props index ts next ih =>
    have operand := List.forall_mem_cons.1 hts
    have step : gatherShapes meet merged (object props index :: ts) = gatherShapes meet (some next) ts := rfl
    rw [step]
    refine ih ?_ operand.2 ?_
    · rintro s ⟨⟩
      cases merged with
      | none => exact operand.1
      | some shape => exact operand_meeting.merge hmeet (hmerged shape rfl) operand.1
    · rcases h with ⟨s, rfl, hn⟩ | ⟨y, hy, hn⟩
      · exact .inl ⟨_, rfl, narrows_mergeShapes hmeet lower (hmerged s rfl) operand.1 ht (.inl hn)⟩
      · rcases List.mem_cons.1 hy with rfl | hy
        · refine .inl ⟨_, rfl, ?_⟩
          cases merged with
          | none => exact hn
          | some shape => exact narrows_mergeShapes hmeet lower (hmerged shape rfl) operand.1 ht (.inr hn)
        · exact .inr ⟨y, hy, hn⟩
  | case3 merged u ts hne ih =>
    have operand := List.forall_mem_cons.1 hts
    rw [gatherShapes]
    · rcases h with h | ⟨y, hy, hn⟩
      · obtain ⟨v, hv, hn⟩ := ih hmerged operand.2 (.inl h)
        exact ⟨v, List.mem_cons_of_mem _ hv, hn⟩
      · rcases List.mem_cons.1 hy with rfl | hy
        · exact ⟨y, List.mem_cons_self, hn⟩
        · obtain ⟨v, hv, hn⟩ := ih hmerged operand.2 (.inr ⟨y, hy, hn⟩)
          exact ⟨v, List.mem_cons_of_mem _ hv, hn⟩
    · exact hne

end Merging

/-! ### The lower bound -/

section Bound
variable {optional : Bool} {t y : Ty} {ts : List Ty}

/-- A list holds no second shape if every shape stands last. -/
theorem eq_of_shapes {x : Ty} (ordered : ts.Pairwise fun a _ => a.isShape = false) (hx : x ∈ ts) (hy : y ∈ ts)
    (sx : x.isShape = true) (sy : y.isShape = true) : x = y := by
  induction ts with
  | nil => cases hx
  | cons z zs ih =>
    obtain ⟨hz, hzs⟩ := List.pairwise_cons.1 ordered
    have single : z.isShape = true → ∀ u, u ∉ zs := fun sz u hu => by
      rw [hz u hu] at sz
      cases sz
    rcases List.mem_cons.1 hx with rfl | hxs
    · exact ((List.mem_cons.1 hy).resolve_right (single sx y)).symm
    · rcases List.mem_cons.1 hy with rfl | hys
      · exact absurd hxs (single sy x)
      · exact ih hzs hxs hys

theorem narrows_closeMeet (ordered : ts.Pairwise fun a _ => a.isShape = false) (operands : ∀ u ∈ ts, MeetOperand optional u)
    (members : ∀ u ∈ ts, u.isMeetMember = true) (ht : MeetTarget optional t) (hy : y ∈ ts) (hn : Narrows y t) : Narrows (closeMeet ts) t := by
  have sub : ∀ {u}, u ∈ distinct [] ts → u ∈ ts := fun hu => (distinct_sublist [] ts).subset hu
  obtain ⟨u, hu, hun⟩ : ∃ u ∈ distinct [] ts, Narrows u t := by
    obtain ⟨u, hu | hu, hi⟩ := @identical_mem_distinct [] _ _ hy
    · cases hu
    refine ⟨u, hu, ?_⟩
    cases hs : u.isShape with
    | false =>
      refine .of_identical ?_ hi hn
      rw [isPiece, members u (sub hu), hs]
      rfl
    | true =>
      cases eq_of_shapes ordered (sub hu) hy hs (isShape_of_identical hi ▸ hs)
      exact hn
  have pruned : ∀ {kept}, prune (distinct [] ts) = some kept → ∃ k ∈ kept, Narrows k t := fun hp =>
    narrows_prune (ordered.sublist (distinct_sublist [] ts)) (fun u hu => operands u (sub hu)) (fun u hu => members u (sub hu))
      hp ht hu hun
  unfold closeMeet
  split
  · exact .never
  · rename_i hp
    obtain ⟨k, hk, -⟩ := pruned hp
    cases hk
  · rename_i r hp
    obtain ⟨k, hk, hkn⟩ := pruned hp
    exact List.mem_singleton.1 hk ▸ hkn
  · rename_i kept _ _ hp
    obtain ⟨k, hk, hkn⟩ := pruned hp
    exact .of_part (mem_sortByText.2 hk) (members k (sub ((prune_sublist hp).subset hk))) hkn

theorem eq_unknown_of_narrows {r : Ty} (hr : r = unknown) (ht : MeetTarget optional t) (h : Narrows r t) : t = unknown := by
  induction h with
  | unknown => rfl
  | never | shape | part | alternatives => cases hr
  | same hp | implied hp =>
    subst hr
    cases hp
  | @member _ ms m _ hm _ ih =>
    have form : UnionForm ms := ht.built.normal.form
    cases ih hr (ht.part hm)
    cases form.single _ hm

/-- What an operand narrows, one of the members that are taken out of the operands narrows. -/
theorem exists_known (hts : ∀ u ∈ ts, MeetOperand optional u) (ht : MeetTarget optional t) (hy : y ∈ ts) (hn : Narrows y t) :
    t = unknown ∨ ∃ k ∈ knownMembers ts, Narrows k t := by
  have operand := hts y hy
  by_cases unk : y = unknown
  · exact .inl (eq_unknown_of_narrows unk ht hn)
  by_cases meet : ∃ ks, y = intersection ks
  · obtain ⟨ks, rfl⟩ := meet
    have members := operand.node.meet ks rfl
    obtain ⟨k, hk, hkn⟩ := hn.exists_part members
    refine .inr ⟨k, mem_knownMembers hy ?_ ?_, hkn⟩
    · rw [meetMembers]
      refine mem_meetMembersAll_of hk ?_
      rw [meetMembers_self]
      · exact List.mem_singleton_self k
      · rintro rfl
        cases (operand.under hk).node.present
      · rintro ns rfl
        cases members.2 _ hk
    · rintro rfl
      cases members.2 _ hk
  · refine .inr ⟨y, mem_knownMembers hy ?_ unk, hn⟩
    rw [meetMembers_self]
    · exact List.mem_singleton_self y
    · rintro rfl
      cases operand.node.present
    · exact fun ks he => meet ⟨ks, he⟩

theorem narrows_closeGathered {meet : List Ty → Ty} (members : ∀ u ∈ knownMembers ts, u.isMeetMember = true)
    (hmeet : ∀ x y, MeetOperand optional x → MeetOperand optional y → MeetOperand optional (meet [x, y]))
    (lower : ∀ x y t, MeetOperand optional x → MeetOperand optional y → MeetTarget optional t → Narrows x t ∨ Narrows y t → Narrows (meet [x, y]) t)
    (hts : ∀ u ∈ ts, MeetOperand optional u) (ht : MeetTarget optional t) (hy : y ∈ ts) (hn : Narrows y t) :
    Narrows (closeMeet (gatherShapes meet none (knownMembers ts))) t := by
  rcases exists_known hts ht hy hn with rfl | hk
  · exact .unknown
  have known := operand_meeting.knownMembers hts
  have unmerged : ∀ s : Shape, none = some s → MeetOperand optional s.toTy := nofun
  obtain ⟨u, hu, hun⟩ := narrows_gatherShapes hmeet lower unmerged known ht (.inr hk)
  exact narrows_closeMeet (shapeLast_gatherShapes meet none _) (operand_meeting.gatherShapes hmeet nofun known)
    (isMeetMember_gatherShapes members) ht hu hun

/-- What one of the operands narrows, their intersection narrows. -/
theorem narrows_meetAt {level : Nat} (hts : ∀ u ∈ ts, MeetOperand optional u) (ht : MeetTarget optional t) (hy : y ∈ ts) (hn : Narrows y t) :
    Narrows (meetAt level ts) t := by
  induction level, ts using meetAt.induct generalizing t y with
  | case1 level ts hnever =>
    rw [meetAt.eq_def, if_pos hnever]
    exact .never
  | case2 level ts hnever hany =>
    obtain ⟨u, hu, ha⟩ := List.any_eq_true.1 hany
    have notAny := (operand_meeting.knownMembers hts u hu).node.notAny
    cases u <;> first | exact absurd rfl notAny | cases ha
  | case3 level ts hnever hany before members after hu ih =>
    rw [meetAt_union hnever hany hu]
    have known := operand_meeting.knownMembers hts
    rcases exists_known hts ht hy hn with rfl | ⟨k, hk, hkn⟩
    · exact .unknown
    rw [splitAtUnion_eq_some hu] at known hk
    refine .unionOf fun r hr => ?_
    obtain ⟨m, hm, rfl⟩ := List.mem_map.1 hr
    obtain ⟨z, hz, hzn⟩ : ∃ z ∈ before ++ m :: after, Narrows z t := by
      rcases List.mem_append.1 hk with hk | hk
      · exact ⟨k, List.mem_append_left _ hk, hkn⟩
      rcases List.mem_cons.1 hk with rfl | hk
      · exact ⟨m, List.mem_append_right _ List.mem_cons_self, hkn.of_union m hm⟩
      · exact ⟨k, List.mem_append_right _ (List.mem_cons_of_mem _ hk), hkn⟩
    exact ih m hm (operand_meeting.splitMember known hm) ht hz hzn
  | case4 ts hnever hany hu =>
    rw [meetAt_zero hnever hany hu]
    exact narrows_closeGathered (isMeetMember_of_known hnever hany hu) (fun _ _ _ _ => operand_meeting.never)
      (fun _ _ _ _ _ _ _ => .never) hts ht hy hn
  | case5 ts hnever hany hu level ih =>
    rw [meetAt_succ hnever hany hu]
    have pair : ∀ {x y : Ty}, MeetOperand optional x → MeetOperand optional y → ∀ u ∈ [x, y], MeetOperand optional u := fun hx hy =>
      List.forall_mem_cons.2 ⟨hx, List.forall_mem_singleton.2 hy⟩
    refine narrows_closeGathered (isMeetMember_of_known hnever hany hu) (fun x y hx hy => operand_meeting.meetAt (pair hx hy))
      (fun x y t hx hy ht h => ?_) hts ht hy hn
    rcases h with h | h
    · exact ih [x, y] (pair hx hy) ht List.mem_cons_self h
    · exact ih [x, y] (pair hx hy) ht (List.mem_cons_of_mem _ List.mem_cons_self) h

end Bound

namespace Assignable

/-- The intersection of types is assignable to each of them that is not taken apart as an intersection itself, under every
    limit that does not cut off the comparison. -/
theorem meet_is_lower_bound {optional : Bool} {ts : List Ty} (hts : ∀ t ∈ ts, Meetable optional t) {t : Ty} (ht : t ∈ ts)
    (unmet : Unmet t) (d : Nat) (uncut : (run ⟨d, false⟩ (meetOf ts) t).2.clipped = false) :
    (run ⟨d, false⟩ (meetOf ts) t).1 = true := by
  have operands : ∀ u ∈ ts, MeetOperand optional u := fun u hu => (hts u hu).operand
  have target : MeetTarget optional t := ⟨hts t ht, unmet⟩
  rw [accepts_of_uncut uncut]
  exact (narrows_meetAt operands target ht (.refl target)).accepts (operand_meeting.meetAt operands) target

/-- Two shapes share a property that is optional and a union in one of them, and required and open in the other. -/
theorem meet_is_lower_bound_shared :
    let ts := [Ty.object [⟨"a", .union [.number, .string], true, true⟩] none,
      Ty.object [⟨"a", .param "T" .absent .absent, false, false⟩, ⟨"b", .reference "Box" [], false, false⟩] none]
    ∃ d, ∀ t ∈ ts, (run ⟨d, false⟩ (meetOf ts) t).2.clipped = false ∧ (run ⟨d, false⟩ (meetOf ts) t).1 = true := by
  intro ts
  have number : MeetTarget true Ty.number := .piece (built_atom rfl) rfl rfl nofun fun _ _ => ⟨.number, fun _ => rfl⟩
  have string : MeetTarget true Ty.string :=
    .piece (built_atom rfl) rfl rfl nofun fun _ _ => ⟨.leaf rfl trivial rfl rfl, fun _ => rfl⟩
  have union : MeetTarget true (.union [.number, .string]) := by
    refine ⟨⟨built_pair (built_atom rfl) (built_atom rfl) rfl rfl rfl (by decide) (by decide), ⟨rfl, nofun, nofun, nofun⟩, ?_⟩,
      nofun, ?_⟩
    · exact List.forall_mem_cons.2 ⟨number.nodes, List.forall_mem_singleton.2 string.nodes⟩
    · exact List.forall_mem_cons.2 ⟨number.unmet, List.forall_mem_singleton.2 string.unmet⟩
  have parameter : MeetTarget true (.param "T" .absent .absent) :=
    .piece (built_param "T") rfl rfl nofun fun _ hc => by cases hc
  have box : Built (.reference "Box" []) := built_plain rfl nofun
  have reference : MeetTarget true (.reference "Box" []) :=
    .piece box rfl rfl nofun fun _ _ => ⟨⟨box.normal, rfl, nofun⟩, fun _ => rfl⟩
  have shapes : ∀ t ∈ ts, MeetTarget true t := by
    refine List.forall_mem_cons.2 ⟨.object (List.pairwise_singleton _ _) ?_, List.forall_mem_singleton.2 (.object ?_ ?_)⟩
    · exact List.forall_mem_singleton.2 ⟨nofun, union⟩
    · exact List.pairwise_pair.2 (by decide)
    · exact List.forall_mem_cons.2 ⟨⟨nofun, parameter⟩, List.forall_mem_singleton.2 ⟨nofun, reference⟩⟩
  have light : ∀ t ∈ ts, t.weight ≤ 10 := by decide
  have uncut : ∀ t ∈ ts, (run ⟨(meetOf ts).weight + 10, false⟩ (meetOf ts) t).2.clipped = false := fun t ht =>
    relate_uncut _ (Nat.add_le_add_left (light t ht) _) {} rfl
  exact ⟨_, fun t ht => ⟨uncut t ht,
    meet_is_lower_bound (fun u hu => (shapes u hu).toMeetable) ht (shapes t ht).unmet _ (uncut t ht)⟩⟩

/-- What is lost outside of these types: an intersection is refused by an intersection of a part of its members, and a
    property by an index signature that it is merged with. A member goes for a second one that goes for a third, which need
    not be assignable to the first. -/
theorem meet_loses_requirements :
    let part := Ty.intersection [.reference "A" [], .reference "B" []]
    let numbers := Ty.object [] (some ⟨.string, .number⟩)
    let text := Ty.object [⟨"a", .string, false, false⟩] none
    ∀ c ∈ [(part, [part, .reference "C" []]), (numbers, [numbers, text]),
        (.tuple [numbers], [.tuple [emptyObject], .tuple [numbers], .tuple [text]])],
      (∀ t ∈ c.2, Built t ∧ t.occurs isAny = false) ∧ c.1 ∈ c.2 ∧ ∀ d, (run ⟨d, false⟩ (meetOf c.2) c.1).1 = false := by
  intro part numbers text
  have refuse : ∀ {ts t}, accepts (meetOf ts) t = false → ∀ d, (run ⟨d, false⟩ (meetOf ts) t).1 = false := fun h d =>
    Bool.eq_false_iff.2 fun ha => Bool.false_ne_true (h.symm.trans (accepts_of_relate rfl ha))
  have name : ∀ n, Built (.reference n []) := fun n => built_plain rfl (List.forall_mem_nil _)
  have hpart : Built part := by
    have met : meetOf [.reference "A" [], .reference "B" []] = part := by cbv
    exact met ▸ built_meetOf (List.forall_mem_cons.2 ⟨name _, List.forall_mem_singleton.2 (name _)⟩)
  have hnumbers : Built numbers := by
    refine built_object .nil (List.forall_mem_nil _) ?_
    rintro _ ⟨⟩
    exact built_atom rfl
  have htext : Built text :=
    built_object (List.pairwise_singleton _ _) (List.forall_mem_singleton.2 (built_atom rfl)) fun _ h => by cases h
  have single : ∀ {t : Ty}, Built t → Built (.tuple [t]) := fun h => built_plain rfl (List.forall_mem_singleton.2 h)
  have empty : Built emptyObject := built_object .nil (List.forall_mem_nil _) fun _ h => by cases h
  simp only [List.forall_mem_cons]
  refine ⟨⟨⟨⟨hpart, rfl⟩, ⟨name _, rfl⟩, List.forall_mem_nil _⟩, List.mem_cons_self, refuse ?_⟩,
    ⟨⟨⟨hnumbers, rfl⟩, ⟨htext, rfl⟩, List.forall_mem_nil _⟩, List.mem_cons_self, refuse ?_⟩,
    ⟨⟨⟨single empty, rfl⟩, ⟨single hnumbers, rfl⟩, ⟨single htext, rfl⟩, List.forall_mem_nil _⟩, ?_, refuse ?_⟩, List.forall_mem_nil _⟩
  · cbv
  · cbv
  · exact List.mem_cons_of_mem _ List.mem_cons_self
  · cbv

end Assignable

end TypeCalculus

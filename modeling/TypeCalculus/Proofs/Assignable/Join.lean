import TypeCalculus.Proofs.Assignable.Alike
import TypeCalculus.Proofs.Ty.Rebuilt

/-! The union of types is their join under assignability: it is assignable to a type exactly if all of them are, and all of
    them are assignable to it. Whatever the target, it makes no difference that the normal form of a union leaves out
    `never`, duplicates, literals beside their base type and what `any` or `unknown` absorbs. -/

namespace TypeCalculus
open Ty Assignable

/-! ### Operands of comparisons -/

theorem present_unionOf (ts : List Ty) : (unionOf ts).isAbsent = false := by
  have := unionOf_ne_absent ts
  cases hu : unionOf ts <;> first | rfl | exact absurd hu this

/-- A literal belongs to a base type that has literals, and its text is that of a value. -/
def Ty.isSpelled : Ty → Bool
  | literal .boolean text => text = "true" || text = "false"
  | literal .null _ | literal .undefined _ => false
  | _ => true

/-- A tree that is made by constructors, also in what is written beside parameters, and where parameters of one name carry
    one constraint. -/
structure Formed (κ : String → Ty) (t : Ty) : Prop where
  normal : Normal t
  tidy : Throughout children TidyNode t
  constrained : Constrained κ t

/-- A formed type whose literals are spelled like values. -/
structure Operand (κ : String → Ty) (t : Ty) : Prop extends Formed κ t where
  present : t.isAbsent = false
  spelled : Throughout parts (·.isSpelled = true) t

section Formed
variable {κ : String → Ty} {t u a b c : Ty}

theorem handed_formed (κ : String → Ty) : Handed (Formed κ) := by
  have tidy : Handed (Throughout children TidyNode) := handed_throughout tidyNode_of_structural
    (fun ha => ⟨by rintro _ ⟨⟩; exact ha, nofun⟩) fun hm => ⟨nofun, by rintro _ ⟨⟩; exact hm⟩
  have H := (Handed.of_carried carried_normal).and (tidy.and (.of_carried (carried_constrained κ)))
  have same : ∀ t, Formed κ t ↔ Normal t ∧ Throughout children TidyNode t ∧ Constrained κ t :=
    fun t => ⟨fun h => ⟨h.normal, h.tidy, h.constrained⟩, fun h => ⟨h.1, h.2.1, h.2.2⟩⟩
  rwa [show Formed κ = fun t => Normal t ∧ Throughout children TidyNode t ∧ Constrained κ t from funext fun t => propext (same t)]

namespace Formed

theorem atom (ht : t.isAtom = true) : Formed κ t := (handed_formed κ).atom ht

theorem child (h : Formed κ t) (hu : u ∈ t.children) : Formed κ u := (handed_formed κ).child h hu

protected theorem unionOf {ts : List Ty} (h : ∀ t ∈ ts, Formed κ t) : Formed κ (unionOf ts) := (handed_formed κ).unionOf h

theorem present_of_not_mem {ms : List Ty} {m : Ty} (ha : absent ∉ ms) (hm : m ∈ ms) : m.isAbsent = false := by
  cases m <;> first | rfl | exact absurd hm ha

theorem present_member {ms : List Ty} (h : Formed κ (union ms)) {m : Ty} (hm : m ∈ ms) : m.isAbsent = false :=
  present_of_not_mem (h.tidy.node.union ms rfl) hm

theorem present_meetMember {ms : List Ty} (h : Formed κ (intersection ms)) {m : Ty} (hm : m ∈ ms) : m.isAbsent = false :=
  present_of_not_mem (h.tidy.node.meet ms rfl).present hm

theorem not_union {ms : List Ty} (h : Formed κ (union ms)) {m : Ty} (hm : m ∈ ms) : ∀ ns, m ≠ union ns := by
  rintro ns rfl
  cases h.normal.form.single _ hm

theorem lone_meetMember {ms : List Ty} (h : Formed κ (intersection ms)) {m : Ty} (hm : m ∈ ms) : Lone m := by
  constructor <;> rintro ns rfl <;> cases h.normal.form.single _ hm

theorem exists_member {ms : List Ty} (h : Formed κ (union ms)) : ∃ m, m ∈ ms :=
  List.exists_mem_of_length_pos (Nat.lt_of_lt_of_le Nat.two_pos h.normal.form.two)

theorem exists_meetMember {ms : List Ty} (h : Formed κ (intersection ms)) : ∃ m, m ∈ ms :=
  List.exists_mem_of_length_pos (Nat.lt_of_lt_of_le Nat.two_pos h.normal.form.two)

/-- Identical types are assignable to the same types. -/
theorem accepts_identical (ha : Formed κ a) (hb : Formed κ b) (hc : Formed κ c) (h : a.identical b = true) :
    accepts a c = accepts b c :=
  accepts_alike (alike_of_identical ha.constrained hb.constrained h) (.refl hc.constrained)

/-- Identical types have the same types assignable to them. -/
theorem accepts_to_identical (ha : Formed κ a) (hb : Formed κ b) (hc : Formed κ c) (h : b.identical c = true) :
    accepts a b = accepts a c :=
  accepts_alike (.refl ha.constrained) (alike_of_identical hb.constrained hc.constrained h)

/-- A union is assignable member by member. -/
theorem accepts_union_left {ms : List Ty} (ha : Formed κ (union ms)) :
    accepts (union ms) c = true ↔ ∀ m ∈ ms, accepts m c = true := by
  constructor
  · exact fun h m hm => accepts_member h hm (ha.present_member hm) (ha.not_union hm)
  · intro h
    obtain ⟨m, hm⟩ := ha.exists_member
    exact accepts_of_permits rfl (present_of_accepts (h m hm)).2 (.sourceMembers h)

end Formed

namespace Operand

theorem leaf (ht : t.isAtom = true) (hs : t.isSpelled = true) : Operand κ t := by
  refine ⟨.atom ht, ?_, ⟨hs, fun u hu => ?_⟩⟩
  · cases t <;> first | rfl | cases ht
  · cases t <;> first | (cases hu; done) | cases ht

theorem part (h : Operand κ t) (ht : t.isParam = false) (hu : u ∈ t.parts) (hp : u.isAbsent = false) : Operand κ u := by
  refine ⟨h.toFormed.child ?_, hp, h.spelled.under hu⟩
  cases t with
  | param => cases ht
  | _ => exact hu

theorem member {ms : List Ty} (h : Operand κ (union ms)) {m : Ty} (hm : m ∈ ms) : Operand κ m :=
  h.part rfl hm (h.present_member hm)

theorem meetMember {ms : List Ty} (h : Operand κ (intersection ms)) {m : Ty} (hm : m ∈ ms) : Operand κ m :=
  h.part rfl hm (h.present_meetMember hm)

theorem inferConstraint {name : String} (h : Operand κ (infer name c)) (hc : c.isAbsent = false) : Operand κ c := by
  refine h.part rfl ?_ hc
  cases c <;> first | exact List.mem_cons_self | cases hc

protected theorem unionOf {ts : List Ty} (h : ∀ t ∈ ts, Operand κ t) : Operand κ (unionOf ts) := by
  refine ⟨.unionOf fun t ht => (h t ht).toFormed, present_unionOf ts, ?_⟩
  exact unionOf_forall ⟨rfl, nofun⟩ (fun h _ hm => h.under hm) (fun h => ⟨rfl, h⟩)
    fun t ht => (h t ht).spelled

theorem boolean_literal {text : String} (h : Operand κ (literal .boolean text)) : ∃ v, literal .boolean text = boolLit v := by
  have := h.spelled.node
  simp only [isSpelled, Bool.or_eq_true, decide_eq_true_eq] at this
  rcases this with rfl | rfl
  · exact ⟨true, rfl⟩
  · exact ⟨false, rfl⟩

/-! ### Whatever the target -/

theorem takeable_imp {name : String} (h : Operand κ (infer name c)) (ht : Takeable (accepts · · = true) c a)
    (himp : Operand κ c → accepts a c = true → accepts b c = true) : Takeable (accepts · · = true) c b := by
  cases hc : c.isAbsent with
  | true => exact .inl hc
  | false => exact .inr (himp (h.inferConstraint hc) (ht.resolve_left (by rw [hc]; nofun)))

/-- What accepts `any` or `unknown` accepts everything. -/
theorem accepts_of_top (ht : t = any ∨ t = unknown) : ∀ a c, Operand κ a → Operand κ c → accepts t c = true →
    accepts a c = true := by
  have present : t.isAbsent = false := by rcases ht with rfl | rfl <;> rfl
  have known : Lone t ∧ upperBound? t = none ∧ ∀ n k, t ≠ infer n k := by
    rcases ht with rfl | rfl <;> exact ⟨⟨nofun, nofun⟩, rfl, nofun⟩
  refine compares_induction fun a c ih ha hc h => ?_
  have yes : Permits (accepts · · = true) a c → accepts a c = true := accepts_of_permits ha.present hc.present
  rcases accepts_cases present hc.present h with rfl | he | he | he | hp
  · rcases ht with h | h <;> cases h
  · exact accepts_at_once ha.present hc.present (.inr (.inl he))
  · exact accepts_at_once ha.present hc.present (.inr (.inr (.inl he)))
  · have top : c = any ∨ c = unknown := by
      rcases ht with rfl | rfl
      · exact .inl (eq_of_identical_atom rfl (identical_symm he))
      · exact .inr (eq_of_identical_atom rfl (identical_symm he))
    exact accepts_at_once ha.present hc.present (.inr (top.imp_right .inl))
  · rcases union_or_intersection_or_lone a with ⟨ms, rfl⟩ | ⟨ms, rfl⟩ | hl
    · exact yes (.sourceMembers fun m hm => ih _ _ (.sourceMember hm) (ha.member hm) hc h)
    · rcases permits_known known.1 known.2.1 known.2.2 hp with ⟨ns, rfl, hs | ⟨n, hn, hh⟩⟩ | hp
      · rcases ht with rfl | rfl <;> cases hs.1
      · exact yes (.targetMember nofun hn (ih _ _ (.targetMember hn) ha (hc.member hn) hh))
      · have single : ∀ ns, c ≠ union ns := by
          rintro ns rfl
          rcases hp with ⟨_, hc, -⟩ | ⟨_, _, hc, -⟩ | hm
          · cases hc
          · cases hc
          · cases hm
        obtain ⟨m, hm⟩ := ha.exists_meetMember
        exact yes (.sourcePart single hm (ih _ _ (.sourcePart hm) (ha.meetMember hm) hc h))
    · rcases permits_known known.1 known.2.1 known.2.2 hp with
        ⟨ns, rfl, hs | ⟨n, hn, hh⟩⟩ | ⟨ns, rfl, hh⟩ | ⟨n, k, rfl, hh⟩ | hm
      · rcases ht with rfl | rfl <;> cases hs.1
      · exact yes (.targetMember hl.1 hn (ih _ _ (.targetMember hn) ha (hc.member hn) hh))
      · exact yes (.targetParts hl fun n hn => ih _ _ (.targetPart hn) ha (hc.meetMember hn) (hh n hn))
      · exact yes (.targetInfer hl (takeable_imp hc hh fun hk => ih _ _ .targetInfer ha hk))
      · rcases ht with rfl | rfl <;> cases hm with | object hs => cases hs

/-- A literal is assignable to what its base type is assignable to. -/
theorem accepts_literal {base : Prim} {text : String} (ha : Operand κ (literal base text)) :
    ∀ c, Operand κ c → accepts (prim base) c = true → accepts (literal base text) c = true := by
  intro c
  refine compares_induction (R := fun a c => a = literal base text → Operand κ c → accepts (prim base) c = true → accepts a c = true)
    (fun a c ih he hc h => ?_) (literal base text) c rfl
  subst he
  have yes : Permits (accepts · · = true) (literal base text) c → accepts (literal base text) c = true :=
    accepts_of_permits rfl hc.present
  have lone : ∀ {t : Ty}, t.isAtom = true → Lone t := by
    intro t ht
    constructor <;> rintro ms rfl <;> cases ht
  rcases accepts_cases rfl hc.present h with h | he | he | he | hp
  · cases h
  · exact accepts_at_once rfl hc.present (.inr (.inl he))
  · exact accepts_at_once rfl hc.present (.inr (.inr (.inl he)))
  · obtain rfl := eq_of_identical_atom rfl (identical_symm he)
    exact yes (.structural (lone rfl) .literal)
  · rcases permits_known (a := prim base) (lone rfl) rfl nofun hp with
      ⟨ms, rfl, ⟨hb, ht, hf⟩ | ⟨m, hm, hh⟩⟩ | ⟨ms, rfl, hh⟩ | ⟨n, k, rfl, hh⟩ | hm
    · cases hb
      obtain ⟨v, hv⟩ := ha.boolean_literal
      obtain ⟨m, hm, hi⟩ := List.any_eq_true.1 (show hasMember ms (boolLit v) = true by cases v <;> assumption)
      refine yes (.targetMember (lone rfl).1 hm (hv ▸ accepts_at_once rfl (hc.member hm).present ?_))
      exact .inr (.inr (.inr (identical_symm hi)))
    · exact yes (.targetMember (lone rfl).1 hm (ih _ _ (.targetMember hm) rfl (hc.member hm) hh))
    · exact yes (.targetParts (lone rfl) fun m hm => ih _ _ (.targetPart hm) rfl (hc.meetMember hm) (hh m hm))
    · exact yes (.targetInfer (lone rfl) (takeable_imp hc hh fun hk => ih _ _ .targetInfer rfl hk))
    · cases hm with
      | undefined => cases ha.spelled.node
      | object hs => cases hs

theorem accepts_distributes (hc : Operand κ c) : Distributes (Operand κ) (accepts · c = true) where
  present := fun ht he => by cases (he ▸ ht).present
  member := fun ht _ hm => ht.member hm
  never := accepts_at_once rfl hc.present (.inl rfl)
  top := fun ht h hu => accepts_of_top ht _ _ hu hc h
  literal := fun ht h => accepts_literal ht _ hc h
  identical := fun ht hu hi h => Formed.accepts_identical ht.toFormed hu.toFormed hc.toFormed hi ▸ h
  union := fun ht => ht.accepts_union_left

/-! ### The join -/

/-- The union of types is assignable to a type exactly if all the types are. -/
theorem accepts_unionOf {ts : List Ty} (hts : ∀ t ∈ ts, Operand κ t) (hc : Operand κ c) :
    accepts (unionOf ts) c = true ↔ ∀ t ∈ ts, accepts t c = true :=
  (accepts_distributes hc).unionOf hts (.unionOf hts)

theorem member_accepts_unionOf {ts : List Ty} (hts : ∀ t ∈ ts, Operand κ t) {u : Ty} (hu : u ∈ unionMembersAll ts) :
    accepts u (unionOf ts) = true := by
  have hc : Operand κ (unionOf ts) := .unionOf hts
  have flat : ∀ v ∈ unionMembersAll ts, Operand κ v := by
    intro v hv
    obtain ⟨t, ht, hv⟩ := mem_unionMembersAll hv
    exact unionMembers_forall (fun h _ hm => h.member hm) t (hts t ht) v hv
  have single : ∀ ms, u ≠ union ms := by
    rintro ms rfl
    obtain ⟨t, -, ht⟩ := mem_unionMembersAll hu
    exact union_not_mem_unionMembers t ht
  have present := (flat u hu).present
  rcases unionOf_covers hu with he | he | he | ⟨v, hv, hl, huv⟩
  · exact accepts_at_once present hc.present (.inr (.inl he))
  · exact accepts_at_once present hc.present (.inr (.inr (.inl he)))
  · exact accepts_at_once present hc.present (.inl he)
  · have below : accepts u v = true := by
      rcases huv with hi | ⟨base, text, rfl, rfl⟩
      · exact accepts_at_once present (flat v hv).present (.inr (.inr (.inr (identical_symm hi))))
      · exact accepts_of_permits rfl rfl (.structural ⟨nofun, nofun⟩ .literal)
    rcases hl with he | ⟨ms, he, hm⟩
    · exact he ▸ below
    · rw [he] at hc ⊢
      exact accepts_of_permits present hc.present (.targetMember single hm below)

theorem accepts_unionOf_self {ts : List Ty} (hts : ∀ t ∈ ts, Operand κ t) (ht : t ∈ ts) : accepts t (unionOf ts) = true :=
  ((accepts_distributes (.unionOf hts)).members t (hts t ht)).2 fun _ hu =>
    member_accepts_unionOf hts (unionMembers_subset ht hu)

end Operand
end Formed

namespace Assignable
variable {κ : String → Ty}

/-- The union of types is their least upper bound, under every limit that cuts off none of the comparisons in question. -/
theorem union_is_join {ts : List Ty} {c : Ty} (hts : ∀ t ∈ ts, Operand κ t) (hc : Operand κ c) (d : Nat) :
    ((run ⟨d, false⟩ (unionOf ts) c).2.clipped = false → (∀ t ∈ ts, (run ⟨d, false⟩ t c).2.clipped = false) →
      ((run ⟨d, false⟩ (unionOf ts) c).1 = true ↔ ∀ t ∈ ts, (run ⟨d, false⟩ t c).1 = true)) ∧
    ∀ t ∈ ts, (run ⟨d, false⟩ t (unionOf ts)).2.clipped = false → (run ⟨d, false⟩ t (unionOf ts)).1 = true := by
  refine ⟨fun huncut uncut => ?_, fun t ht huncut => ?_⟩
  · rw [accepts_of_uncut huncut, Operand.accepts_unionOf hts hc]
    exact forall₂_congr fun t ht => by rw [accepts_of_uncut (uncut t ht)]
  · rw [accepts_of_uncut huncut]
    exact Operand.accepts_unionOf_self hts ht

/-- A literal beside its base type is left out of a union, which is still assignable to what all three are. -/
theorem union_is_join_covered :
    (run ⟨30, false⟩ (unionOf [.stringLit "x", .string, .boolLit true]) (.union [.boolean, .string])).1 = true ∧
      ∀ t ∈ [Ty.stringLit "x", .string, .boolLit true],
        (run ⟨30, false⟩ t (unionOf [.stringLit "x", .string, .boolLit true])).1 = true := by
  have hts : ∀ t ∈ [Ty.stringLit "x", .string, .boolLit true], Operand (fun _ => absent) t := by
    simp only [List.forall_mem_cons]
    exact ⟨.leaf rfl rfl, .leaf rfl rfl, .leaf rfl rfl, nofun⟩
  have hc : Operand (fun _ => absent) (.union [.boolean, .string]) := by
    rw [← unionOf_pair_self rfl rfl rfl rfl (by decide)]
    refine .unionOf ?_
    exact List.forall_mem_cons.2 ⟨.leaf rfl rfl, List.forall_mem_singleton.2 (.leaf rfl rfl)⟩
  have uncut : ∀ {x y : Ty}, x.weight + y.weight ≤ 30 → (run ⟨30, false⟩ x y).2.clipped = false :=
    fun h => relate_uncut _ h {} rfl
  have light : (unionOf [.stringLit "x", .string, .boolLit true]).weight ≤ 10 := Nat.le_trans (weight_unionOf _) (by decide)
  have members : ∀ t ∈ [Ty.stringLit "x", .string, .boolLit true], t.weight ≤ 10 := by decide
  have target : (Ty.union [.boolean, .string]).weight ≤ 10 := by decide
  obtain ⟨least, upper⟩ := union_is_join hts hc 30
  refine ⟨(least (uncut (by omega)) fun t ht => uncut ?_).2 (by decide), fun t ht => upper t ht (uncut ?_)⟩ <;>
  · have := members t ht
    omega

end Assignable
end TypeCalculus

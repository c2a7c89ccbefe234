import TypeCalculus.Proofs.Assignable.Join

/-! Wider targets. Assignability is not transitive, but for sources without placeholders some targets may be widened: `never`
    to every type, a literal to its base type, an intersection to its parts, and each type to the unions that it goes into
    (`accepts_wider`). An open type is assignable to all that its bound is assignable to (`accepts_of_bound`). -/

namespace TypeCalculus
open Ty Assignable

/-- A formed type without placeholders. -/
structure Definite (κ : String → Ty) (t : Ty) : Prop extends Formed κ t where
  free : ∀ name, ¬Placed name t

section Definite
variable {κ : String → Ty} {t u a b c : Ty}

theorem handed_definite (κ : String → Ty) : Handed (Definite κ) := by
  have H := (handed_formed κ).and (handed_placed fun _ => False)
  rwa [show Definite κ = fun t => Formed κ t ∧ ∀ name, Placed name t → False from
    funext fun t => propext ⟨fun h => ⟨h.toFormed, h.free⟩, fun h => ⟨h.1, h.2⟩⟩]

namespace Definite

theorem atom (ht : t.isAtom = true) : Definite κ t := (handed_definite κ).atom ht

theorem child (h : Definite κ t) (hu : u ∈ t.children) : Definite κ u := (handed_definite κ).child h hu

theorem upperBound (h : Definite κ t) (hu : upperBound? t = some u) : Definite κ u := handed_upperBound (handed_definite κ) hu h

protected theorem unionOf {ts : List Ty} (h : ∀ t ∈ ts, Definite κ t) : Definite κ (unionOf ts) := (handed_definite κ).unionOf h

theorem not_infer (h : Definite κ t) : ∀ name constraint, t ≠ infer name constraint := by
  rintro name constraint rfl
  exact h.free name .here

end Definite

/-! ### Parts of targets -/

/-- What is assignable to an intersection is assignable to its parts. -/
theorem accepts_part {ms : List Ty} (hc : Formed κ (intersection ms)) {m : Ty} (hm : m ∈ ms) (a : Ty) :
    Formed κ a → accepts a (intersection ms) = true → accepts a m = true := by
  refine compares_induction (R := fun a c => c = intersection ms → Formed κ a → accepts a c = true → accepts a m = true)
    (fun a c ih he ha h => ?_) a (intersection ms) rfl
  subst he
  have pa := (present_of_accepts h).1
  have pm := hc.present_meetMember hm
  have lone := hc.lone_meetMember hm
  rcases accepts_cases pa rfl h with rfl | he | he | he | hp
  · exact accepts_at_once rfl pm (.inl rfl)
  · cases he
  · cases he
  · obtain ⟨ns, rfl, hns⟩ := (alike_of_identical ha.constrained hc.constrained he).symm.intersection
    obtain ⟨n, hn, hmn⟩ := exists_alike hns hm
    refine accepts_of_permits rfl pm (.sourcePart lone.1 hn (accepts_at_once (ha.present_meetMember hn) pm ?_))
    exact .inr (.inr (.inr ((identical_iff n m).2 hmn.symm.same)))
  · have yes : Permits (accepts · · = true) a m → accepts a m = true := accepts_of_permits pa pm
    cases hp with
    | sourceMembers hs => exact yes (.sourceMembers fun n hn => ih _ _ (.sourceMember hn) rfl (ha.child hn) (hs n hn))
    | sourcePart _ hn hs => exact yes (.sourcePart lone.1 hn (ih _ _ (.sourcePart hn) rfl (ha.child hn) hs))
    | targetParts _ hs => exact hs m hm
    | sourceInfer hl | bound hl => exact absurd rfl (hl.2 ms)
    | structural _ hs => cases hs

/-- An open type is assignable to what its bound is assignable to. -/
theorem accepts_of_bound (hu : upperBound? a = some u) (ha : Formed κ a) (hc : Definite κ c) (h : accepts u c = true) :
    accepts a c = true := by
  have pa : a.isAbsent = false := by cases a <;> first | rfl | cases hu
  have pc := (present_of_accepts h).2
  have lone : ∀ {c}, Definite κ c → Lone c → accepts u c = true → accepts a c = true := fun hc hl h =>
    accepts_of_permits pa (present_of_accepts h).2 (.bound hl hc.not_infer hu h)
  rcases union_or_intersection_or_lone c with ⟨ms, rfl⟩ | ⟨ms, rfl⟩ | hl
  · exact accepts_of_permits pa pc (.targetBound hu h)
  · refine accepts_of_permits pa pc (.targetParts (lone_of_upperBound? hu) fun m hm => ?_)
    exact lone (hc.child hm) (hc.lone_meetMember hm) (accepts_part hc.toFormed hm u (handed_upperBound (handed_formed κ) hu ha) h)
  · exact lone hc hl h

/-! ### Targets without parts -/

/-- What is assignable to `never` is assignable to everything. -/
theorem accepts_of_never : ∀ a c : Ty, Definite κ a → Definite κ c → c.isAbsent = false → accepts a never = true →
    accepts a c = true := by
  refine compares_induction fun a c ih ha hc pc h => ?_
  have pa := (present_of_accepts h).1
  have yes : Permits (accepts · · = true) a c → accepts a c = true := accepts_of_permits pa pc
  rcases accepts_cases pa rfl h with rfl | he | he | he | hp
  · exact accepts_at_once rfl pc (.inl rfl)
  · cases he
  · cases he
  · exact accepts_at_once pa pc (.inl (eq_of_identical_atom rfl he))
  · cases hp with
    | sourceMembers hs => exact yes (.sourceMembers fun m hm => ih _ _ (.sourceMember hm) (ha.child hm) hc pc (hs m hm))
    | @sourcePart ms _ m _ hm hs =>
      by_cases hcu : ∃ ns, c = union ns
      · obtain ⟨ns, rfl⟩ := hcu
        obtain ⟨n, hn⟩ := hc.exists_member
        exact yes (.targetMember nofun hn (ih _ _ (.targetMember hn) ha (hc.child hn) (hc.present_member hn) h))
      · exact yes (.sourcePart (fun ns he => hcu ⟨ns, he⟩) hm (ih _ _ (.sourcePart hm) (ha.child hm) hc pc hs))
    | bound _ _ hu hs => exact accepts_of_bound hu ha.toFormed hc (ih _ _ (.bound hu) (ha.upperBound hu) hc pc hs)
    | sourceInfer => exact absurd rfl (ha.not_infer _ _)
    | structural _ hs => cases hs

/-- What is assignable to a literal is assignable to its base type. -/
theorem accepts_prim_of_literal {base : Prim} {text : String} (a : Ty) : Definite κ a →
    accepts a (literal base text) = true → accepts a (prim base) = true := by
  refine compares_induction (R := fun a c => c = literal base text → Definite κ a → accepts a c = true →
    accepts a (prim base) = true) (fun a c ih he ha h => ?_) a (literal base text) rfl
  subst he
  have pa := (present_of_accepts h).1
  have yes : Permits (accepts · · = true) a (prim base) → accepts a (prim base) = true := accepts_of_permits pa rfl
  rcases accepts_cases pa rfl h with rfl | he | he | he | hp
  · exact accepts_at_once rfl rfl (.inl rfl)
  · cases he
  · cases he
  · obtain rfl := eq_of_identical_atom rfl he
    exact yes (.structural ⟨nofun, nofun⟩ .literal)
  · cases hp with
    | sourceMembers hs => exact yes (.sourceMembers fun m hm => ih _ _ (.sourceMember hm) rfl (ha.child hm) (hs m hm))
    | sourcePart _ hm hs => exact yes (.sourcePart nofun hm (ih _ _ (.sourcePart hm) rfl (ha.child hm) hs))
    | bound _ _ hu hs => exact yes (.bound ⟨nofun, nofun⟩ nofun hu (ih _ _ (.bound hu) rfl (ha.upperBound hu) hs))
    | sourceInfer => exact absurd rfl (ha.not_infer _ _)
    | structural _ hs => cases hs

/-! ### Unions -/

/-- `boolean` is assignable to the union of types to which both its literals belong. -/
theorem boolean_accepts_unionOf {ts : List Ty} (h : ∀ v, boolLit v ∈ unionMembersAll ts) :
    accepts Ty.boolean (unionOf ts) = true := by
  have pc := present_unionOf ts
  have yes : Permits (accepts · · = true) Ty.boolean (unionOf ts) → accepts Ty.boolean (unionOf ts) = true :=
    accepts_of_permits rfl pc
  have each : ∀ v, accepts Ty.boolean (unionOf ts) = true ∨ unionOf ts = boolLit v ∨
      ∃ ms, unionOf ts = union ms ∧ boolLit v ∈ ms := by
    intro v
    rcases unionOf_covers (h v) with he | he | he | ⟨w, -, hl, hw⟩
    · exact .inl (accepts_at_once rfl pc (.inr (.inl he)))
    · exact .inl (accepts_at_once rfl pc (.inr (.inr (.inl he))))
    · cases he
    · rcases hw with hi | ⟨base, text, he, rfl⟩
      · exact .inr (eq_of_identical_atom rfl hi ▸ hl)
      · cases he
        rcases hl with he | ⟨ms, he, hm⟩
        · exact .inl (accepts_at_once rfl pc (.inr (.inr (.inr (he ▸ identical_refl _)))))
        · rw [he] at yes ⊢
          exact .inl (yes (.targetMember nofun hm (accepts_at_once rfl rfl (.inr (.inr (.inr (identical_refl _)))))))
  rcases each true with ht | ht | ⟨ms, ht, hm⟩
  · exact ht
  · rcases each false with hf | hf | ⟨ns, hf, hn⟩
    · exact hf
    · simpa [boolLit] using ht.symm.trans hf
    · cases ht.symm.trans hf
  · rcases each false with hf | hf | ⟨ns, hf, hn⟩
    · exact hf
    · cases ht.symm.trans hf
    · cases ht.symm.trans hf
      rw [ht] at yes ⊢
      have member : ∀ {v}, boolLit v ∈ ms → hasMember ms (boolLit v) = true :=
        fun hv => List.any_eq_true.2 ⟨_, hv, identical_refl _⟩
      exact yes (.splitBoolean ⟨rfl, member hm, member hn⟩)

/-- A type that is no union is assignable to the union of types if it is to one of their members. -/
theorem accepts_unionOf_of_member {ts : List Ty} (hts : ∀ t ∈ ts, Definite κ t) (ha : Definite κ a)
    (hn : ∀ ms, a ≠ union ms) (hu : u ∈ unionMembersAll ts) (h : accepts a u = true) : accepts a (unionOf ts) = true := by
  have hc : Definite κ (unionOf ts) := .unionOf hts
  have flat : ∀ v ∈ unionMembersAll ts, Definite κ v := by
    intro v hv
    obtain ⟨t, ht, hv⟩ := mem_unionMembersAll hv
    exact unionMembers_forall (fun h _ hm => h.child hm) t (hts t ht) v hv
  have pa := (present_of_accepts h).1
  have pc := present_unionOf ts
  rcases unionOf_covers hu with he | he | rfl | ⟨v, hv, hl, huv⟩
  · exact accepts_at_once pa pc (.inr (.inl he))
  · exact accepts_at_once pa pc (.inr (.inr (.inl he)))
  · exact accepts_of_never a _ ha hc pc h
  · have below : accepts a v = true := by
      rcases huv with hi | ⟨base, text, rfl, rfl⟩
      · exact Formed.accepts_to_identical ha.toFormed (flat v hv).toFormed (flat u hu).toFormed hi ▸ h
      · exact accepts_prim_of_literal a ha h
    rcases hl with he | ⟨ms, he, hm⟩
    · exact he ▸ below
    · rw [he] at pc ⊢
      exact accepts_of_permits pa pc (.targetMember hn hm below)

/-- What is assignable to a type is assignable to the union of types to which its members belong. -/
theorem accepts_wider {ts : List Ty} (hts : ∀ t ∈ ts, Definite κ t) : ∀ a t : Ty, Definite κ a → Definite κ t →
    (∀ u ∈ t.unionMembers, u ∈ unionMembersAll ts) → accepts a t = true → accepts a (unionOf ts) = true := by
  refine compares_induction fun a t ih ha ht hu h => ?_
  have hc : Definite κ (unionOf ts) := .unionOf hts
  obtain ⟨pa, pt⟩ := present_of_accepts h
  rcases union_or_intersection_or_lone a with ⟨ms, rfl⟩ | hl
  · refine ha.accepts_union_left.2 fun m hm => ?_
    exact ih _ _ (.sourceMember hm) (ha.child hm) ht hu (ha.accepts_union_left.1 h m hm)
  · have hn : ∀ ms, a ≠ union ms := by
      rintro ms rfl
      rcases hl with ⟨_, he⟩ | hl
      · cases he
      · exact hl.1 _ rfl
    by_cases htu : ∃ ms, t = union ms
    · obtain ⟨ms, rfl⟩ := htu
      have members : ∀ m ∈ ms, ∀ u ∈ m.unionMembers, u ∈ unionMembersAll ts := by
        intro m hm u hum
        refine hu u ?_
        rw [unionMembers]
        exact unionMembers_subset hm hum
      rcases accepts_cases pa pt h with rfl | he | he | he | hp
      · exact accepts_at_once rfl (present_unionOf ts) (.inl rfl)
      · cases he
      · cases he
      · obtain ⟨ns, rfl, -⟩ := (alike_of_identical ha.constrained ht.constrained he).symm.union
        exact absurd rfl (hn ns)
      · cases hp with
        | sourceMembers => exact absurd rfl (hn _)
        | splitBoolean hs =>
          obtain ⟨rfl, hst, hsf⟩ := hs
          have literal : ∀ v, boolLit v ∈ ms := by
            intro v
            obtain ⟨m, hm, hi⟩ := List.any_eq_true.1 (show hasMember ms (boolLit v) = true by cases v <;> assumption)
            exact eq_of_identical_atom rfl hi ▸ hm
          refine boolean_accepts_unionOf fun v => members _ (literal v) _ ?_
          rw [unionMembers_self (t := boolLit v) nofun nofun]
          exact List.mem_cons_self
        | targetMember _ hm hs => exact ih _ _ (.targetMember hm) ha (ht.child hm) (members _ hm) hs
        | targetBound hb hs => exact accepts_of_bound hb ha.toFormed hc (ih _ _ (.bound hb) (ha.upperBound hb) ht hu hs)
        | sourcePart hb => exact absurd rfl (hb _)
        | sourceInfer hb | bound hb => exact absurd rfl (hb.1 _)
        | structural _ hs => cases hs
    · have single : t.unionMembers = [t] := unionMembers_self (fun ms he => htu ⟨ms, he⟩) fun he => by cases he ▸ pt
      exact accepts_unionOf_of_member hts ha hn (hu t (single ▸ List.mem_cons_self)) h

end Definite
end TypeCalculus

import TypeCalculus.Proofs.Substitute.Compose

/-! Substitution leaves alone what is not bound, and its two ways agree. A type none of whose free parameters is bound
    comes out as it went in, though it may go through every constructor on the way (`run_cleared`). If no replacement
    mentions what is bound, there is nothing in it to chain into, so a chained substitution follows a simultaneous one
    step by step (`chained_of_once`). -/

namespace TypeCalculus.Substitute
open Ty

/-- The replacements are made by constructors, and nothing in them would be replaced in turn. -/
structure Settled (s : Subst) (opened : List String) : Prop where
  built : s.Forall Built
  cleared : ∀ {n t}, s.find? n = some t → Cleared s opened t

section Settled
variable {s : Subst} {opened : List String}

theorem Settled.without (h : Settled s opened) (names : List String) : Settled (s.without names) opened where
  built := h.built.without names
  cleared hf := (h.cleared (Subst.find?_of_without hf)).imp fun _ hn => (replaced_without.1 hn).2

theorem Settled.insert (h : Settled s opened) {name : String} {m : Ty} (hname : Replaced s opened name) (hb : Built m)
    (hc : Cleared s opened m) : Settled (s.insert name m) opened where
  built := h.built.insert name hb
  cleared {n t} hf := by
    have before : Cleared s opened t := by
      rw [Subst.find?_insert] at hf
      split at hf
      · exact Option.some.inj hf ▸ hc
      · exact h.cleared hf
    exact before.imp fun _ => replaced_of_insert hname

theorem cleared_of_not_mentions {t : Ty} (h : t.mentions s = false) : Cleared s opened t := by
  rintro n ⟨-, u, hf, -⟩ hfree
  have bound : s.binds n = true := by rw [Subst.binds, hf]; rfl
  have mentioned : t.mentions s = true := hfree.occurs rfl fun _ _ => bound
  rw [h] at mentioned
  cases mentioned

theorem settled_of_not_mentions (hb : s.Forall Built) (h : s.Forall fun r => r.mentions s = false) : Settled s opened :=
  ⟨hb, fun hf => cleared_of_not_mentions (h.find? hf)⟩

/-- The alternatives of a settled replacement are settled. -/
theorem Settled.alternatives (h : Settled s opened) {n : String} {r m : Ty} {members : List Ty} (hf : s.find? n = some r)
    (ha : alternatives? r = some members) (hm : m ∈ members) : Built m ∧ Cleared s opened m := by
  have built := h.built.find? hf
  refine ⟨⟨carried_normal.alternatives built.normal ha m hm, Inherited.alternatives inherited_tidy built.tidy ha m hm⟩, ?_⟩
  exact fun k hk => Inherited.alternatives (inherited_notFree k) (h.cleared hf k hk) ha m hm

end Settled

/-- Where nothing in the replacements would be replaced, the result of a simultaneous substitution is that of a chained
    one. -/
theorem chained_of_once {s : Subst} {opened : List String} {t u : Ty} (h : run false s opened t = some u) :
    Settled s opened → Built t → run true s opened t = some u := by
  refine run_induction (motive := fun s opened t u => Settled s opened → Built t → run true s opened t = some u)
    (fun self hself s opened t u hstep hs ht => ?_) h
  have part : ∀ v ∈ t.parts, t.isParam = false → ∀ w, self s opened v = some w → run true s opened v = some w :=
    fun v hv hp w hw => (hself _ _ _ _ hw).2 hs (ht.part hp hv)
  cases hstep with
  | kept hr => exact run_iff.2 (.kept hr)
  | @taken name _ _ _ hr hf =>
    have fewer : Cleared s (name :: opened) u :=
      (hs.cleared hf).imp fun n hn => ⟨fun ho => hn.1 (List.mem_cons_of_mem _ ho), hn.2⟩
    exact run_iff.2 (.replaced hr hf (run_cleared (hs.built.find? hf) fewer))
  | @split _ distribute check bound yes no name members us hsplit hus =>
    have chained := splits?_extend (part check (by simp [parts]) rfl) distribute _ hsplit
    obtain ⟨rfl, c, d, r, rfl, hr, hrun, ha⟩ := splits?_eq_some hsplit
    have hf : s.find? name = some r := by
      cases run_iff.1 (hself _ _ _ _ hrun).1 with
      | kept hn => exact absurd hr hn
      | taken _ hf => exact hf
      | rebuilt hp => cases hp
    refine run_iff.2 (.split chained (mapM_extends (fun m hm v hv => ?_) hus))
    obtain ⟨hb, hc⟩ := hs.alternatives hf ha hm
    exact (hself _ _ _ _ hv).2 (hs.insert hr hb hc) ht
  | @whole _ distribute check bound yes no check' bound' yes' no' hsplit hc hb hy hn =>
    have branch := (hself _ _ _ _ hy).2 (hs.without _) (ht.part rfl (by simp [parts]))
    exact run_iff.2 (.whole (splits?_extend (part check (by simp [parts]) rfl) distribute _ hsplit)
      (part check (by simp [parts]) rfl _ hc) (part bound (by simp [parts]) rfl _ hb) branch
      (part no (by simp [parts]) rfl _ hn))
  | rebuilt hp hc hu => exact run_iff.2 (.rebuilt hp hc (rebuild_extends hp (fun v hv => part v hv hp) hu))

/-- Both ways of substituting give what their runs give. -/
theorem substituted_of_run {s : Subst} {t u : Ty} (hc : run true s [] t = some u) (ho : run false s [] t = some u) :
    t.substitute s = t.substituteOnce s ∧ (u = t → t.substitute s = t) := by
  unfold Ty.substitute Ty.substituteOnce
  rw [hc, ho]
  refine ⟨rfl, ?_⟩
  rintro rfl
  exact ite_self _

/-- A type none of whose free parameters is bound to a type stays as it is. If no replacement mentions a bound name, both
    ways of substituting come to an end with the same type, as when one parameter is replaced by a type without it. -/
theorem substitutions_agree {s : Subst} {t : Ty} (ht : Built t) (hs : s.Forall Built) :
    ((∀ n ∈ t.freeParams, ∀ r, s.find? n = some r → r = absent) →
      run true s [] t = some t ∧ run false s [] t = some t ∧ t.substitute s = t ∧ t.substituteOnce s = t) ∧
    ((s.Forall fun r => r.mentions s = false) →
      (∃ u, run true s [] t = some u ∧ run false s [] t = some u) ∧ t.substitute s = t.substituteOnce s) ∧
    ∀ n r, Built r → r.occurs (isParamOf n) = false → t.replaceParam n r = t.substitute (Subst.ofList [(n, r)]) := by
  have agree : ∀ {s : Subst}, s.Forall Built → (s.Forall fun r => r.mentions s = false) →
      (∃ u, run true s [] t = some u ∧ run false s [] t = some u) ∧ t.substitute s = t.substituteOnce s := by
    intro s hs hm
    obtain ⟨u, hu⟩ := once_ends s [] t
    have chained := chained_of_once hu (settled_of_not_mentions hs hm) ht
    exact ⟨⟨u, chained, hu⟩, (substituted_of_run chained hu).1⟩
  refine ⟨fun unbound => ?_, agree hs, fun n r hr hn => ?_⟩
  · have cleared : Cleared s [] t := by
      rintro n ⟨-, r, hf, hr⟩ hfree
      exact hr (unbound n (mem_freeParams.2 hfree) r hf)
    have stays : ∀ chain, run chain s [] t = some t := fun _ => run_cleared ht cleared
    obtain ⟨same, kept⟩ := substituted_of_run (stays true) (stays false)
    exact ⟨stays true, stays false, kept rfl, same ▸ kept rfl⟩
  · have entries : Subst.ofList [(n, r)] = ⟨[(n, r)]⟩ := rfl
    have alone : r.mentions ⟨[(n, r)]⟩ = false := by
      rw [Bool.eq_false_iff, Ne, mentions_iff]
      rintro ⟨m, ho, hb⟩
      have same : m = n := by grind [Subst.binds, Subst.find?, List.lookup]
      rw [same, hn] at ho
      cases ho
    rw [entries]
    exact (agree (Subst.forall_cons hr Subst.forall_empty) (Subst.forall_cons alone Subst.forall_empty)).2.symm

/-- `X` is bound, and stands in the type only where a bound declares it. -/
theorem substitutions_agree_shadowed :
    let shadowing := conditional (param "P" absent absent) (array (infer "X" absent) false) (param "X" absent absent) never true
    let s : Subst := ⟨[("X", string)]⟩
    let both : Subst := ⟨[("P", union [param "Q" absent absent, string]), ("X", string)]⟩
    Built shadowing ∧ s.Forall Built ∧ both.Forall Built ∧ shadowing.mentions s = true ∧ shadowing.substitute s = shadowing ∧
      shadowing.substituteOnce s = shadowing ∧ (∃ u, run true both [] shadowing = some u ∧ run false both [] shadowing = some u) ∧
      shadowing.replaceParam "P" string = shadowing.substitute (Subst.ofList [("P", string)]) := by
  intro shadowing s both
  have built : Built shadowing :=
    built_conditional (fun _ => rfl) (built_param "P")
      (built_plain rfl (List.forall_mem_singleton.2 (built_plain rfl (List.forall_mem_nil _)))) (built_param "X") (built_atom rfl)
  have hs : s.Forall Built := Subst.forall_cons (built_atom rfl) Subst.forall_empty
  have alternatives : Built (union [param "Q" absent absent, string]) :=
    built_pair (built_param "Q") (built_atom rfl) rfl rfl rfl rfl (by decide)
  have hboth : both.Forall Built := Subst.forall_cons alternatives hs
  have unbound : ∀ n ∈ shadowing.freeParams, ∀ r, s.find? n = some r → r = absent := by
    intro n hn r hf
    rw [show shadowing.freeParams = ["P"] by rfl, List.mem_singleton] at hn
    rw [hn] at hf
    cases hf
  have unmentioned : both.Forall fun r => r.mentions both = false :=
    Subst.forall_cons rfl (Subst.forall_cons rfl Subst.forall_empty)
  obtain ⟨-, -, kept, keptOnce⟩ := (substitutions_agree built hs).1 unbound
  obtain ⟨ends, -⟩ := (substitutions_agree built hboth).2.1 unmentioned
  have replaced := (substitutions_agree built hs).2.2 "P" string (built_atom rfl) rfl
  exact ⟨built, hs, hboth, rfl, kept, keptOnce, ends, replaced⟩

end TypeCalculus.Substitute

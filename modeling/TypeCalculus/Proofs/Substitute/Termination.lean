import Mathlib
import Mathlib.Data.Finset.SDiff
import Mathlib.Data.Finset.Card
import TypeCalculus.Proofs.Substitute.Grounded

/-! Where substitution comes to an end. It goes on into replacements, of which there are no more than names that are
    not being replaced yet, and into parts. A conditional that splits is entered once more for each alternative with
    the checked parameter rebound; if that parameter is grounded, the alternatives of an alternative are fewer
    (`substitution_ends`). Bindings that lead a distributive conditional into a cycle may bring the same alternatives
    again and again (`substitution_runs_on`). -/

namespace TypeCalculus

/-- Steps that come to an end with a result that satisfies a property. -/
def Results.ended : Results Option where
  All P x := ∃ a, x = some a ∧ P a
  pure h := ⟨_, rfl, h⟩
  bind hx hf := by
    obtain ⟨a, rfl, ha⟩ := hx
    exact hf a ha

namespace Substitute
open Ty Relation

/-! ### Steps that end -/

theorem ends_rebuild {f : Ty → Option Ty} {t : Ty} (hp : t.isParam = false) (hc : t.isConditional = false)
    (hf : ∀ u ∈ t.parts, ∃ v, f u = some v) : ∃ u, t.rebuild f = some u := by
  obtain ⟨u, hu, -⟩ := inherited_true.rebuild Results.ended hp hc (fun _ _ _ => trivial) fun u hu =>
    (hf u hu).imp fun _ hv => ⟨hv, trivial⟩
  exact ⟨u, hu⟩

theorem ends_mapM {f : Ty → Option Ty} {ts : List Ty} (hf : ∀ t ∈ ts, ∃ v, f t = some v) : ∃ us, ts.mapM f = some us := by
  obtain ⟨us, hus, -⟩ := Results.ended.mapM (P := fun _ => True) fun t ht => (hf t ht).imp fun _ hv => ⟨hv, trivial⟩
  exact ⟨us, hus⟩

theorem choices_alternatives {t : Ty} {members : List Ty} (h : alternatives? t = some members) :
    ∀ m ∈ members, m.choices < t.choices := by
  intro m hm
  unfold alternatives? at h
  split at h
  · cases h
    exact choices_lt_of_member hm
  · cases h
    rcases List.mem_cons.1 hm with rfl | hm
    · exact Nat.one_pos
    · exact List.mem_singleton.1 hm ▸ Nat.one_pos
  · cases h
    cases hm
  · cases h

/-- A conditional comes to an end if its parts do, as long as no alternative is replaced by a type of more choices. -/
theorem ends_conditional {chain : Bool} {opened : List String} {check bound yes no : Ty} {distribute : Bool}
    {P : Subst → Prop}
    (hparts : ∀ s, P s → (∃ c, run chain s opened check = some c) ∧ (∃ b, run chain s opened bound = some b) ∧
      (∃ y, run chain (s.without bound.inferNames) opened yes = some y) ∧ ∃ n, run chain s opened no = some n)
    (hmember : ∀ s name constraint default r members, P s → distribute = true → check = param name constraint default →
      Replaced s opened name → run chain s opened check = some r → alternatives? r = some members → ∀ m ∈ members,
        P (s.insert name m) ∧ ∀ r', run chain (s.insert name m) opened check = some r' → r'.choices ≤ m.choices)
    {s : Subst} (hs : P s) : ∃ u, run chain s opened (conditional check bound yes no distribute) = some u := by
  obtain ⟨⟨r, hr⟩, -⟩ := hparts s hs
  induction hk : r.choices using Nat.strongRecOn generalizing s r with
  | ind k ih =>
    obtain ⟨hc, ⟨b, hb⟩, ⟨y, hy⟩, n, hn⟩ := hparts s hs
    obtain ⟨split, hsplit⟩ := @splits?_ends _ s opened check distribute hc
    rcases split with _ | ⟨name, members⟩
    · exact ⟨_, run_iff.2 (.whole hsplit hr hb hy hn)⟩
    · obtain ⟨hd, c, d, r', he, hrep, hr', ha⟩ := splits?_eq_some hsplit
      cases hr.symm.trans hr'
      have again : ∀ m ∈ members, ∃ v,
          run chain (s.insert name m) opened (conditional check bound yes no distribute) = some v := by
        intro m hm
        obtain ⟨hP, hle⟩ := hmember s name c d r members hs hd he hrep hr ha m hm
        obtain ⟨⟨r'', hr''⟩, -⟩ := hparts _ hP
        have fewer := choices_alternatives ha m hm
        exact ih _ (by have := hle r'' hr''; omega) hP r'' hr'' rfl
      obtain ⟨us, hus⟩ := ends_mapM again
      exact ⟨_, run_iff.2 (.split hsplit hus)⟩

/-! ### Simultaneous substitution -/

/-- Simultaneous substitution comes to an end: the alternatives of an alternative are among its parts. -/
theorem once_ends (s : Subst) (opened : List String) (t : Ty) : ∃ u, run false s opened t = some u := by
  induction t using parts_induction generalizing s with
  | step t ih =>
    have part : ∀ s, ∀ u ∈ t.parts, ∃ v, run false s opened u = some v := fun s u hu => ih u hu s
    cases t with
    | param name constraint default =>
      by_cases hr : Replaced s opened name
      · obtain ⟨-, r, hf, -⟩ := id hr
        exact ⟨r, run_iff.2 (.taken hr hf)⟩
      · exact ⟨_, run_iff.2 (.kept hr)⟩
    | conditional check bound yes no distribute =>
      refine ends_conditional (P := fun _ => True) (fun s _ => ⟨part s check (by simp [parts]), part s bound (by simp [parts]),
        part _ yes (by simp [parts]), part s no (by simp [parts])⟩) ?_ trivial
      rintro s name c d r members - - rfl hr - - m -
      refine ⟨trivial, fun r' hr' => ?_⟩
      cases run_iff.1 hr' with
      | kept => exact Nat.zero_le _
      | taken _ hf =>
        rw [Subst.find?_insert_self] at hf
        cases hf
        exact Nat.le_refl _
      | rebuilt hp => cases hp
    | _ => exact (ends_rebuild rfl rfl (part s)).imp fun _ hu => run_iff.2 (.rebuilt rfl rfl hu)

/-! ### Chained substitution -/

/-- How many names are bound and not being replaced. -/
def unopened (s : Subst) (opened : List String) : Nat := (s.names.toFinset \ opened.toFinset).card

theorem unopened_cons_lt {s : Subst} {opened : List String} {name : String} (hb : name ∈ s.names) (ho : name ∉ opened) :
    unopened s (name :: opened) < unopened s opened := by
  unfold unopened
  rw [List.toFinset_cons, Finset.sdiff_insert]
  refine Finset.card_erase_lt_of_mem ?_
  simp [hb, ho]

section Chained
variable {s₀ : Subst}

/-- The alternatives of a grounded parameter have fewer choices, also when they are replaced in turn. -/
theorem choices_member {s : Subst} (hs : Follows s₀ s) {opened : List String} {name : String} {c d r m r' : Ty}
    {members : List Ty} (hg : s₀.Grounded name)
    (hrun : run true s opened (param name c d) = some r) (ha : alternatives? r = some members) (hm : m ∈ members)
    (hrun' : run true (s.insert name m) opened (param name c d) = some r') : r'.choices ≤ m.choices := by
  have fixed : Fixed s opened r := fixed_run hrun hs (named_param.2 hg)
  have present := present_alternatives fixed ha m hm
  cases run_iff.1 hrun' with
  | kept h => exact Nat.zero_le _
  | replaced _ hf hu =>
    rw [Subst.find?_insert_self] at hf
    cases hf
    refine choices_run hu ((Inherited.alternatives (inherited_fixed s opened) fixed ha m hm).imp ?_)
    rintro n ⟨ho, t, hf, ht⟩
    rw [List.mem_cons, not_or] at ho
    exact ⟨ho.2, t, by rwa [Subst.find?_insert_ne _ _ ho.1] at hf, ht⟩
  | rebuilt hp => cases hp

theorem chained_ends {s : Subst} (hs : Follows s₀ s) (opened : List String) {t : Ty} (ht : Checks s₀ t) :
    ∃ u, run true s opened t = some u := by
  induction hk : unopened s₀ opened using Nat.strongRecOn generalizing s opened t with
  | ind k ihk =>
    induction t using parts_induction generalizing s with
    | step t ih =>
      have part : ∀ {s}, Follows s₀ s → ∀ u ∈ t.parts, ∃ v, run true s opened u = some v :=
        fun hs u hu => ih u hu hs (ht.under hu)
      cases t with
      | param name constraint default =>
        by_cases hr : Replaced s opened name
        · obtain ⟨ho, r, hf, -⟩ := id hr
          obtain ⟨u, hu⟩ := ihk _ (hk ▸ unopened_cons_lt (hs.bound hf) ho) hs (name :: opened) (hs.checks hf) rfl
          exact ⟨u, run_iff.2 (.replaced hr hf hu)⟩
        · exact ⟨_, run_iff.2 (.kept hr)⟩
      | conditional check bound yes no distribute =>
        refine ends_conditional (P := Follows s₀) (fun s hs => ⟨part hs check (by simp [parts]),
          part hs bound (by simp [parts]), part (hs.without _) yes (by simp [parts]), part hs no (by simp [parts])⟩) ?_ hs
        rintro s name c d r members hs rfl rfl hr hrun ha m hm
        have hg := ht.node name (beq_self_eq_true name)
        have named : Named (TransGen s₀.Leads name) m := by
          rcases named_run_param hs hg hrun with rfl | hnamed
          · cases ha
          · exact Inherited.alternatives (inherited_named _) hnamed ha m hm
        exact ⟨hs.insert hr hg named, fun r' hr' => choices_member hs hg hrun ha hm hr'⟩
      | _ => exact (ends_rebuild rfl rfl (part hs)).imp fun _ hu => run_iff.2 (.rebuilt rfl rfl hu)

end Chained

/-- Substitution comes to an end wherever no distributive conditional, of the type or of a type that a name is bound
    to, checks a parameter from which a cycle of bindings is reached. -/
theorem substitution_ends {s : Subst} {t : Ty} (ht : ∀ name, t.occurs (distributesOver name) = true → s.Grounded name)
    (hs : ∀ n u, s.find? n = some u → ∀ name, u.occurs (distributesOver name) = true → s.Grounded name) :
    ∃ u, run true s [] t = some u := by
  have checks : ∀ {u : Ty}, (∀ name, u.occurs (distributesOver name) = true → s.Grounded name) → Checks s u :=
    fun h => throughout_of_occurs (fun _ => rfl) h
  exact chained_ends (follows_self fun n u hf => checks (hs n u hf)) [] (checks ht)

theorem grounded_of_not_leads {s : Subst} {name : String} (h : ∀ other, ¬s.Leads name other) : s.Grounded name := by
  intro other hr ht
  rcases ReflTransGen.cases_head hr with rfl | ⟨next, hl, -⟩
  · obtain ⟨next, hl, -⟩ := TransGen.head'_iff.1 ht
    exact h next hl
  · exact h next hl

/-- A conditional that distributes over the parameter of a name. -/
def distributing (name : String) : Ty :=
  conditional (param name absent absent) string (stringLit "yes") (stringLit "no") true

theorem occurs_distributing {name other : String} (h : (distributing name).occurs (distributesOver other) = true) :
    other = name := by
  simp only [distributing, occurs, distributesOver, string, stringLit, Bool.or_false, beq_iff_eq] at h
  exact h.symm

/-- Another name may lead to itself. -/
theorem substitution_ends_beside_cycle :
    ∃ u, run true ⟨[("P", union [number, string]), ("R", array (param "R" absent absent) false)]⟩ []
      (distributing "P") = some u := by
  refine substitution_ends (fun name h => ?_) fun n u hf name h => ?_
  · rw [occurs_distributing h]
    refine grounded_of_not_leads ?_
    rintro other ⟨t, hf, ho⟩
    cases hf
    cases ho
  · have inEntries : u = union [number, string] ∨ u = array (param "R" absent absent) false := by
      simp only [Subst.find?, List.lookup] at hf
      grind
    rcases inEntries with rfl | rfl
    · cases h
    · cases h

/-- Bindings that lead from `P` to `Q` and from there round in a cycle through a union. -/
def cyclic : Subst := ⟨[("P", param "Q" absent absent), ("Q", union [param "Q" absent absent, string])]⟩

theorem run_cyclic : run true cyclic [] (param "P" absent absent) = some (union [param "Q" absent absent, string]) := by
  cbv

/-- The alternatives of `P` are `Q` and `string`, and those of `Q` in its place are the same again. -/
theorem substitution_runs_on : run true cyclic [] (distributing "P") = none := by
  have never : ∀ {s opened t u}, run true s opened t = some u → ¬(s = cyclic ∧ opened = [] ∧ t = distributing "P") := by
    intro s opened t u h
    refine run_induction (motive := fun s opened t _ => ¬(s = cyclic ∧ opened = [] ∧ t = distributing "P"))
      (fun self hself s opened t u hstep => ?_) h
    rintro ⟨rfl, rfl, rfl⟩
    cases hstep with
    | @split _ _ _ _ _ _ name members us hsplit hus =>
      obtain ⟨-, _, _, r, hname, -, hr, ha⟩ := splits?_eq_some hsplit
      cases hname
      cases run_cyclic.symm.trans (hself _ _ _ _ hr).1
      cases ha
      rw [List.mapM_cons] at hus
      obtain ⟨v, hv, -⟩ := Option.bind_eq_some_iff.1 hus
      exact (hself _ _ _ _ hv).2 ⟨rfl, rfl, rfl⟩
    | whole hsplit hc =>
      cases run_cyclic.symm.trans (hself _ _ _ _ hc).1
      rw [splits?, if_pos (by rfl), hc] at hsplit
      cases hsplit
    | rebuilt _ hc => cases hc
  exact Option.eq_none_iff_forall_ne_some.2 fun u hu => never hu ⟨rfl, rfl, rfl⟩

end Substitute
end TypeCalculus

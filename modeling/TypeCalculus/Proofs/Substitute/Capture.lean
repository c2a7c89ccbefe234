import TypeCalculus.Proofs.Substitute.Agreement
import TypeCalculus.Proofs.Substitute.Alongside

/-! Substitution and the names that conditionals bind. A name is not replaced where a conditional declares it. But what takes
    the place of another name is not looked at: if it refers to the name, the conditional captures it, and what the
    substitution gives depends on how the bound names are called (`replacement_captured`). It does not where nothing is captured
    (`substituteOnce_rebound`). -/

namespace TypeCalculus.Substitute
open Ty

/-- The second type is the first with other names for its placeholders and for the parameters that they bind. Mapped back,
    the new names give the first type; in the scope of a conditional no two of them are mapped to one, and free names stay. -/
structure Rebound (φ : String → String) (t t' : Ty) : Prop where
  back : t'.rename φ = t
  faithful : Faithful φ t'
  free : ∀ n, Free n t' → φ n = n

/-- Whatever the bound names of a type are called, a substitution gives the same but for these names and for the order of
    members, and binds the same names, as long as no conditional captures what comes into it. -/
theorem substituteOnce_rebound {φ : String → String} {t t' : Ty} {s : Subst} (h : Rebound φ t t') (ht : Built t)
    (hs : s.Forall fun r => Built r ∧ Fixes φ r) (clear : Uncaptured s t) (steadfast : Steadfast φ t') :
    Renamed φ (t.substituteOnce s) (t'.substituteOnce s) ∧ Faithful φ (t'.substituteOnce s) ∧
      ∀ n, Free n (t'.substituteOnce s) → φ n = n := by
  obtain ⟨rfl, faithful, free⟩ := h
  have fixed : s.Forall (Fixes φ) := fun e he => (hs e he).2
  have made : s.Forall Built := fun e he => (hs e he).1
  have stays : ∀ n, Within s t' n → φ n = n := by
    rintro n (hn | ⟨m, r, -, hr, hn⟩)
    · exact free n hn
    · exact (fixed.find? hr).free hn
  cases hm : t'.mentions s with
  | true =>
    obtain ⟨u', hu'⟩ := once_ends s [] t'
    have right : t'.substituteOnce s = u' := by rw [substituteOnce, if_pos hm, hu', Option.getD_some]
    have alongside : Alongside φ s s t' := by
      refine ⟨fun n hn => by rw [free n hn], fun a ha b hb he => ?_, faithful, fixed, ⟨made, made⟩, ht, steadfast⟩
      rwa [stays a ha, stays b hb] at he
    obtain ⟨u, hu, aligned⟩ := aligned_run hu' alongside clear
    have left : (t'.rename φ).substituteOnce s = u := Option.some.inj ((run_once ht s).symm.trans hu)
    rw [left, right]
    exact ⟨aligned.renamed, aligned.faithful, fun n hn => stays n (aligned.within n hn)⟩
  | false =>
    -- Nothing in the second type is replaced, and so nothing free in the first.
    have right : t'.substituteOnce s = t' := by rw [substituteOnce, if_neg (by rw [hm]; exact Bool.false_ne_true)]
    have cleared : Cleared s [] (t'.rename φ) := by
      intro m hr hf
      obtain ⟨n, hn, he⟩ := free_of_rename hf
      rw [free n hn] at he
      exact cleared_of_not_mentions hm m hr (he ▸ hn)
    have left : (t'.rename φ).substituteOnce s = t'.rename φ :=
      Option.some.inj ((run_once ht s).symm.trans (run_cleared ht cleared))
    rw [left, right]
    exact ⟨renamed_rename φ t', faithful, free⟩

/-! ### With capture and without -/

/-- Declares a placeholder for `string`. -/
def declaring (x : String) (yes : Ty) : Ty := conditional string (infer x absent) yes never false

/-- Maps `Y` to `X`. -/
def backToX (n : String) : String := if n = "Y" then "X" else n

theorem backToX_self {n : String} (h : n ≠ "Y") : backToX n = n := if_neg h

/-- `Y` in place of `X`. -/
theorem rebound_declaring {yes yes' : Ty} (back : yes'.rename backToX = yes) (quiet : yes'.occurs isConditional = false)
    (fresh : ∀ n, Free n yes' → n ≠ "X") : Rebound backToX (declaring "X" yes) (declaring "Y" yes') := by
  have plain : ∀ {u : Ty}, u.occurs isConditional = false → Faithful backToX u := by
    intro u hu
    refine (throughout_of_occurs (ι := Unit) (p := fun _ => isConditional) (q := fun _ => False) (fun _ => rfl) fun _ ho => by
      rw [hu] at ho; cases ho).imp fun v hv => ?_
    rintro _ _ _ _ _ rfl
    exact (hv () rfl).elim
  refine ⟨by rw [← back]; rfl, ⟨?_, ?_⟩, fun n hn => ?_⟩
  · rintro _ _ _ _ _ ⟨⟩ a ha b hb he
    have apart : ∀ n, n ∈ (infer "Y" absent).inferNames ∨ Free n yes' → n ≠ "X" := by
      rintro n (hn | hn)
      · rw [List.mem_singleton.1 hn]
        decide
      · exact fresh n hn
    have ha := apart a ha
    have hb := apart b hb
    unfold backToX at he
    grind
  · simp only [declaring, parts, List.forall_mem_cons]
    exact ⟨plain rfl, plain rfl, plain quiet, plain rfl, nofun⟩
  · refine backToX_self fun he => ?_
    rcases free_conditional.1 hn with hf | hf | hf | ⟨hx, -⟩
    · cases hf with
      | part hu => cases hu
    · cases hf with
      | part hu => cases hu
    · cases hf with
      | part hu => cases hu
    · exact hx (he ▸ List.mem_cons_self)

/-- `P` becomes `Q`; a parameter `X` would be replaced as well. -/
def lent : Subst := ⟨[("P", param "Q" absent absent), ("X", number)]⟩

theorem substituteOnce_rebound_pair :
    Rebound backToX (declaring "X" (tuple [param "X" absent absent, param "P" absent absent]))
        (declaring "Y" (tuple [param "Y" absent absent, param "P" absent absent])) ∧
      Renamed backToX ((declaring "X" (tuple [param "X" absent absent, param "P" absent absent])).substituteOnce lent)
        ((declaring "Y" (tuple [param "Y" absent absent, param "P" absent absent])).substituteOnce lent) ∧
      Faithful backToX ((declaring "Y" (tuple [param "Y" absent absent, param "P" absent absent])).substituteOnce lent) ∧
      ∀ n, Free n ((declaring "Y" (tuple [param "Y" absent absent, param "P" absent absent])).substituteOnce lent) →
        backToX n = n := by
  have free : ∀ {n a b : String}, Free n (tuple [param a absent absent, param b absent absent]) → n = a ∨ n = b := by
    intro n a b h
    obtain ⟨u, hu, hn⟩ := (free_iff rfl rfl).1 h
    simp only [parts, List.mem_cons, List.not_mem_nil, or_false] at hu
    rcases hu with rfl | rfl
    · exact .inl (free_param.1 hn)
    · exact .inr (free_param.1 hn)
  have rebound : Rebound backToX (declaring "X" (tuple [param "X" absent absent, param "P" absent absent]))
      (declaring "Y" (tuple [param "Y" absent absent, param "P" absent absent])) := by
    refine rebound_declaring rfl rfl fun n hn => ?_
    rcases free hn with rfl | rfl <;> decide
  have built : Built (declaring "X" (tuple [param "X" absent absent, param "P" absent absent])) :=
    built_conditional (absurd · Bool.false_ne_true) (built_atom rfl) (built_plain rfl (List.forall_mem_nil _))
      (built_plain rfl (List.forall_mem_cons.2 ⟨built_param "X", List.forall_mem_singleton.2 (built_param "P")⟩)) (built_atom rfl)
  have values : lent.Forall fun r => Built r ∧ Fixes backToX r :=
    Subst.forall_cons ⟨built_param "Q", fun _ h => Option.some.inj h ▸ rfl, List.forall_mem_nil _⟩
      (Subst.forall_cons ⟨built_atom rfl, fixes_concrete backToX rfl⟩ Subst.forall_empty)
  have clear : Uncaptured lent (declaring "X" (tuple [param "X" absent absent, param "P" absent absent])) := by
    have leaf : ∀ {s : Subst} {t : Ty}, t.isConditional = false → t.parts = [] → Uncaptured s t := fun hc hp =>
      .node hc fun u hu => by rw [hp] at hu; cases hu
    refine .whole rfl ⟨fun n r hn hd hr x hx hf => ?_, fun n r hn => ?_, fun x hx _ => hx⟩ ?_ ?_
    · rcases free hn with rfl | rfl
      · exact hd List.mem_cons_self
      · cases hr
        rw [List.mem_singleton.1 hx] at hf
        exact absurd (free_param.1 hf) (by decide)
    · cases hn with
      | part hu => cases hu
    · simp only [List.forall_mem_cons]
      exact ⟨leaf rfl rfl, leaf rfl rfl, leaf rfl rfl, List.forall_mem_nil _⟩
    · exact .node rfl (List.forall_mem_cons.2 ⟨leaf rfl rfl, List.forall_mem_singleton.2 (leaf rfl rfl)⟩)
  have steadfast : Steadfast backToX (declaring "Y" (tuple [param "Y" absent absent, param "P" absent absent])) := by
    have node : ∀ {t : Ty}, t.kind? ≠ some .intersection → (∀ u ∈ t.parts, Steadfast backToX u) → Steadfast backToX t := by
      intro t hk hp
      refine ⟨fun ms he => absurd ?_ hk, hp⟩
      rw [he]
      rfl
    have leaf : ∀ {t : Ty}, t.kind? ≠ some .intersection → t.parts = [] → Steadfast backToX t := fun hk hp =>
      node hk (hp ▸ List.forall_mem_nil _)
    refine node (by decide) ?_
    simp only [declaring, parts, List.forall_mem_cons]
    refine ⟨leaf (by decide) rfl, leaf (by decide) rfl, node (by decide) ?_, leaf (by decide) rfl, List.forall_mem_nil _⟩
    exact List.forall_mem_cons.2 ⟨leaf (by decide) rfl, List.forall_mem_singleton.2 (leaf (by decide) rfl)⟩
  exact ⟨rebound, substituteOnce_rebound rebound built values clear steadfast⟩

/-- `P` is replaced by the parameter `X`. If the conditional calls its placeholder `X`, the replacement is bound by it;
    if it calls it `Y`, the replacement is free. -/
theorem replacement_captured :
    Rebound backToX (declaring "X" (param "P" absent absent)) (declaring "Y" (param "P" absent absent)) ∧
      Built (declaring "X" (param "P" absent absent)) ∧ Fixes backToX (param "X" absent absent) ∧
      (declaring "X" (param "P" absent absent)).replaceParam "P" (param "X" absent absent) = declaring "X" (param "X" absent absent) ∧
      (declaring "Y" (param "P" absent absent)).replaceParam "P" (param "X" absent absent) = declaring "Y" (param "X" absent absent) ∧
      ¬Free "X" (declaring "X" (param "X" absent absent)) ∧ Free "X" (declaring "Y" (param "X" absent absent)) ∧
      ¬Faithful backToX (declaring "Y" (param "X" absent absent)) := by
  refine ⟨rebound_declaring rfl rfl fun n hn => ?_, ?_, ⟨fun _ h => Option.some.inj h ▸ rfl, List.forall_mem_nil _⟩, by cbv, by cbv, fun h => ?_, ?_,
    fun h => ?_⟩
  · rw [free_param.1 hn]
    decide
  · exact built_conditional (absurd · Bool.false_ne_true) (built_atom rfl) (built_plain rfl (List.forall_mem_nil _)) (built_param "P") (built_atom rfl)
  · rcases free_conditional.1 h with hf | hf | hf | ⟨hx, -⟩
    · cases hf with
      | part hu => cases hu
    · cases hf with
      | part hu => cases hu
    · cases hf with
      | part hu => cases hu
    · exact hx List.mem_cons_self
  · exact .yes (by decide) .here
  · have same : "Y" = "X" := h.node _ _ _ _ _ rfl (.inl List.mem_cons_self) (.inr .here) rfl
    exact absurd same (by decide)

end TypeCalculus.Substitute

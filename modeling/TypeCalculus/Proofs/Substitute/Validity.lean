import TypeCalculus.Proofs.Substitute.Steps
import TypeCalculus.Proofs.Ty.Validity

/-! Substitution keeps types where they may stand (`substitution_keeps_placement`). A replacement is checked by itself and
    comes to stand under bounds and in holes, so the induction is on the steps of a substitution in every place at once:
    a bound allows more than other places, and the normalising constructors leave out what a hole does not allow. -/

namespace TypeCalculus.Substitute
open Ty

/-- Every name is bound to no type, or to one that may stand by itself. -/
abbrev ValidBindings (s : Subst) : Prop := s.Forall fun t => t = absent ∨ Valid false t

section Step
variable {self : Subst → List String → Ty → Option Ty} {s : Subst} {opened : List String} {t u : Ty} {inBound : Bool}
  (hself : ∀ {s opened t u inBound}, ValidBindings s → Valid inBound t → self s opened t = some u → Valid inBound u)
include hself

/-- One step leaves valid types in every place, if the substitutions it is made of do. -/
theorem valid_step {chain : Bool} (hs : ValidBindings s) (ht : Valid inBound t) (h : Step self s opened chain t u) :
    Valid inBound u := by
  have replacement : ∀ {name r}, Replaced s opened name → s.find? name = some r → Valid false r := by
    rintro name r ⟨-, r', hr', present⟩ hr
    cases hr.symm.trans hr'
    exact (hs.find? hr).resolve_left present
  cases h with
  | kept => exact ht
  | replaced hr hf hu => exact (hself hs (replacement hr hf) hu).anywhere
  | taken hr hf => exact (replacement hr hf).anywhere
  | split hsplit hus =>
    obtain ⟨-, constraint, default, r, rfl, -, hr, ha⟩ := splits?_eq_some hsplit
    have checked : Valid false r := hself hs (valid_param.2 (valid_param.1 (valid_conditional.1 ht).1)) hr
    have members := alternatives_forall (P := Valid false) (valid_ordinary rfl).1 (fun _ => rfl) checked ha
    refine valid_unionOf (Results.option.mapM (fun m hm u hu => ?_) _ hus)
    exact hself (hs.insert _ (.inr (members m hm))) ht hu
  | whole hsplit hc hb hy hn =>
    obtain ⟨vc, vy, vn, vb⟩ := valid_conditional.1 ht
    exact valid_conditional.2 ⟨hself hs vc hc, hself (hs.without _) vy hy, hself hs vn hn, hself hs vb hb⟩
  | rebuilt hp hc hu =>
    exact (rebuilds_valid ht hp hc).results Results.option hp hc (fun v hv w hw => hself hs (valid_parts ht hp hc v hv) hw) u hu

end Step

theorem valid_run {chain : Bool} {s : Subst} {opened : List String} {t u : Ty} {inBound : Bool} (hs : ValidBindings s)
    (ht : Valid inBound t) (h : run chain s opened t = some u) : Valid inBound u := by
  have every : ValidBindings s → ∀ inBound, Valid inBound t → Valid inBound u :=
    run_induction (motive := fun s _ t u => ValidBindings s → ∀ inBound, Valid inBound t → Valid inBound u)
      (fun self hself s opened t u hstep hs inBound ht =>
        valid_step (fun hs ht h => (hself _ _ _ _ h).2 hs _ ht) hs ht hstep) h
  exact every hs inBound ht

end TypeCalculus.Substitute

namespace TypeCalculus.Ty
open Substitute

/-- A tree that may stand in a place may stand there after a substitution, chained or simultaneous, of types that may
    stand by themselves. -/
theorem substitution_keeps_placement {t : Ty} {s : Subst} {inBound : Bool} (ht : t.validateIn inBound = .ok ())
    (hs : ∀ e ∈ s.entries, e.2 = absent ∨ e.2.validate = .ok ()) :
    (t.substitute s).validateIn inBound = .ok () ∧ (t.substituteOnce s).validateIn inBound = .ok () ∧
      ∀ chain u, run chain s [] t = some u → u.validateIn inBound = .ok () := by
  have every : ∀ chain u, run chain s [] t = some u → u.validateIn inBound = .ok () := fun _ _ h => valid_run hs ht h
  refine ⟨?_, ?_, every⟩
  · unfold substitute
    split
    · cases h : run true s [] t with
      | none => exact ht
      | some u => exact every true u h
    · exact ht
  · unfold substituteOnce
    split
    · cases h : run false s [] t with
      | none => exact ht
      | some u => exact every false u h
    · exact ht

/-- A placeholder under a bound, and a hole for the replacement. -/
theorem substitution_keeps_placement_infer :
    let t := conditional (param "T" absent absent) (tuple [infer "X" absent]) (param "X" absent absent)
      (template [.text "not ", .hole (param "T" absent absent)]) true
    let s : Subst := ⟨[("T", prim .number)]⟩
    t.validateIn false = .ok () ∧ (t.substitute s).validateIn false = .ok () := by
  refine ⟨rfl, (substitution_keeps_placement rfl ?_).1⟩
  exact List.forall_mem_singleton.2 (.inr rfl)

end TypeCalculus.Ty

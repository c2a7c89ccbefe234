import TypeCalculus.Proofs.Substitute.Termination
import TypeCalculus.Proofs.Ty.Mirrored

/-! Substitution does not look at what is written beside parameters: in an annotated type and annotated bindings, it gives
    its result annotated, and it comes to an end where that does (`run_mirror`). -/

namespace TypeCalculus

/-! ### Bindings -/

namespace Subst
variable (α : Ty.Annotation)

/-- The bindings with their types annotated. -/
def mirror (s : Subst) : Subst := ⟨s.entries.map fun e => (e.1, e.2.annotated α)⟩

theorem find?_mirror (s : Subst) (name : String) : (s.mirror α).find? name = (s.find? name).map (Ty.annotated α) := by
  have lookup : ∀ es : List (String × Ty), (es.map fun e => (e.1, e.2.annotated α)).lookup name =
      (es.lookup name).map (Ty.annotated α) := by
    intro es
    induction es with
    | nil => rfl
    | cons e es ih =>
      rw [List.map_cons, List.lookup_cons, List.lookup_cons, ih]
      split <;> rfl
  exact lookup s.entries

theorem insert_mirror (s : Subst) (name : String) (t : Ty) :
    (s.insert name t).mirror α = (s.mirror α).insert name (t.annotated α) := by
  have entries : ∀ es : List (String × Ty), (insertEntry name t es).map (fun e => (e.1, e.2.annotated α)) =
      insertEntry name (t.annotated α) (es.map fun e => (e.1, e.2.annotated α)) := by
    intro es
    induction es with
    | nil => rfl
    | cons e es ih =>
      rw [insertEntry, List.map_cons, insertEntry]
      split
      · rfl
      · split
        · rfl
        · rw [List.map_cons, ih]
  exact congrArg Subst.mk (entries s.entries)

theorem without_mirror (s : Subst) (names : List String) : (s.without names).mirror α = (s.mirror α).without names := by
  unfold without mirror
  rw [List.filter_map]
  rfl

theorem ofList_mirror (entries : List (String × Ty)) :
    (ofList entries).mirror α = ofList (entries.map fun e => (e.1, e.2.annotated α)) := by
  have fold : ∀ s : Subst, (entries.foldl (fun s e => s.insert e.1 e.2) s).mirror α =
      (entries.map fun e => (e.1, e.2.annotated α)).foldl (fun s e => s.insert e.1 e.2) (s.mirror α) := by
    induction entries with
    | nil => exact fun _ => rfl
    | cons e entries ih =>
      intro s
      rw [List.foldl_cons, ih, insert_mirror]
      rfl
  exact fold {}

end Subst

/-! ### Substitution -/

namespace Substitute
open Ty
variable (α : Annotation)

theorem alternatives?_annotated (t : Ty) : alternatives? (t.annotated α) = (alternatives? t).map (annotatedAll α) := by
  cases t with
  | prim p => cases p <;> rfl
  | _ => rfl

theorem isAbsent_annotated (t : Ty) : (t.annotated α).isAbsent = t.isAbsent := by
  cases t <;> rfl

theorem replaced_mirror {s : Subst} {opened : List String} {name : String} :
    Replaced (s.mirror α) opened name ↔ Replaced s opened name := by
  refine and_congr_right fun _ => ?_
  rw [Subst.find?_mirror]
  constructor
  · rintro ⟨u, hf, present⟩
    obtain ⟨t, ht, rfl⟩ := Option.map_eq_some_iff.1 hf
    exact ⟨t, ht, fun he => present (congrArg (annotated α) he)⟩
  · rintro ⟨t, ht, present⟩
    refine ⟨_, Option.map_eq_some_iff.2 ⟨t, ht, rfl⟩, fun he => present ?_⟩
    rw [← isAbsent_iff, ← isAbsent_annotated α t, he]
    rfl

section Step
variable (K : Kindred Option Option) {self self' : Subst → List String → Ty → Option Ty}
  (hself : ∀ s opened t, K.All (Image α) (self s opened t) (self' (s.mirror α) opened (t.annotated α)))
include hself

theorem kindred_splits? (s : Subst) (opened : List String) (check : Ty) (distribute : Bool) :
    K.All (fun split split' => split' = split.map fun e => (e.1, annotatedAll α e.2)) (splits? self s opened check distribute)
      (splits? self' (s.mirror α) opened (check.annotated α) distribute) := by
  cases check with
  | param name constraint default =>
    have waits : (((s.mirror α).find? name).getD absent).isAbsent = ((s.find? name).getD absent).isAbsent := by
      rw [Subst.find?_mirror]
      cases s.find? name with
      | none => rfl
      | some t => exact isAbsent_annotated α t
    rw [annotated, splits?, splits?, waits]
    split
    · refine K.bind (hself s opened (param name constraint default)) ?_
      rintro r _ rfl
      refine K.pure ?_
      rw [alternatives?_annotated, Option.map_map, Option.map_map]
      rfl
    · exact K.pure rfl
  | _ => exact K.pure rfl

theorem kindred_param (chain : Bool) (s : Subst) (opened : List String) (name : String) (constraint default : Ty) :
    K.All (Image α) (step chain self s opened (param name constraint default))
      (step chain self' (s.mirror α) opened ((param name constraint default).annotated α)) := by
  by_cases h : Replaced s opened name
  · obtain ⟨-, t, hf, -⟩ := id h
    have hf' : (s.mirror α).find? name = some (t.annotated α) := by rw [Subst.find?_mirror, hf]; rfl
    rw [annotated, step_replaced h hf, step_replaced ((replaced_mirror α).2 h) hf']
    split
    · exact hself _ _ _
    · exact K.pure rfl
  · rw [annotated, step_kept h, step_kept (mt (replaced_mirror α).1 h)]
    exact K.pure rfl

theorem kindred_conditional (chain : Bool) (s : Subst) (opened : List String) (check bound yes no : Ty) (distribute : Bool) :
    K.All (Image α) (step chain self s opened (conditional check bound yes no distribute))
      (step chain self' (s.mirror α) opened ((conditional check bound yes no distribute).annotated α)) := by
  rw [annotated, step, step]
  refine K.bind (kindred_splits? α K hself s opened check distribute) ?_
  rintro split _ rfl
  cases split with
  | some split =>
    obtain ⟨name, members⟩ := split
    refine K.bind (K.mapM_types α fun m _ => ?_) ?_
    · rw [← Subst.insert_mirror]
      exact hself _ _ (conditional check bound yes no distribute)
    · rintro us _ rfl
      exact K.pure (unionOf_annotated α us).symm
  | none =>
    refine K.bind (hself s opened check) ?_
    rintro check' _ rfl
    refine K.bind (hself s opened bound) ?_
    rintro bound' _ rfl
    refine K.bind (hself s opened no) ?_
    rintro no' _ rfl
    rw [inferNames_annotated, ← Subst.without_mirror]
    refine K.bind (hself _ opened yes) ?_
    rintro yes' _ rfl
    have param : (check'.annotated α).isParam = check'.isParam := by cases check' <;> rfl
    rw [param]
    exact K.pure rfl

/-- A step in an annotated type goes along with one in the type. -/
theorem kindred_step (chain : Bool) (s : Subst) (opened : List String) (t : Ty) :
    K.All (Image α) (step chain self s opened t) (step chain self' (s.mirror α) opened (t.annotated α)) := by
  have plain : t.isParam = false → t.isConditional = false → (t.annotated α).isParam = false →
      (t.annotated α).isConditional = false →
        K.All (Image α) (step chain self s opened t) (step chain self' (s.mirror α) opened (t.annotated α)) := by
    intro hp hc hp' hc'
    rw [step_plain hp hc, step_plain hp' hc']
    exact K.rebuild α fun u _ => hself s opened u
  cases t with
  | param name constraint default => exact kindred_param α K hself chain s opened name constraint default
  | conditional check bound yes no distribute => exact kindred_conditional α K hself chain s opened check bound yes no distribute
  | _ => exact plain rfl rfl rfl rfl

end Step

/-- The second step has the results of the first, in their place others that are related to them. -/
def tracking : Kindred Option Option where
  All R x y := ∀ a, x = some a → ∃ b, y = some b ∧ R a b
  pure h a e := by
    cases e
    exact ⟨_, rfl, h⟩
  bind hx hf c h := by
    obtain ⟨a, ha, hc⟩ := Option.bind_eq_some_iff.1 h
    obtain ⟨b, rfl, hr⟩ := hx a ha
    exact hf a b hr c hc

/-- The first step has the results of the second, in their place others to which they are related. -/
def tracked : Kindred Option Option where
  All R x y := ∀ b, y = some b → ∃ a, x = some a ∧ R a b
  pure h b e := by
    cases e
    exact ⟨_, rfl, h⟩
  bind hx hf c h := by
    obtain ⟨b, hb, hc⟩ := Option.bind_eq_some_iff.1 h
    obtain ⟨a, rfl, hr⟩ := hx b hb
    exact hf a b hr c hc

theorem run_tracked (chain : Bool) (s : Subst) (opened : List String) (t : Ty) :
    tracking.All (Image α) (run chain s opened t) (run chain (s.mirror α) opened (t.annotated α)) := by
  refine fun u hu => run_induction (motive := fun s opened t u => ∃ u', run chain (s.mirror α) opened (t.annotated α) = some u' ∧
    Image α u u') (fun self hself s opened t u h => ?_) hu
  rw [run]
  exact kindred_step α tracking (fun s opened t u hu => (hself s opened t u hu).2) chain s opened t u (step_iff.2 h)

theorem run_tracked_back (chain : Bool) (s : Subst) (opened : List String) (t : Ty) :
    tracked.All (Image α) (run chain s opened t) (run chain (s.mirror α) opened (t.annotated α)) := by
  refine fun u' hu' => run_induction (motive := fun s' opened t' u' => ∀ s t, s' = s.mirror α → t' = t.annotated α →
    ∃ u, run chain s opened t = some u ∧ Image α u u') (fun self hself s' opened t' u' h => ?_) hu' s t rfl rfl
  rintro s t rfl rfl
  rw [run]
  exact kindred_step α tracked (fun s opened t u' hu => (hself _ _ _ u' hu).2 s t rfl rfl) chain s opened t u' (step_iff.2 h)

/-- Substitution in an annotated type gives the result annotated, if there is one. -/
theorem run_mirror (chain : Bool) (s : Subst) (opened : List String) (t : Ty) :
    run chain (s.mirror α) opened (t.annotated α) = (run chain s opened t).map (annotated α) := by
  cases hr : run chain s opened t with
  | some u =>
    obtain ⟨_, hu, rfl⟩ := run_tracked α chain s opened t u hr
    exact hu
  | none =>
    refine Option.eq_none_iff_forall_ne_some.2 fun u' hu' => ?_
    obtain ⟨u, hu, -⟩ := run_tracked_back α chain s opened t u' hu'
    cases hr.symm.trans hu

end Substitute
end TypeCalculus

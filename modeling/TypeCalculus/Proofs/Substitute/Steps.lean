import TypeCalculus.Proofs.Substitute
import TypeCalculus.Proofs.Ty.Inherited

/-! The ways a substitution takes a step, and induction over the steps that lead to a result. -/

namespace TypeCalculus.Substitute
open Ty

/-- The name is bound to a type and not being replaced already. -/
def Replaced (s : Subst) (opened : List String) (name : String) : Prop :=
  name ∉ opened ∧ ∃ t, s.find? name = some t ∧ t ≠ absent

theorem isAbsent_iff {t : Ty} : t.isAbsent = true ↔ t = absent := by
  cases t <;> simp [isAbsent]

/-- What one step of a substitution may give, where `self` substitutes in parts and replacements. -/
inductive Step (self : Subst → List String → Ty → Option Ty) (s : Subst) (opened : List String) : Bool → Ty → Ty → Prop
  | kept {chain : Bool} {name : String} {constraint default : Ty} :
    ¬Replaced s opened name → Step self s opened chain (param name constraint default) (param name constraint default)
  | replaced {name : String} {constraint default t u : Ty} :
    Replaced s opened name → s.find? name = some t → self s (name :: opened) t = some u →
      Step self s opened true (param name constraint default) u
  | taken {name : String} {constraint default t : Ty} :
    Replaced s opened name → s.find? name = some t → Step self s opened false (param name constraint default) t
  | split {chain distribute : Bool} {check bound yes no : Ty} {name : String} {members us : List Ty} :
    splits? self s opened check distribute = some (some (name, members)) →
      members.mapM (fun m => self (s.insert name m) opened (conditional check bound yes no distribute)) = some us →
      Step self s opened chain (conditional check bound yes no distribute) (unionOf us)
  | whole {chain distribute : Bool} {check bound yes no check' bound' yes' no' : Ty} :
    splits? self s opened check distribute = some none → self s opened check = some check' →
      self s opened bound = some bound' → self (s.without bound.inferNames) opened yes = some yes' →
      self s opened no = some no' →
      Step self s opened chain (conditional check bound yes no distribute)
        (conditional check' bound' yes' no' (check'.isParam && distribute))
  | rebuilt {chain : Bool} {t u : Ty} : t.isParam = false → t.isConditional = false → t.rebuild (self s opened) = some u →
      Step self s opened chain t u

section Step
variable {self : Subst → List String → Ty → Option Ty} {chain : Bool} {s : Subst} {opened : List String} {t u : Ty}

theorem step_kept {name : String} {constraint default : Ty} (h : ¬Replaced s opened name) :
    step chain self s opened (param name constraint default) = some (param name constraint default) := by
  simp only [step]
  split
  · rfl
  · rfl
  · rename_i r hne hf
    rw [if_pos]
    exact List.contains_iff_mem.2 (Classical.not_not.1 fun ho => h ⟨ho, r, hf, fun he => hne he⟩)

theorem step_replaced {name : String} {constraint default r : Ty} (h : Replaced s opened name) (hf : s.find? name = some r) :
    step chain self s opened (param name constraint default) = if chain then self s (name :: opened) r else some r := by
  obtain ⟨ho, r', hf', hne⟩ := h
  cases hf.symm.trans hf'
  simp only [step, hf]
  rw [if_neg (by simpa using ho)]

/-- Types that are neither parameters nor conditionals are rebuilt from their parts. -/
theorem step_plain (hp : t.isParam = false) (hc : t.isConditional = false) :
    step chain self s opened t = t.rebuild (self s opened) := by
  cases t with
  | param => cases hp
  | conditional => cases hc
  | _ => rfl

theorem step_param {name : String} {constraint default : Ty} :
    step chain self s opened (param name constraint default) = some u ↔
      Step self s opened chain (param name constraint default) u := by
  constructor
  · intro h
    by_cases hr : Replaced s opened name
    · obtain ⟨-, r, hf, -⟩ := id hr
      rw [step_replaced hr hf] at h
      cases chain with
      | true => exact .replaced hr hf h
      | false =>
        cases h
        exact .taken hr hf
    · cases (step_kept hr).symm.trans h
      exact .kept hr
  · intro h
    cases h with
    | kept hr => exact step_kept hr
    | replaced hr hf h => exact (step_replaced hr hf).trans h
    | taken hr hf => exact step_replaced hr hf
    | rebuilt h => cases h

theorem step_conditional {check bound yes no : Ty} {distribute : Bool} :
    step chain self s opened (conditional check bound yes no distribute) = some u ↔
      Step self s opened chain (conditional check bound yes no distribute) u := by
  simp only [step]
  constructor
  · intro h
    obtain ⟨split, hs, h⟩ := Option.bind_eq_some_iff.1 h
    split at h
    · obtain ⟨us, hus, h⟩ := Option.bind_eq_some_iff.1 h
      cases h
      exact .split hs hus
    · obtain ⟨c, hc, h⟩ := Option.bind_eq_some_iff.1 h
      obtain ⟨b, hb, h⟩ := Option.bind_eq_some_iff.1 h
      obtain ⟨n, hn, h⟩ := Option.bind_eq_some_iff.1 h
      obtain ⟨y, hy, h⟩ := Option.bind_eq_some_iff.1 h
      cases h
      exact .whole hs hc hb hy hn
  · intro h
    cases h with
    | split hs hus => exact Option.bind_eq_some_iff.2 ⟨_, hs, Option.bind_eq_some_iff.2 ⟨_, hus, rfl⟩⟩
    | whole hs hc hb hy hn =>
      refine Option.bind_eq_some_iff.2 ⟨_, hs, Option.bind_eq_some_iff.2 ⟨_, hc, Option.bind_eq_some_iff.2 ⟨_, hb, ?_⟩⟩⟩
      exact Option.bind_eq_some_iff.2 ⟨_, hn, Option.bind_eq_some_iff.2 ⟨_, hy, rfl⟩⟩
    | rebuilt _ h => cases h

theorem step_iff : step chain self s opened t = some u ↔ Step self s opened chain t u := by
  cases t with
  | param => exact step_param
  | conditional => exact step_conditional
  | _ =>
    constructor
    · exact fun h => .rebuilt rfl rfl h
    · intro h
      cases h with
      | rebuilt _ _ h => exact h

/-- A conditional splits when it distributes over a parameter whose replacement has alternatives. -/
theorem splits?_eq_some {check : Ty} {distribute : Bool} {name : String} {members : List Ty}
    (h : splits? self s opened check distribute = some (some (name, members))) :
    distribute = true ∧ ∃ constraint default r, check = param name constraint default ∧ Replaced s opened name ∧
      self s opened check = some r ∧ alternatives? r = some members := by
  unfold splits? at h
  split at h
  · rename_i n c d
    dsimp only at h
    split at h
    · rename_i hopen
      obtain ⟨r, hr, ha⟩ := Option.bind_eq_some_iff.1 h
      obtain ⟨ms, hms, he⟩ := Option.map_eq_some_iff.1 (Option.some.inj ha)
      cases he
      simp only [Bool.and_eq_true, Bool.not_eq_true', Bool.or_eq_false_iff, List.contains_eq_mem,
        decide_eq_false_iff_not] at hopen
      obtain ⟨hd, ho, hne⟩ := hopen
      refine ⟨hd, c, d, r, rfl, ⟨ho, ?_⟩, hr, hms⟩
      cases hf : s.find? name with
      | none =>
        rw [hf] at hne
        cases hne
      | some t =>
        refine ⟨t, rfl, ?_⟩
        rintro rfl
        rw [hf] at hne
        cases hne
    · cases h
  · cases h

/-- Whether a conditional splits is known as soon as its checked parameter is replaced. -/
theorem splits?_ends {check : Ty} {distribute : Bool} (h : ∃ r, self s opened check = some r) :
    ∃ split, splits? self s opened check distribute = some split := by
  obtain ⟨r, hr⟩ := h
  unfold splits?
  split
  · dsimp only
    split
    · exact ⟨_, Option.bind_eq_some_iff.2 ⟨r, hr, rfl⟩⟩
    · exact ⟨_, rfl⟩
  · exact ⟨_, rfl⟩

end Step

/-- What every step hands on from the substitutions it is made of holds of every result. -/
theorem run_induction {chain : Bool} {motive : Subst → List String → Ty → Ty → Prop}
    (h : ∀ self : Subst → List String → Ty → Option Ty,
      (∀ s opened t u, self s opened t = some u → run chain s opened t = some u ∧ motive s opened t u) →
        ∀ s opened t u, Step self s opened chain t u → motive s opened t u)
    {s : Subst} {opened : List String} {t u : Ty} (hu : run chain s opened t = some u) : motive s opened t u := by
  refine (Subst.run.partial_correctness chain (fun s opened t u => run chain s opened t = some u ∧ motive s opened t u)
    (fun self hself s opened t u hstep => ⟨?_, h self hself s opened t u (step_iff.1 hstep)⟩) s opened t u hu).2
  rw [run]
  exact step_extend (fun s opened t u hu => (hself s opened t u hu).1) chain s opened t u hstep

theorem run_iff {chain : Bool} {s : Subst} {opened : List String} {t u : Ty} :
    run chain s opened t = some u ↔ Step (run chain) s opened chain t u := by
  rw [← step_iff, ← run]

end TypeCalculus.Substitute

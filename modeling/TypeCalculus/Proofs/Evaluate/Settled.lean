import TypeCalculus.Proofs.Ty.Annotated
import TypeCalculus.Proofs.Ty.Rebuilt
import TypeCalculus.Proofs.Evaluate.NormalForm
import TypeCalculus.Proofs.Evaluate.Runs

/-! Results of evaluations are settled: wherever an operator, a conditional or a name is left in one, its operands
    are such that it stays (`Stays`). The branches of a conditional that stays are not evaluated, so nothing is said
    of them. Evaluating a settled type gives it back: its parts do, and the constructors leave what they made. -/

namespace TypeCalculus.Evaluate
open Ty (Normal Throughout Inherited Operated)

/-! ### Settled types -/

/-- The parts of a type that are evaluated along with it. -/
def evaluatedParts : Ty → List Ty
  | .conditional check bound _ _ _ => [check, bound]
  | t => t.parts

/-- Evaluation leaves the node as it is, once its parts are evaluated. -/
def Stays (env : Env) : Ty → Prop
  | .union members => .absent ∉ members
  | .intersection members => Ty.Met members
  | .conditional check bound _ _ _ => (check.hasFreeParams || bound.hasFreeParams) = true
  | .reference name _ => env.decls.declares name = false
  | .keyOf target => target.hidesKeys = true
  | .access target index => (target.isConcrete && index.isConcrete) = false
  | .mapping _ arg => arg.isMappable = false
  | _ => True

/-- Every evaluated node of the tree is left as it is. -/
def Settled (env : Env) : Ty → Prop := Throughout evaluatedParts fun t => isReducible env t = false ∨ Stays env t

theorem mem_parts_of_evaluated {t u : Ty} (h : u ∈ evaluatedParts t) : u ∈ t.parts := by
  cases t with
  | conditional check bound yes no distribute =>
    simp only [evaluatedParts, List.mem_cons, List.not_mem_nil, or_false] at h
    rcases h with rfl | rfl <;> simp [Ty.parts]
  | _ => exact h

theorem evaluatedParts_eq {t : Ty} (h : t.isConditional = false) : evaluatedParts t = t.parts := by
  cases t with
  | conditional => cases h
  | _ => rfl

theorem isReducible_of_part {env : Env} {t u : Ty} (hu : u ∈ t.parts) (h : isReducible env u = true) :
    isReducible env t = true :=
  Ty.occurs_of_part rfl hu h

section Settled
variable {env : Env}

/-- What holds nothing to evaluate is settled. -/
theorem settled_of_irreducible {t : Ty} (h : isReducible env t = false) : Settled env t := by
  induction t using Ty.parts_induction with
  | step t ih =>
    refine ⟨Or.inl h, fun u hu => ?_⟩
    have hp := mem_parts_of_evaluated hu
    refine ih u hp ?_
    rw [Bool.eq_false_iff] at h ⊢
    exact fun hr => h (isReducible_of_part hp hr)

theorem inherited_settled : Inherited (Settled env) := by
  refine Ty.inherited_throughout (fun {t} ht => evaluatedParts_eq ?_) (fun _ => rfl) (fun _ => rfl) (fun {t} ht => ?_)
    (fun ha => Or.inr ha) fun hm => Or.inr hm
  · cases t with
    | conditional => cases ht
    | _ => rfl
  · cases t with
    | union | intersection | param | infer | conditional | reference | keyOf | access | mapping => cases ht
    | _ => exact Or.inr trivial

theorem settled_conditional {check bound yes no : Ty} {distribute : Bool} (hc : Settled env check)
    (hb : Settled env bound) (hf : (check.hasFreeParams || bound.hasFreeParams) = true) :
    Settled env (.conditional check bound yes no distribute) := by
  refine ⟨Or.inr hf, fun u hu => ?_⟩
  rcases List.mem_cons.1 hu with rfl | hu
  · exact hc
  · exact List.mem_singleton.1 hu ▸ hb

theorem operated_settled : Operated (Settled env) := by
  refine inherited_settled.operated (fun ht h => ⟨Or.inr ht, fun u hu => ?_⟩) (fun ht h => ⟨Or.inr ht, fun u hu => ?_⟩)
    fun hc ht hi => ⟨Or.inr hc, fun u hu => ?_⟩
  · exact List.mem_singleton.1 hu ▸ h
  · exact List.mem_singleton.1 hu ▸ h
  · rcases List.mem_cons.1 hu with rfl | hu
    · exact ht
    · exact List.mem_singleton.1 hu ▸ hi

/-! ### Every result is settled -/

section Step
variable {self : Ty → Evaluating Ty} (hself : ∀ t, Yields (Settled env) (self t))
include hself

theorem settled_resolve {check bound yes no : Ty} {distribute : Bool} (hc : Settled env check)
    (hb : Settled env bound) : Yields (Settled env) (resolve env self check bound yes no distribute) := by
  unfold resolve
  split
  · exact Results.evaluating.pure (settled_conditional hc hb ‹_›)
  · dsimp only
    split
    · refine Results.evaluating.bind (hself _) fun t ht => Results.evaluating.bind (hself _) fun u hu => ?_
      exact Results.evaluating.pure (inherited_settled.unionOf_pair ht hu)
    · refine Yields.after fun p => Yields.after fun _ => Yields.after fun _ => ?_
      split
      · exact hself _
      · exact hself _

theorem settled_expand (name : String) (args : List Ty) : Yields (Settled env) (expand env self name args) := by
  refine Results.evaluating.bind (Results.evaluating.mapM fun t _ => hself t) fun args hargs => ?_
  split
  · rename_i hf
    have undeclared : env.decls.declares name = false := by rw [Declarations.declares, hf]; rfl
    exact Results.evaluating.pure ⟨Or.inr undeclared, hargs⟩
  · exact Yields.after fun s => Yields.after fun _ => hself _

/-- Of the types that are not built by a constructor, only placeholders are rebuilt. -/
theorem settled_rebuild {t : Ty} (ht : t.kind? ∉ [Kind.param, .conditional, .reference, .keyOf, .access, .mapping].map some) :
    Yields (Settled env) (t.rebuild self) := by
  have hp : t.isParam = false := by cases t <;> first | rfl | exact absurd (by simp [Ty.kind?]) ht
  have hc : t.isConditional = false := by cases t <;> first | rfl | exact absurd (by simp [Ty.kind?]) ht
  refine inherited_settled.rebuild Results.evaluating hp hc (fun {u} hk hparts hu => ?_) fun u _ => hself u
  rw [← hk] at ht
  have same : u.isConditional = false ∧ Stays env u := by
    cases u with
    | infer => exact ⟨rfl, trivial⟩
    | param | conditional | reference | keyOf | access | mapping => exact absurd (by simp [Ty.kind?]) ht
    | _ => rcases hu with hu | hu <;> cases hu
  refine ⟨Or.inr same.2, fun v hv => hparts v ?_⟩
  rwa [evaluatedParts_eq same.1] at hv

theorem settled_reduceStep (t : Ty) : Yields (Settled env) (reduceStep env self t) := by
  cases t with
  | conditional =>
    refine Yields.holding ?_ env _ _ _
    refine Results.evaluating.bind (hself _) fun c hc => Results.evaluating.bind (hself _) fun b hb => ?_
    exact settled_resolve hself hc hb
  | reference => exact settled_expand hself _ _
  | keyOf => exact Results.evaluating.bind (hself _) fun u hu => Results.evaluating.pure (operated_settled.keysOf u hu)
  | access =>
    refine Results.evaluating.bind (hself _) fun u hu => Results.evaluating.bind (hself _) fun i hi => ?_
    exact yields_ofExcept fun v hv => operated_settled.indexed hu hi hv
  | mapping => exact Results.evaluating.bind (hself _) fun u hu => Results.evaluating.pure (operated_settled.mapped _ u hu)
  | param => exact Results.evaluating.pure (settled_of_irreducible rfl)
  | _ => exact settled_rebuild hself (by simp [Ty.kind?])

end Step

/-- Every result of an evaluation is settled. -/
theorem settled_reduce (room : Nat) (t : Ty) : Yields (Settled env) (reduce env room t) := by
  induction room generalizing t with
  | zero =>
    rw [reduce]
    split
    · exact yields_throw _
    · exact Results.evaluating.pure (settled_of_irreducible (Bool.eq_false_iff.2 ‹_›))
  | succ room ih =>
    rw [reduce]
    split
    · exact (settled_reduceStep ih t).nested
    · exact Results.evaluating.pure (settled_of_irreducible (Bool.eq_false_iff.2 ‹_›))

end Settled

/-! ### Settled types evaluate to themselves -/

/-- What a step gives, started while only conditionals larger than `n` are open: a result, with the same conditionals
    open as before, or the report that it nests too deep. -/
def settling (n : Nat) : Results Evaluating where
  All P x := ∀ r : Resolution, (∀ o ∈ r.stack, n < o.conditional.size) →
    (∃ a, (x.run r).1 = .ok a ∧ P a ∧ (x.run r).2.stack = r.stack) ∨ ∃ limit t, (x.run r).1 = .error (.tooDeep limit t)
  pure h r _ := Or.inl ⟨_, rfl, h, rfl⟩
  bind {_ _ _ _ x f} hx hf r hr := by
    change (∃ b, (ExceptT.bindCont f (x.run r).1 (x.run r).2).1 = .ok b ∧ _ ∧
      (ExceptT.bindCont f (x.run r).1 (x.run r).2).2.stack = r.stack) ∨
      ∃ limit t, (ExceptT.bindCont f (x.run r).1 (x.run r).2).1 = .error (.tooDeep limit t)
    rcases hx r hr with ⟨a, ha, hp, hs⟩ | ⟨limit, t, he⟩
    · rw [ha]
      have next := hf a hp (x.run r).2 (by rwa [hs])
      rw [hs] at next
      exact next
    · rw [he]
      exact Or.inr ⟨limit, t, rfl⟩

section Settling
variable {α : Type} {P : α → Prop} {x : Evaluating α}

theorem settling_mono {m n : Nat} (h : m ≤ n) (hx : (settling m).All P x) : (settling n).All P x :=
  fun r hr => hx r fun o ho => Nat.lt_of_le_of_lt h (hr o ho)

theorem settling_tooDeep (n limit : Nat) (t : Ty) : (settling n).All P (throw (.tooDeep limit t) : Evaluating α) :=
  fun _ _ => Or.inr ⟨limit, t, rfl⟩

theorem settling_nested {n : Nat} (hx : (settling n).All P x) : (settling n).All P (nested x) :=
  fun r hr => hx r.enter hr

/-- A conditional smaller than those open is not among them, so it is entered. -/
theorem settling_holding {n : Nat} {env : Env} {c check bound : Ty} (hn : n < c.size) (hx : (settling n).All P x) :
    (settling c.size).All P (holding env c check bound x) := by
  intro r hr
  rcases run_holding env c check bound x r with ⟨opened, hs, -, he⟩ | ⟨-, ⟨o, ho, hi⟩, -⟩
  · have larger : ∀ o ∈ opened.stack, n < o.conditional.size := by
      intro o ho
      rw [hs] at ho
      rcases List.mem_cons.1 ho with rfl | ho
      · exact hn
      · exact Nat.lt_trans hn (hr o ho)
    rw [he]
    rcases hx opened larger with ⟨a, ha, hpa, ho⟩ | hd
    · exact Or.inl ⟨a, ha, hpa, stack_pop (ho.trans hs)⟩
    · exact Or.inr hd
  · have same : o.conditional.size = c.size := by
      rw [← Ty.size_annotated Ty.bare o.conditional, ← Ty.size_annotated Ty.bare c]
      exact congrArg Ty.size ((Ty.identical_iff _ _).1 hi)
    have := hr o ho
    omega

end Settling

/-- What is asked of a kind of results, told by the size of what is open, to hold of a step that leaves a type as it is. -/
structure Enters (env : Env) (R : Nat → Results Evaluating) : Prop where
  mono : ∀ {α : Type} {P : α → Prop} {x : Evaluating α} {m n : Nat}, m ≤ n → (R m).All P x → (R n).All P x
  nested : ∀ {α : Type} {P : α → Prop} {x : Evaluating α} {n : Nat}, (R n).All P x → (R n).All P (nested x)
  holding : ∀ {α : Type} {P : α → Prop} {x : Evaluating α} {n : Nat} {c check bound : Ty}, n < c.size →
    (R n).All P x → (R c.size).All P (holding env c check bound x)

/-- What is asked of a kind of results to hold of the evaluation of settled types in whatever room. -/
structure Admits (env : Env) (R : Nat → Results Evaluating) : Prop extends Enters env R where
  tooDeep : ∀ {α : Type} {P : α → Prop} (n limit : Nat) (t : Ty), (R n).All P (throw (.tooDeep limit t) : Evaluating α)

theorem admits_settling (env : Env) : Admits env settling where
  mono := settling_mono
  nested := settling_nested
  holding := settling_holding
  tooDeep := settling_tooDeep

section Admits
variable {env : Env} {R : Nat → Results Evaluating}

/-- A node that stays is left by one step, if its parts are. -/
theorem Enters.reduceStep (A : Enters env R) {self : Ty → Evaluating Ty} {t : Ty} (hn : Ty.NodeForm t) (hs : Stays env t)
    (part : ∀ u ∈ evaluatedParts t, ∀ n, u.size ≤ n → (R n).All (· = u) (self u)) :
    (R t.size).All (· = t) (reduceStep env self t) := by
  have whole : ∀ u ∈ evaluatedParts t, (R t.size).All (· = u) (self u) := fun u hu =>
    part u hu t.size (Nat.le_of_lt (Ty.size_lt_of_part (mem_parts_of_evaluated hu)))
  have rebuilt : t.isConditional = false → (R t.size).All (· = t) (t.rebuild self) := by
    intro hc
    refine Ty.rebuild_self (R t.size) hn ?_ ?_ hc fun u hu => whole u (by rwa [evaluatedParts_eq hc])
    · rintro ms rfl
      exact hs
    · rintro ms rfl
      exact hs
  cases t with
  | conditional check bound yes no distribute =>
    have free : (check.hasFreeParams || bound.hasFreeParams) = true := hs
    have flag : (check.isParam && distribute) = distribute := by
      cases distribute with
      | false => exact Bool.and_false _
      | true => rw [hn rfl]; rfl
    have stays : (R (check.size + bound.size)).All (· = .conditional check bound yes no distribute)
        (resolve env self check bound yes no distribute) := by
      unfold resolve
      rw [if_pos free, flag]
      exact (R _).pure rfl
    refine A.holding (n := check.size + bound.size) (by simp only [Ty.size]; omega) ?_
    refine (R _).bind (part check List.mem_cons_self _ (by omega)) fun c hc => ?_
    refine (R _).bind (part bound (List.mem_cons_of_mem _ List.mem_cons_self) _ (by omega)) fun b hb => ?_
    rw [hc, hb]
    exact stays
  | reference name args =>
    refine (R _).bind (Ty.mapM_self (R _) whole) fun us hus => ?_
    rw [hus]
    split
    · exact (R _).pure rfl
    · rename_i hf
      have hs : (env.decls.find? name).isSome = false := hs
      rw [hf] at hs
      cases hs
  | keyOf target =>
    refine (R _).bind (whole target List.mem_cons_self) fun u hu => (R _).pure ?_
    rw [hu, Ty.keysOf_hidden hs]
  | access target index =>
    refine (R _).bind (whole target List.mem_cons_self) fun u hu => ?_
    refine (R _).bind (whole index (List.mem_cons_of_mem _ List.mem_cons_self)) fun i hi => ?_
    rw [hu, hi, Ty.indexed_open hs]
    exact (R _).pure rfl
  | mapping op arg =>
    refine (R _).bind (whole arg List.mem_cons_self) fun u hu => (R _).pure ?_
    rw [hu, Ty.mapped_stuck op hs]
  | _ => exact rebuilt rfl

/-- With more room than none, a settled type in normal form is left as its parts are. -/
theorem Enters.reduce_succ (A : Enters env R) {room : Nat} {t : Ty} (hn : Normal t) (hs : Settled env t)
    (part : ∀ u ∈ evaluatedParts t, Normal u → Settled env u → (R u.size).All (· = u) (Evaluate.reduce env room u)) :
    (R t.size).All (· = t) (Evaluate.reduce env (room + 1) t) := by
  rw [Evaluate.reduce]
  split
  · rename_i hr
    have stays : Stays env t := by
      rcases hs.node with h | h
      · rw [hr] at h
        cases h
      · exact h
    refine A.nested (A.reduceStep hn.form stays fun u hu n hle => ?_)
    have child : u ∈ t.children := by
      cases t with
      | param => cases hu
      | _ => exact mem_parts_of_evaluated hu
    exact A.mono hle (part u hu (hn.child child) (hs.under hu))
  · exact (R t.size).pure rfl

/-- Evaluating a settled type in normal form gives it back. -/
theorem Admits.reduce (A : Admits env R) (room : Nat) {t : Ty} (hn : Normal t) (hs : Settled env t) :
    (R t.size).All (· = t) (reduce env room t) := by
  induction room generalizing t with
  | zero =>
    rw [Evaluate.reduce]
    split
    · exact A.tooDeep _ _ _
    · exact (R t.size).pure rfl
  | succ room ih => exact A.reduce_succ hn hs fun u _ hn hs => ih hn hs

/-- There is room enough for a settled type in as much room as it has nodes. -/
theorem Enters.reduce_fitting (A : Enters env R) {room : Nat} {t : Ty} (hn : Normal t) (hs : Settled env t)
    (fits : t.size ≤ room) : (R t.size).All (· = t) (Evaluate.reduce env room t) := by
  induction room generalizing t with
  | zero => exact absurd (Ty.size_pos t) (by omega)
  | succ room ih =>
    refine A.reduce_succ hn hs fun u hu hn hs => ih hn hs ?_
    have := Ty.size_lt_of_part (mem_parts_of_evaluated hu)
    omega

end Admits

/-- Evaluating a settled type in normal form gives it back, unless it nests too deep. -/
theorem reduce_settled {env : Env} (room : Nat) {t : Ty} (hn : Normal t) (hs : Settled env t) :
    (settling t.size).All (· = t) (reduce env room t) :=
  (admits_settling env).reduce room hn hs

/-- What a step gives that does not nest too deep. -/
def shallow : Results Evaluating where
  All P x := ∀ r, (∀ limit t, (x.run r).1 ≠ .error (.tooDeep limit t)) ∧ ∀ a, (x.run r).1 = .ok a → P a
  pure h _ := ⟨nofun, fun _ e => Except.ok.inj e ▸ h⟩
  bind {_ _ _ _ x f} hx hf r := by
    cases hr : (x.run r).1 with
    | error e =>
      rw [run_bind_error hr]
      refine ⟨fun limit t he => ?_, nofun⟩
      cases he
      exact (hx r).1 limit t hr
    | ok a =>
      rw [run_bind_ok hr]
      exact hf a ((hx r).2 a hr) _

theorem enters_shallow (env : Env) : Enters env fun _ => shallow where
  mono _ h := h
  nested h r := h r.enter
  holding {_ _ x _ c check bound} _ h r := by
    rcases run_holding env c check bound x r with ⟨opened, -, -, he⟩ | ⟨-, -, he⟩
    · rw [he]
      exact h opened
    · rw [he]
      exact ⟨nofun, nofun⟩

/-- Evaluating a settled type gives it back where there is room for it. -/
theorem reduce_settled_fitting {env : Env} {room : Nat} {t : Ty} (hn : Normal t) (hs : Settled env t) (fits : t.size ≤ room)
    {r : Resolution} (hr : ∀ o ∈ r.stack, t.size < o.conditional.size) : ((reduce env room t).run r).1 = .ok t := by
  rcases reduce_settled room hn hs r hr with ⟨u, hu, rfl, -⟩ | ⟨limit, u, he⟩
  · exact hu
  · exact absurd he (((enters_shallow env).reduce_fitting hn hs fits r).1 limit u)

/-! ### Annotations do not matter -/

section Annotated
variable (α : Ty.Annotation) {env : Env}

theorem evaluatedParts_annotated (t : Ty) : evaluatedParts (t.annotated α) = (evaluatedParts t).map (Ty.annotated α) := by
  have all := Ty.parts_annotated α t
  cases t with
  | conditional => rfl
  | _ => exact all

theorem isReducible_annotated (t : Ty) : isReducible env (t.annotated α) = isReducible env t :=
  Ty.occurs_annotated α rfl (fun u => by cases u <;> rfl) t

theorem stays_annotated (t : Ty) : Stays env (t.annotated α) ↔ Stays env t := by
  cases t with
  | union members =>
    change Ty.absent ∉ Ty.annotatedAll α members ↔ Ty.absent ∉ members
    rw [Ty.absent_mem_annotatedAll]
  | intersection members => exact Ty.met_annotated α
  | conditional check bound yes no distribute =>
    change ((check.annotated α).hasFreeParams || (bound.annotated α).hasFreeParams) = true ↔ _
    rw [Ty.hasFreeParams_annotated, Ty.hasFreeParams_annotated]
    rfl
  | keyOf target => cases target <;> rfl
  | access target index =>
    change ((target.annotated α).isConcrete && (index.annotated α).isConcrete) = false ↔ _
    rw [Ty.isConcrete_annotated, Ty.isConcrete_annotated]
    rfl
  | mapping op arg => cases arg <;> rfl
  | _ => rfl

theorem settled_annotated (t : Ty) : Settled env (t.annotated α) ↔ Settled env t :=
  Ty.throughout_annotated α (evaluatedParts_annotated α) fun u => by rw [isReducible_annotated, stays_annotated]

end Annotated

/-- Whatever is identical to a settled type is settled. -/
theorem Settled.of_identical {env : Env} {t u : Ty} (h : Settled env t) (hi : t.identical u = true) : Settled env u := by
  have erased : Settled env t.erased := (settled_annotated _ t).2 h
  rw [(Ty.identical_iff t u).1 hi] at erased
  exact (settled_annotated _ u).1 erased

theorem Settled.of_decls {env env' : Env} (hd : env'.decls = env.decls) {t : Ty} (h : Settled env t) : Settled env' t := by
  refine Throughout.imp (fun u hu => ?_) h
  unfold isReducible Stays at hu ⊢
  rw [hd]
  exact hu

end TypeCalculus.Evaluate

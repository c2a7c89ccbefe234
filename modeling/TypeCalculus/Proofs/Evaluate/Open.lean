import TypeCalculus.Proofs.Evaluate.Concur
import TypeCalculus.Proofs.Ty.Lasting

/-! What a type comes to, read off its root: frames are made of what their parts come to, and operators and conditionals
    go by their operands. Operands that stay open leave them in place (`Opens`). -/

namespace TypeCalculus.Evaluate
open Ty (Normal Free)

/-! ### Frames -/

/-- Evaluation makes the node of its evaluated parts. -/
def isFrame (env : Env) : Ty → Bool
  | .array .. | .tuple _ | .function .. | .object .. => true
  | .reference name _ => !env.decls.declares name
  | _ => false

section Frame
variable {env : Env} {t u : Ty}

theorem isRow_of_frame (h : isFrame env t = true) : t.isRow = true := by
  cases t <;> first | rfl | cases h

theorem isParam_of_frame (h : isFrame env t = true) : t.isParam = false := by
  cases t <;> first | rfl | cases h

theorem isConditional_of_frame (h : isFrame env t = true) : t.isConditional = false := by
  cases t <;> first | rfl | cases h

theorem isFrame_rebuild (hn : Ty.NodeForm t) (h : isFrame env t = true) {f : Ty → Option Ty} (hu : t.rebuild f = some u) :
    isFrame env u = true := by
  obtain ⟨us, -, -, rfl⟩ := Ty.rebuild_row_eq_some hn (isRow_of_frame h) hu
  cases t <;> exact h

theorem reduceStep_frame (h : isFrame env t = true) (self : Ty → Evaluating Ty) : reduceStep env self t = t.rebuild self := by
  cases t with
  | array | tuple | function | object => rfl
  | reference name args =>
    have undeclared : env.decls.find? name = none := by
      simpa [isFrame, Declarations.declares] using h
    rw [reduceStep, expand, undeclared]
    rfl
  | _ => cases h

/-- Steps that give a result at once. -/
def returning : Results Evaluating where
  All P x := ∃ a, x = pure a ∧ P a
  pure h := ⟨_, rfl, h⟩
  bind hx hf := by
    obtain ⟨a, rfl, ha⟩ := hx
    rw [pure_bind]
    exact hf a ha

/-- A frame that holds nothing to evaluate is rebuilt as it is. -/
theorem rebuild_irreducible (hn : Normal t) (h : isFrame env t = true) (hi : isReducible env t = false) (room : Nat) :
    t.rebuild (reduce env room) = pure t := by
  have part : ∀ v ∈ t.parts, isReducible env v = false := by
    intro v hv
    rw [Bool.eq_false_iff] at hi ⊢
    exact fun hr => hi (isReducible_of_part hv hr)
  obtain ⟨u, hu, rfl⟩ := @Ty.rebuild_self _ _ _ returning (reduce env room) t hn.form (by rintro _ rfl; cases h)
    (by rintro _ rfl; cases h) (isConditional_of_frame h) fun v hv => ⟨v, reduce_irreducible (part v hv) room, rfl⟩
  exact hu

/-- Steps that give what an optional result says. -/
def telling : Linked Evaluating Option where
  All P x y := ∀ r a, (x.run r).1 = .ok a → y = some a ∧ P a
  pure h _ _ e := by
    cases e
    exact ⟨rfl, h⟩
  bind {_ _ _ _ x _ _ _} hx hf r b h := by
    cases hr : (x.run r).1 with
    | error e =>
      rw [run_bind_error hr] at h
      cases h
    | ok a =>
      rw [run_bind_ok hr] at h
      obtain ⟨rfl, ha⟩ := hx r a hr
      exact hf a ha _ b h

open Classical in
/-- What a frame comes to is rebuilt from what its parts come to. -/
theorem Comes.frame (hc : Comes env t u) (hn : Normal t) (h : isFrame env t = true) :
    ∃ f : Ty → Option Ty, t.rebuild f = some u ∧ ∀ v ∈ t.parts, ∀ w, f v = some w → Comes env v w := by
  let f : Ty → Option Ty := fun v => if hv : ∃ w, Comes env v w then some hv.choose else none
  have comes : ∀ v w, Comes env v w → f v = some w := by
    intro v w hw
    have hv : ∃ w, Comes env v w := ⟨w, hw⟩
    rw [show f v = some hv.choose from dif_pos hv, hv.choose_spec.unique hw]
  have rebuilt : ∀ room, telling.All (fun _ => True) (t.rebuild (reduce env room)) (t.rebuild f) := by
    refine fun room => Ty.carried_true.rebuild telling trivial fun v _ r w hw => ⟨comes v w ⟨room, r, hw⟩, trivial⟩
  refine ⟨f, ?_, fun v _ w hw => ?_⟩
  · obtain ⟨room, r, hc⟩ := hc
    cases hr : isReducible env t with
    | false =>
      rw [reduce_irreducible hr, ← rebuild_irreducible hn h hr room] at hc
      exact (rebuilt room r u hc).1
    | true =>
      cases room with
      | zero =>
        rw [reduce_zero hr] at hc
        cases hc
      | succ room =>
        rw [reduce_succ hr, run_nested, reduceStep_frame h] at hc
        exact (rebuilt room r.enter u hc).1
  · by_cases hv : ∃ w, Comes env v w
    · rw [show f v = some hv.choose from dif_pos hv] at hw
      exact Option.some.inj hw ▸ hv.choose_spec
    · rw [show f v = none from dif_neg hv] at hw
      cases hw

/-- The evaluation of a frame concurs with a step, if its rebuilding does. -/
theorem concur_frame {lax lax' : Prop} {P : Ty → Prop} {y : Evaluating Ty} (hn : Normal t) (h : isFrame env t = true)
    (hy : ∀ room, Concur lax lax' P (t.rebuild (reduce env room)) y) (room : Nat) :
    Concur lax lax' P (reduce env room t) y := by
  cases hr : isReducible env t with
  | false =>
    rw [reduce_irreducible hr, ← rebuild_irreducible hn h hr 0]
    exact hy 0
  | true =>
    cases room with
    | zero =>
      rw [reduce_zero hr]
      exact concur_tooDeep _ _
    | succ room =>
      rw [reduce_succ hr, reduceStep_frame h]
      exact fun r r' => hy room r.enter r'

end Frame

/-! ### Operators and conditionals -/

section Operators
variable {env : Env}

/-- What a type with something to evaluate comes to is what a step gives. -/
@[elab_as_elim]
theorem Comes.step {t r : Ty} (h : Comes env t r) (ht : isReducible env t = true) {P : Ty → Prop}
    (hs : ∀ room, Yields P (reduceStep env (reduce env room) t)) : P r := by
  obtain ⟨room, st, h⟩ := h
  cases room with
  | zero =>
    rw [reduce_zero ht] at h
    cases h
  | succ room =>
    rw [reduce_succ ht] at h
    exact (hs room).nested st r h

theorem Comes.keyOf {t r : Ty} (h : Comes env (.keyOf t) r) : ∃ u, Comes env t u ∧ r = u.keysOf :=
  Comes.step h rfl fun room => Results.evaluating.bind (yields_comes room t) fun u hu => Results.evaluating.pure ⟨u, hu, rfl⟩

theorem Comes.mapping {op : Mapping} {t r : Ty} (h : Comes env (.mapping op t) r) : ∃ u, Comes env t u ∧ r = u.mapped op :=
  Comes.step h rfl fun room => Results.evaluating.bind (yields_comes room t) fun u hu => Results.evaluating.pure ⟨u, hu, rfl⟩

theorem Comes.access {t i r : Ty} (h : Comes env (.access t i) r) :
    ∃ u j, Comes env t u ∧ Comes env i j ∧ Ty.indexed u j = .ok r :=
  Comes.step h rfl fun room => Results.evaluating.bind (yields_comes room t) fun u hu =>
    Results.evaluating.bind (yields_comes room i) fun j hj => yields_ofExcept fun _ hv => ⟨u, j, hu, hj, hv⟩

theorem Comes.conditional {check bound yes no r : Ty} {distribute : Bool}
    (h : Comes env (.conditional check bound yes no distribute) r) :
    ∃ c b, Comes env check c ∧ Comes env bound b ∧
      ∃ room st, ((resolve env (reduce env room) c b yes no distribute).run st).1 = .ok r :=
  Comes.step h rfl fun room => by
    refine Yields.holding ?_ env _ _ _
    refine Results.evaluating.bind (yields_comes room check) fun c hc => ?_
    exact Results.evaluating.bind (yields_comes room bound) fun b hb st v hv => ⟨c, b, hc, hb, room, st, hv⟩

/-- A conditional whose operands have free parameters comes to one. -/
theorem resolve_open {self : Ty → Evaluating Ty} {check bound yes no : Ty} {distribute : Bool}
    (h : (check.hasFreeParams || bound.hasFreeParams) = true) :
    resolve env self check bound yes no distribute = pure (.conditional check bound yes no (check.isParam && distribute)) := by
  rw [resolve, if_pos h]

theorem concur_step {lax lax' : Prop} {P : Ty → Prop} {t u : Ty} (ht : isReducible env t = true) (hu : isReducible env u = true)
    (h : ∀ room room', Concur lax lax' P (reduceStep env (reduce env room) t) (reduceStep env (reduce env room') u))
    (room room' : Nat) : Concur lax lax' P (reduce env room t) (reduce env room' u) := by
  cases room with
  | zero =>
    rw [reduce_zero ht]
    exact concur_tooDeep _ _
  | succ room =>
    rw [reduce_succ ht]
    cases room' with
    | zero =>
      rw [reduce_zero hu]
      exact (concur_tooDeep _ _).symm
    | succ room' =>
      rw [reduce_succ hu]
      exact (h room room').nested

end Operators

/-! ### What stays open -/

/-- Whatever the type comes to has a free parameter; where it is `hidden`, it is an operator, a conditional or a
    parameter, whose keys are not known. -/
inductive Opens (env : Env) : (hidden : Bool) → Ty → Prop
  | param {hidden : Bool} {name : String} {constraint default : Ty} : Opens env hidden (.param name constraint default)
  | keyOf {hidden : Bool} {t : Ty} : Opens env true t → Opens env hidden (.keyOf t)
  | mapping {hidden : Bool} {op : Mapping} {t : Ty} : Opens env true t → Opens env hidden (.mapping op t)
  | target {hidden : Bool} {t i : Ty} : Opens env false t → Opens env hidden (.access t i)
  | index {hidden : Bool} {t i : Ty} : Opens env false i → Opens env hidden (.access t i)
  | check {hidden distribute : Bool} {check bound yes no : Ty} : Opens env false check →
      Opens env hidden (.conditional check bound yes no distribute)
  | bound {hidden distribute : Bool} {check bound yes no : Ty} : Opens env false bound →
      Opens env hidden (.conditional check bound yes no distribute)
  | within {t u : Ty} : isFrame env t = true → u ∈ t.parts → Opens env false u → Opens env false t

section Opens
variable {env : Env}

theorem hasFreeParams_of_free {x : String} {t : Ty} (h : Free x t) : t.hasFreeParams = true := by
  rw [← Bool.not_eq_false, Ty.hasFreeParams_eq_false]
  exact fun hn => hn x h

/-- An index or a target with a free parameter leaves the operator in place. -/
theorem indexed_of_free {x : String} {t i : Ty} (h : Free x t ∨ Free x i) : Ty.indexed t i = .ok (.access t i) := by
  refine Ty.indexed_open ?_
  rcases h with h | h
  · rw [Ty.not_concrete_of_free h, Bool.false_and]
  · rw [Ty.not_concrete_of_free h, Bool.and_false]

/-- What an open type comes to. -/
theorem Opens.comes {hidden : Bool} {t r : Ty} (ho : Opens env hidden t) (hn : Normal t) (hr : Comes env t r) :
    (∃ x, Free x r) ∧ (hidden = true → r.hidesKeys = true ∧ r.isMappable = false) := by
  induction ho generalizing r with
  | @param _ name =>
    cases hr.of_settled hn (settled_of_irreducible rfl)
    exact ⟨⟨name, .here⟩, fun _ => ⟨rfl, rfl⟩⟩
  | keyOf _ ih =>
    obtain ⟨u, hu, rfl⟩ := hr.keyOf
    obtain ⟨⟨x, hx⟩, hides⟩ := ih (hn.child List.mem_cons_self) hu
    rw [Ty.keysOf_hidden (hides rfl).1]
    exact ⟨⟨x, .part List.mem_cons_self hx⟩, fun _ => ⟨rfl, rfl⟩⟩
  | mapping _ ih =>
    obtain ⟨u, hu, rfl⟩ := hr.mapping
    obtain ⟨⟨x, hx⟩, hides⟩ := ih (hn.child List.mem_cons_self) hu
    rw [Ty.mapped_stuck _ (hides rfl).2]
    exact ⟨⟨x, .part List.mem_cons_self hx⟩, fun _ => ⟨rfl, rfl⟩⟩
  | target _ ih =>
    obtain ⟨u, j, hu, hj, hi⟩ := hr.access
    obtain ⟨⟨x, hx⟩, -⟩ := ih (hn.child List.mem_cons_self) hu
    rw [indexed_of_free (.inl hx)] at hi
    cases hi
    exact ⟨⟨x, .part List.mem_cons_self hx⟩, fun _ => ⟨rfl, rfl⟩⟩
  | index _ ih =>
    obtain ⟨u, j, hu, hj, hi⟩ := hr.access
    obtain ⟨⟨x, hx⟩, -⟩ := ih (hn.child (List.mem_cons_of_mem _ List.mem_cons_self)) hj
    rw [indexed_of_free (.inr hx)] at hi
    cases hi
    exact ⟨⟨x, .part (List.mem_cons_of_mem _ List.mem_cons_self) hx⟩, fun _ => ⟨rfl, rfl⟩⟩
  | check _ ih =>
    obtain ⟨c, b, hc, hb, room, st, hres⟩ := hr.conditional
    obtain ⟨⟨x, hx⟩, -⟩ := ih (hn.child (by simp [Ty.children, Ty.parts])) hc
    rw [resolve_open (by rw [hasFreeParams_of_free hx]; rfl)] at hres
    cases hres
    exact ⟨⟨x, .part (by simp [Ty.openParts]) hx⟩, fun _ => ⟨rfl, rfl⟩⟩
  | bound _ ih =>
    obtain ⟨c, b, hc, hb, room, st, hres⟩ := hr.conditional
    obtain ⟨⟨x, hx⟩, -⟩ := ih (hn.child (by simp [Ty.children, Ty.parts])) hb
    rw [resolve_open (by rw [hasFreeParams_of_free hx, Bool.or_true])] at hres
    cases hres
    exact ⟨⟨x, .part (by simp [Ty.openParts]) hx⟩, fun _ => ⟨rfl, rfl⟩⟩
  | @within t u hf hu _ ih =>
    obtain ⟨f, hr, comes⟩ := hr.frame hn hf
    obtain ⟨v, hv, huv⟩ := Ty.partner (Ty.parts_rebuild hn.form (isRow_of_frame hf) hr) hu
    have child : u ∈ t.children := by
      cases t with
      | param => cases hf
      | _ => exact hu
    obtain ⟨⟨x, hx⟩, -⟩ := ih (hn.child child) (comes u hu v huv)
    have framed := isFrame_rebuild hn.form hf hr
    exact ⟨⟨x, (Ty.free_iff (isParam_of_frame framed) (isConditional_of_frame framed)).2 ⟨v, hv, hx⟩⟩, fun h => by cases h⟩

end Opens

end TypeCalculus.Evaluate

import TypeCalculus.Proofs.Evaluate.Passing
import TypeCalculus.Proofs.Substitute.Mirrored

/-! Evaluation does not look at what is written beside parameters: of an annotated type it gives the result of the type,
    annotated (`mirrored_reduce`). Where types are compared, they are evaluated and hold no parameters
    (`unbound_of_closed`); elsewhere annotations are only handed on. -/

namespace TypeCalculus

/-! ### Operators -/

namespace Ty
variable (α : Annotation)

theorem operated_annotatedBy : Operated (AnnotatedBy α) where
  atom {t} ht := by
    cases t <;> first | rfl | cases ht
  part {t u} _ h hu := by
    have fixed : t.parts.map (annotated α) = t.parts.map id := by
      rw [← parts_annotated, List.map_id]
      exact congrArg parts h
    exact List.map_inj_left.1 fixed u hu
  unionMember {ms m} h hm := by
    have fixed : ms.map (annotated α) = ms.map id := by
      rw [← annotatedAll_eq, List.map_id]
      exact union.inj h
    exact List.map_inj_left.1 fixed m hm
  unionOf {ts} h := (unionOf_annotated α ts).trans (congrArg _ (annotatedAll_self α h))
  meetMember {ms m} h hm := by
    have fixed : ms.map (annotated α) = ms.map id := by
      rw [← annotatedAll_eq, List.map_id]
      exact intersection.inj h
    exact List.map_inj_left.1 fixed m hm
  meetOf {ts} h := (meetOf_annotated α ts).trans (congrArg _ (annotatedAll_self α h))
  templateOf {segments} h := (templateOf_annotated α segments).trans (congrArg _ (annotatedSegments_self α h))
  keyOf _ h := congrArg keyOf h
  mapping {op t} _ h := congrArg (mapping op) h
  access {t i} _ ht hi := (congrArg (access · (i.annotated α)) ht).trans (congrArg (access t) hi)

mutual

theorem keysOf_annotated : (t : Ty) → (t.annotated α).keysOf = t.keysOf.annotated α
  | object ps i => by
    have keys : (annotatedProps α ps).map (fun p => keyLiteral p.key) = ps.map fun p => keyLiteral p.key := by
      rw [annotatedProps_eq, List.map_map]
      rfl
    have signature : indexKeys (annotatedIndex α i) = indexKeys i := by cases i <;> rfl
    have itself : AnnotatedBy α (unionOf (ps.map (fun p => keyLiteral p.key) ++ indexKeys i)) := by
      refine (operated_annotatedBy α).unionOf fun t ht => ?_
      rcases List.mem_append.1 ht with ht | ht
      · obtain ⟨p, -, rfl⟩ := List.mem_map.1 ht
        exact (operated_annotatedBy α).keyLiteral p.key
      · exact (operated_annotatedBy α).indexKeys i t ht
    rw [annotated, keysOf, keysOf, keys, signature]
    exact itself.symm
  | tuple elems => by
    have positions : ∀ (i : Nat) (ts : List Ty), positionKeys i (annotatedAll α ts) = positionKeys i ts := by
      intro i ts
      induction ts generalizing i with
      | nil => rfl
      | cons t ts ih => exact congrArg (_ :: ·) (ih (i + 1))
    have itself : AnnotatedBy α (unionOf (positionKeys 0 elems ++ [number, stringLit lengthKey])) := by
      refine (operated_annotatedBy α).unionOf fun t ht => ?_
      rcases List.mem_append.1 ht with ht | ht
      · exact (operated_annotatedBy α).positionKeys 0 elems t ht
      · exact (operated_annotatedBy α).sequenceKeys t ht
    rw [annotated, keysOf, keysOf, positions]
    exact itself.symm
  | array elem readonly => by
    have itself : AnnotatedBy α (unionOf [number, stringLit lengthKey]) :=
      (operated_annotatedBy α).unionOf fun t ht => (operated_annotatedBy α).sequenceKeys t ht
    rw [annotated, keysOf, keysOf]
    exact itself.symm
  | union ms => by rw [annotated, keysOf, keysOf, keysOfAll_annotated ms, meetOf_annotated]
  | intersection ms => by rw [annotated, keysOf, keysOf, keysOfAll_annotated ms, unionOf_annotated]
  | any | never => ((operated_annotatedBy α).anyKey).symm
  | absent | unknown | void | prim _ | literal .. | template _ | param .. | infer .. | conditional .. | reference ..
  | function .. | keyOf _ | access .. | mapping .. => rfl

theorem keysOfAll_annotated : (ts : List Ty) → keysOfAll (annotatedAll α ts) = annotatedAll α (keysOfAll ts)
  | [] => rfl
  | t :: ts => by rw [annotatedAll, keysOfAll, keysOf_annotated t, keysOfAll_annotated ts, keysOfAll, annotatedAll]

end

mutual

theorem mapped_annotated (op : Mapping) : (t : Ty) → (t.annotated α).mapped op = (t.mapped op).annotated α
  | literal base text => ((operated_annotatedBy α).mapped op (literal base text) rfl).symm
  | union ms => by rw [annotated, mapped, mapped, mappedAll_annotated op ms, unionOf_annotated]
  | template xs => by rw [annotated, mapped, mapped, mappedSegments_annotated op true xs, templateOf_annotated]
  | prim p => by cases p <;> rfl
  | absent | any | unknown | void | never | object .. | array .. | tuple _ | intersection _ | param .. | infer ..
  | conditional .. | reference .. | function .. | keyOf _ | access .. | mapping .. => rfl

theorem mappedAll_annotated (op : Mapping) : (ts : List Ty) →
    mappedAll op (annotatedAll α ts) = annotatedAll α (mappedAll op ts)
  | [] => rfl
  | t :: ts => by
    rw [annotatedAll, mappedAll, mapped_annotated op t, mappedAll_annotated op ts, mappedAll, annotatedAll]

theorem mappedSegments_annotated (op : Mapping) : (leading : Bool) → (xs : List (Segment Ty)) →
    mappedSegments op leading (annotatedSegments α xs) = annotatedSegments α (mappedSegments op leading xs)
  | _, [] => rfl
  | leading, .text s :: xs => by
    rw [annotatedSegments, mappedSegments, mappedSegments_annotated op false xs, mappedSegments]
    split <;> rfl
  | leading, .hole t :: xs => by
    rw [annotatedSegments, mappedSegments, mapped_annotated op t, mappedSegments_annotated op false xs, mappedSegments]
    split <;> rfl

end

/-- An index is only looked up where both operands hold no parameters. -/
theorem indexed_annotated (t i : Ty) : indexed (t.annotated α) (i.annotated α) = (indexed t i).map (annotated α) := by
  by_cases known : (t.isConcrete && i.isConcrete) = true
  · have ht := annotated_concrete α (Bool.and_eq_true_iff.1 known).1
    have hi := annotated_concrete α (Bool.and_eq_true_iff.1 known).2
    rw [ht, hi]
    cases h : indexed t i with
    | error => rfl
    | ok u => exact congrArg Except.ok ((operated_annotatedBy α).indexed ht hi h).symm
  · have waiting := Bool.eq_false_iff.2 known
    have waiting' : ((t.annotated α).isConcrete && (i.annotated α).isConcrete) = false := by
      rwa [isConcrete_annotated, isConcrete_annotated]
    rw [indexed_open waiting, indexed_open waiting']
    rfl

end Ty

/-! ### Declarations -/

section Declarations
variable (α : Ty.Annotation)

def ParamDecl.mirror (p : ParamDecl) : ParamDecl := ⟨p.name, p.constraint.annotated α, p.default.annotated α⟩

def Declaration.mirror (d : Declaration) : Declaration := ⟨d.name, d.params.map (ParamDecl.mirror α), d.body.annotated α⟩

def Declarations.mirror (ds : Declarations) : Declarations := ⟨ds.entries.map (Declaration.mirror α)⟩

theorem Declarations.find?_mirror (ds : Declarations) (name : String) :
    (ds.mirror α).find? name = (ds.find? name).map (Declaration.mirror α) := List.find?_map ..

end Declarations

namespace Evaluate
open Ty (annotatedAll Image)
variable (α : Ty.Annotation)

/-- The environment with the types of its declarations annotated. -/
def Env.mirror (env : Env) : Env := { env with decls := env.decls.mirror α }

theorem isReducible_mirror (env : Env) (t : Ty) : isReducible (env.mirror α) (t.annotated α) = isReducible env t := by
  have declares : ∀ name, (env.mirror α).decls.declares name = env.decls.declares name := fun name => by
    rw [Declarations.declares, Env.mirror, Declarations.find?_mirror, Option.isSome_map]
    rfl
  rw [← isReducible_annotated α t, isReducible, isReducible]
  simp only [declares]

/-! ### Steps side by side -/

/-- The same conditionals are open, annotated in the second state. -/
structure Resolution.Mirrors (r r' : Resolution) : Prop where
  stack : r'.stack = r.stack.map fun o => ⟨o.conditional.annotated α, o.hash⟩
  active : r'.active = r.active

theorem mirrors_start : Resolution.Mirrors α {} {} := ⟨rfl, rfl⟩

/-- Both steps give results, which are related, and leave the same conditionals open; or both fail. -/
def Mirrors {β γ : Type} (R : β → γ → Prop) (x : Evaluating β) (y : Evaluating γ) : Prop :=
  ∀ r r' : Resolution, r.Mirrors α r' →
    (∃ a b, (x.run r).1 = .ok a ∧ (y.run r').1 = .ok b ∧ R a b ∧ (x.run r).2.Mirrors α (y.run r').2) ∨
      (∃ e, (x.run r).1 = .error e) ∧ ∃ e, (y.run r').1 = .error e

section Mirrors
variable {α} {β γ δ ε : Type} {R : β → γ → Prop} {S : δ → ε → Prop} {x : Evaluating β} {y : Evaluating γ}

theorem mirrors_pure {a : β} {b : γ} (h : R a b) : Mirrors α R (pure a) (pure b) :=
  fun _ _ hr => .inl ⟨a, b, rfl, rfl, h, hr⟩

theorem mirrors_throw {e e' : TypeError} : Mirrors α R (throw e) (throw e') := fun _ _ _ => .inr ⟨⟨e, rfl⟩, e', rfl⟩

theorem mirrors_bind {f : β → Evaluating δ} {g : γ → Evaluating ε} (hx : Mirrors α R x y)
    (hf : ∀ a b, R a b → Mirrors α S (f a) (g b)) : Mirrors α S (x >>= f) (y >>= g) := by
  intro r r' hr
  rcases hx r r' hr with ⟨a, b, ha, hb, hab, next⟩ | ⟨⟨e, he⟩, e', he'⟩
  · rw [run_bind_ok ha, run_bind_ok hb]
    exact hf a b hab _ _ next
  · rw [run_bind_error he, run_bind_error he']
    exact .inr ⟨⟨e, rfl⟩, e', rfl⟩

/-- Of the first result more may be known. -/
theorem Mirrors.bind_of {P : β → Prop} {f : β → Evaluating δ} {g : γ → Evaluating ε} (hx : Mirrors α R x y)
    (hp : Yields P x) (hf : ∀ a b, P a → R a b → Mirrors α S (f a) (g b)) : Mirrors α S (x >>= f) (y >>= g) := by
  intro r r' hr
  rcases hx r r' hr with ⟨a, b, ha, hb, hab, next⟩ | ⟨⟨e, he⟩, e', he'⟩
  · rw [run_bind_ok ha, run_bind_ok hb]
    exact hf a b (hp r a ha) hab _ _ next
  · rw [run_bind_error he, run_bind_error he']
    exact .inr ⟨⟨e, rfl⟩, e', rfl⟩

theorem mirrors_tell (event event' : Resolution → Event) :
    Mirrors α (fun _ _ : Unit => True) (get >>= fun r => report (event r)) (get >>= fun r => report (event' r)) :=
  fun _ _ hr => .inl ⟨(), (), rfl, rfl, trivial, hr.stack, hr.active⟩

theorem mirrors_report (event event' : Event) : Mirrors α (fun _ _ : Unit => True) (report event) (report event') :=
  fun _ _ hr => .inl ⟨(), (), rfl, rfl, trivial, hr.stack, hr.active⟩

theorem mirrors_compare (o : Assignable.Options) (a b : Ty) :
    Mirrors α (fun p q => q = p ∧ p = ((Assignable.run o a b).1, (Assignable.run o a b).2.captures)) (compare o a b)
      (compare o a b) :=
  fun _ _ hr => .inl ⟨_, _, rfl, rfl, ⟨rfl, rfl⟩, hr.stack, hr.active⟩

theorem Mirrors.nested (h : Mirrors α R x y) : Mirrors α R (nested x) (nested y) := by
  intro r r' hr
  rcases h r.enter r'.enter ⟨hr.stack, hr.active⟩ with ⟨a, b, ha, hb, hab, next⟩ | failed
  · exact .inl ⟨a, b, ha, hb, hab, next.stack, next.active⟩
  · exact .inr failed

theorem Mirrors.reporting (event event' : TypeError → Event) (h : Mirrors α R x y) :
    Mirrors α R (reporting event x) (reporting event' y) := by
  intro r r' hr
  rcases h r r' hr with ⟨a, b, ha, hb, hab, next⟩ | ⟨⟨e, he⟩, e', he'⟩
  · rw [run_reporting_ok (Prod.ext ha rfl), run_reporting_ok (Prod.ext hb rfl)]
    exact .inl ⟨a, b, rfl, rfl, hab, next⟩
  · rw [run_reporting_error (Prod.ext he rfl), run_reporting_error (Prod.ext he' rfl)]
    exact .inr ⟨⟨e, rfl⟩, e', rfl⟩

theorem push?_mirrors {r r' : Resolution} (h : r.Mirrors α r') (c : Ty) :
    r.push? c = none ∧ r'.push? (c.annotated α) = none ∨ ∃ opened opened', r.push? c = some opened ∧
      r'.push? (c.annotated α) = some opened' ∧ opened.Mirrors α opened' := by
  have found : r'.stack.any (·.conditional.identical (c.annotated α)) = r.stack.any (·.conditional.identical c) := by
    rw [h.stack, List.any_map]
    exact congrArg (r.stack.any ·) (funext fun o => Ty.identical_annotated α o.conditional c)
  have stack : (⟨c.annotated α, c.hash⟩ : Open) :: r'.stack =
      ((⟨c, c.hash⟩ : Open) :: r.stack).map fun o => ⟨o.conditional.annotated α, o.hash⟩ := by
    rw [h.stack, List.map_cons]
  unfold Resolution.push?
  dsimp only
  rw [Ty.hash_annotated, h.active, found]
  split
  · split
    · exact .inl ⟨rfl, rfl⟩
    · exact .inr ⟨_, _, rfl, rfl, stack, rfl⟩
  · exact .inr ⟨_, _, rfl, rfl, stack, rfl⟩

theorem Resolution.Mirrors.pop {r r' : Resolution} (h : r.Mirrors α r') : r.pop.Mirrors α r'.pop := by
  obtain ⟨stack, active⟩ := h
  unfold Resolution.pop
  cases hs : r.stack with
  | nil =>
    rw [hs] at stack
    rw [stack]
    refine ⟨?_, active⟩
    rw [hs]
    exact stack
  | cons top rest =>
    rw [hs] at stack
    have shared : ((rest.map fun o => (⟨o.conditional.annotated α, o.hash⟩ : Open)).any fun o => o.hash == top.hash) =
        rest.any fun o => o.hash == top.hash := List.any_map
    rw [stack, List.map_cons, active]
    dsimp only
    rw [shared]
    cases rest.any fun o => o.hash == top.hash with
    | true | false => exact ⟨rfl, rfl⟩

theorem Mirrors.holding {env env' : Env} (hg : env'.guarded = env.guarded) {c check bound check' bound' : Ty}
    (h : Mirrors α R x y) : Mirrors α R (holding env c check bound x) (holding env' (c.annotated α) check' bound' y) := by
  have within : ∀ opened opened' : Resolution, opened.Mirrors α opened' →
      (∃ a b, (x.run opened).1 = .ok a ∧ (y.run opened').1 = .ok b ∧ R a b ∧
        (x.run opened).2.pop.Mirrors α (y.run opened').2.pop) ∨
      (∃ e, (x.run opened).1 = .error e) ∧ ∃ e, (y.run opened').1 = .error e := by
    intro opened opened' ho
    rcases h opened opened' ho with ⟨a, b, ha, hb, hab, next⟩ | failed
    · exact .inl ⟨a, b, ha, hb, hab, next.pop⟩
    · exact .inr failed
  intro r r' hr
  rcases push?_mirrors hr c with ⟨hn, hn'⟩ | ⟨opened, opened', ho, ho', next⟩
  · cases guarded : env.guarded with
    | true =>
      rw [run_holding_none hn guarded, run_holding_none hn' (hg.trans guarded)]
      exact .inr ⟨⟨_, rfl⟩, _, rfl⟩
    | false =>
      rw [run_holding_reopened hn guarded, run_holding_reopened hn' (hg.trans guarded)]
      refine within _ _ ⟨?_, hr.active⟩
      rw [hr.stack, List.map_cons, Ty.hash_annotated]
  · rw [run_holding_some ho, run_holding_some ho']
    exact within opened opened' next

end Mirrors

def mirroring : Kindred Evaluating Evaluating where
  All R x y := Mirrors α R x y
  pure := mirrors_pure
  bind := mirrors_bind

/-! ### Operands of comparisons -/

/-- The tree has no parameters. -/
def Paramless : Ty → Prop := Ty.Throughout Ty.children fun t => t.isParam = false

theorem carried_paramless : Ty.Carried Paramless := Ty.carried_throughout id

theorem Paramless.parts {t : Ty} (h : Paramless t) : Ty.Throughout Ty.parts (fun u => u.isParam = false) t := by
  induction h with
  | @mk t ht _ ih =>
    refine ⟨ht, fun u hu => ih u ?_⟩
    cases t with
    | param => cases ht
    | _ => exact hu

theorem annotated_of_parts {t : Ty} (h : Ty.Throughout Ty.parts (fun u => u.isParam = false) t) : t.annotated α = t := by
  refine Ty.annotated_self α (h.imp fun u hu name constraint default he => ?_)
  rw [he] at hu
  cases hu

theorem Paramless.annotated {t : Ty} (h : Paramless t) : t.annotated α = t := annotated_of_parts α h.parts

/-- What is identical to a type without parameters is that type. -/
theorem Paramless.eq_of_identical {t u : Ty} (h : Paramless t) (hi : u.identical t = true) : u = t := by
  have same : u.erased = t := ((Ty.identical_iff u t).1 hi).trans (h.annotated Ty.bare)
  have none : Ty.Throughout Ty.parts (fun v => v.isParam = false) u := by
    have erased : Ty.Throughout Ty.parts (fun v => v.isParam = false) (u.annotated Ty.bare) := by
      change Ty.Throughout _ _ u.erased
      rw [same]
      exact h.parts
    refine (Ty.throughout_annotated Ty.bare (Ty.parts_annotated Ty.bare) fun v => ?_).1 erased
    cases v <;> exact Iff.rfl
  exact (annotated_of_parts Ty.bare none).symm.trans same

/-- An evaluated type without free parameters has none at all. -/
theorem paramless_of_closed {env : Env} {t : Ty} (hs : Settled env t) (hf : t.hasFreeParams = false) : Paramless t := by
  rw [Ty.hasFreeParams_eq_false] at hf
  induction hs with
  | @mk t hnode _ ih =>
    cases t with
    | param name => exact absurd .here (hf name)
    | conditional check bound yes no distribute =>
      rcases hnode with h | h
      · cases h
      · obtain hc | hb := Bool.or_eq_true_iff.1 h
        · rw [(Ty.hasFreeParams_eq_false (t := check)).2 fun x hx => hf x (.part (by simp [Ty.openParts]) hx)] at hc
          cases hc
        · rw [(Ty.hasFreeParams_eq_false (t := bound)).2 fun x hx => hf x (.part (by simp [Ty.openParts]) hx)] at hb
          cases hb
    | _ => exact ⟨rfl, fun u hu => ih u hu fun x hx => hf x (.part hu hx)⟩

/-! ### Evaluation -/

theorem mentions_mirror (t : Ty) (s : Subst) : (t.annotated α).mentions (s.mirror α) = t.mentions s := by
  have binds : ∀ name, (s.mirror α).binds name = s.binds name := fun name => by
    rw [Subst.binds, Subst.find?_mirror, Option.isSome_map]
    rfl
  unfold Ty.mentions
  simp only [binds]
  exact Ty.occurs_annotated α rfl (fun u => by cases u <;> rfl) t

theorem substituteOnce_annotated (t : Ty) (s : Subst) :
    (t.substituteOnce s).annotated α = (t.annotated α).substituteOnce (s.mirror α) := by
  unfold Ty.substituteOnce
  rw [mentions_mirror, Substitute.run_mirror, Option.getD_map]
  split <;> rfl

theorem substitute_annotated (t : Ty) (s : Subst) : (t.substitute s).annotated α = (t.annotated α).substitute (s.mirror α) := by
  unfold Ty.substitute
  rw [mentions_mirror, Substitute.run_mirror, Option.getD_map]
  split <;> rfl

section Step
variable {α} {env : Env} {self self' : Ty → Evaluating Ty}
  (hself : ∀ t, Mirrors α (Image α) (self t) (self' (t.annotated α))) (hsettled : ∀ t, Yields (Settled env) (self t))
include hself

theorem mirrored_substituteOnce (t : Ty) (s : Subst) :
    Mirrors α (Image α) (self (t.substituteOnce s)) (self' ((t.annotated α).substituteOnce (s.mirror α))) := by
  rw [← substituteOnce_annotated]
  exact hself _

include hsettled

theorem mirrored_checkConstraint (p : ParamDecl) {arg : Ty} (ha : Settled env arg) (bindings : Subst) :
    Mirrors α (fun _ _ : Unit => True) (checkConstraint env self p arg bindings)
      (checkConstraint (env.mirror α) self' (p.mirror α) (arg.annotated α) (bindings.mirror α)) := by
  have missing : ((p.mirror α).constraint.isAbsent || (arg.annotated α).containsInfer || (arg.annotated α).hasFreeParams) =
      (p.constraint.isAbsent || arg.containsInfer || arg.hasFreeParams) := by
    rw [Ty.hasFreeParams_annotated, Ty.containsInfer, Ty.occurs_annotated α rfl (fun u => by cases u <;> rfl)]
    exact congrArg (· || _ || _) (Substitute.isAbsent_annotated α p.constraint)
  unfold checkConstraint
  rw [missing]
  split
  · exact mirrors_pure trivial
  · rename_i known
    simp only [Bool.or_eq_true, not_or, Bool.not_eq_true] at known
    have closed := paramless_of_closed ha known.2
    refine (mirrored_substituteOnce hself p.constraint bindings).bind_of (hsettled _) ?_
    rintro constraint _ hc rfl
    rw [Ty.hasFreeParams_annotated]
    split
    · exact mirrors_pure trivial
    · rename_i bound
      have constant := paramless_of_closed hc (Bool.eq_false_iff.2 bound)
      rw [closed.annotated, constant.annotated]
      refine mirrors_bind (mirrors_compare _ _ _) ?_
      rintro fits _ ⟨rfl, -⟩
      dsimp only
      split
      · exact mirrors_throw
      · exact mirrors_pure trivial

theorem mirrored_bindingOf (params params' : List ParamDecl) (p : ParamDecl) {arg : Ty}
    (ha : arg.isAbsent = false → Settled env arg) (bindings : Subst) :
    Mirrors α (Image α) (bindingOf env self params [] bindings p arg)
      (bindingOf (env.mirror α) self' params' [] (bindings.mirror α) (p.mirror α) (arg.annotated α)) := by
  have alone : ∀ (env : Env) (name : String) (params : List ParamDecl) (bindings : Subst),
      inferred? env name params [] bindings = pure none := fun _ _ _ _ => rfl
  unfold bindingOf
  rw [Substitute.isAbsent_annotated, alone, alone, pure_bind, pure_bind]
  split
  · rename_i present
    refine mirrors_bind (mirrored_checkConstraint hself hsettled p (ha (by simpa using present)) bindings) fun _ _ _ => ?_
    exact mirrors_pure rfl
  · have default : (p.mirror α).default.isAbsent = p.default.isAbsent := Substitute.isAbsent_annotated α p.default
    have constraint : (p.mirror α).constraint.isAbsent = p.constraint.isAbsent := Substitute.isAbsent_annotated α p.constraint
    rw [default]
    split
    · exact mirrored_substituteOnce hself p.default bindings
    · dsimp only
      rw [constraint]
      split
      · exact mirrors_pure rfl
      · exact mirrored_substituteOnce hself p.constraint bindings

theorem mirrored_bindAll (params params' : List ParamDecl) {ps : List ParamDecl} {args : List Ty}
    (ha : ∀ t ∈ args, Settled env t) (bindings : Subst) :
    Mirrors α (fun s s' => s' = s.mirror α) (bindAll env self params [] bindings ps args)
      (bindAll (env.mirror α) self' params' [] (bindings.mirror α) (ps.map (ParamDecl.mirror α)) (annotatedAll α args)) := by
  induction ps generalizing bindings args with
  | nil => exact mirrors_pure rfl
  | cons p ps ih =>
    have first : (annotatedAll α args).headD .absent = (args.headD .absent).annotated α := by cases args <;> rfl
    have rest : (annotatedAll α args).tail = annotatedAll α args.tail := by cases args <;> rfl
    have settled : (args.headD .absent).isAbsent = false → Settled env (args.headD .absent) := by
      intro present
      cases args with
      | nil => cases present
      | cons t ts => exact ha t List.mem_cons_self
    rw [List.map_cons, bindAll, bindAll, first, rest]
    refine mirrors_bind (mirrored_bindingOf hself hsettled params params' p settled bindings) ?_
    rintro t _ rfl
    rw [show (bindings.mirror α).insert (p.mirror α).name (t.annotated α) = (bindings.insert p.name t).mirror α from
      (Subst.insert_mirror α bindings p.name t).symm]
    exact ih (fun u hu => ha u (List.mem_of_mem_tail hu)) _

theorem mirrored_instantiate (params : List ParamDecl) {args : List Ty} (ha : ∀ t ∈ args, Settled env t) :
    Mirrors α (fun s s' => s' = s.mirror α) (instantiate env self params args [])
      (instantiate (env.mirror α) self' (params.map (ParamDecl.mirror α)) (annotatedAll α args) []) := by
  unfold instantiate
  rw [Ty.length_annotatedAll, List.length_map]
  split
  · exact mirrors_throw
  · exact mirrored_bindAll hself hsettled params _ ha {}

theorem mirrored_expand (name : String) (args : List Ty) :
    Mirrors α (Image α) (expand env self name args) (expand (env.mirror α) self' name (annotatedAll α args)) := by
  unfold expand
  refine ((mirroring α).mapM_types α fun t _ => hself t).bind_of
    (Results.evaluating.mapM fun t _ => hsettled t) ?_
  rintro us _ hus rfl
  rw [show (env.mirror α).decls.find? name = (env.decls.find? name).map (Declaration.mirror α) from
    Declarations.find?_mirror α env.decls name]
  cases env.decls.find? name with
  | none => exact mirrors_pure rfl
  | some decl =>
    refine mirrors_bind (mirrored_instantiate hself hsettled decl.params hus) ?_
    rintro s _ rfl
    exact mirrors_bind (mirrors_report _ _) fun _ _ _ => mirrored_substituteOnce hself decl.body s

omit hsettled in
theorem mirrored_resolve {check bound : Ty} (hc : Settled env check) (hb : Settled env bound) (yes no : Ty)
    (distribute : Bool) : Mirrors α (Image α) (resolve env self check bound yes no distribute)
      (resolve (env.mirror α) self' (check.annotated α) (bound.annotated α) (yes.annotated α) (no.annotated α) distribute) := by
  have param : (check.annotated α).isParam = check.isParam := by cases check <;> rfl
  have everything : (check.annotated α).isAny = check.isAny := by cases check <;> rfl
  unfold resolve
  rw [Ty.hasFreeParams_annotated, Ty.hasFreeParams_annotated, param, everything, Ty.inferNames_annotated]
  split
  · exact mirrors_pure rfl
  · rename_i closed
    rw [Bool.not_eq_true, Bool.or_eq_false_iff] at closed
    have substituted : ∀ f : String → Ty, (∀ n, (f n).annotated α = f n) →
        Mirrors α (Image α) (self (yes.substituteOnce (Subst.ofList (bound.inferNames.map fun n => (n, f n)))))
          (self' ((yes.annotated α).substituteOnce (Subst.ofList (bound.inferNames.map fun n => (n, f n))))) := by
      intro f hf
      have same : Subst.ofList (bound.inferNames.map fun n => (n, f n)) =
          (Subst.ofList (bound.inferNames.map fun n => (n, f n))).mirror α := by
        rw [Subst.ofList_mirror, List.map_map]
        exact congrArg Subst.ofList (List.map_congr_left fun n _ => congrArg (Prod.mk n) (hf n).symm)
      have branch := mirrored_substituteOnce hself yes (Subst.ofList (bound.inferNames.map fun n => (n, f n)))
      rwa [← same] at branch
    dsimp only
    split
    · refine mirrors_bind (substituted (fun _ => .unknown) fun _ => rfl) ?_
      rintro t _ rfl
      refine mirrors_bind (hself no) ?_
      rintro u _ rfl
      exact mirrors_pure (Ty.unionOf_annotated α [t, u]).symm
    · have hc' := paramless_of_closed hc closed.1
      have hb' := paramless_of_closed hb closed.2
      rw [hc'.annotated, hb'.annotated]
      have captured := Assignable.carried_captures carried_paramless { limit := env.limit } hc' hb'
      refine mirrors_bind (mirrors_compare { limit := env.limit } check bound) ?_
      rintro p _ ⟨rfl, rfl⟩
      rw [← bind_assoc, ← bind_assoc]
      refine mirrors_bind (mirrors_tell _ _) fun _ _ _ => ?_
      split
      · refine substituted _ fun n => ?_
        cases hf : (Assignable.run { limit := env.limit } check bound).2.captures.find? n with
        | none => rfl
        | some t => exact (captured.find? hf).annotated α
      · exact hself no

/-- A step of the evaluation of a type goes along with one of its image. -/
theorem mirrored_reduceStep (t : Ty) :
    Mirrors α (Image α) (reduceStep env self t) (reduceStep (env.mirror α) self' (t.annotated α)) := by
  cases t with
  | conditional check bound yes no distribute =>
    refine Mirrors.holding rfl ?_
    refine (hself check).bind_of (hsettled check) ?_
    rintro c _ hc rfl
    refine (hself bound).bind_of (hsettled bound) ?_
    rintro b _ hb rfl
    exact mirrored_resolve hself hc hb yes no distribute
  | reference name args => exact mirrored_expand hself hsettled name args
  | keyOf target =>
    refine mirrors_bind (hself target) ?_
    rintro u _ rfl
    exact mirrors_pure (Ty.keysOf_annotated α u)
  | access target index =>
    refine mirrors_bind (hself target) ?_
    rintro u _ rfl
    refine mirrors_bind (hself index) ?_
    rintro i _ rfl
    rw [Ty.indexed_annotated]
    cases Ty.indexed u i with
    | error => exact mirrors_throw
    | ok v => exact mirrors_pure rfl
  | mapping op arg =>
    refine mirrors_bind (hself arg) ?_
    rintro u _ rfl
    exact mirrors_pure (Ty.mapped_annotated α op u)
  | _ => exact (mirroring α).rebuild α fun u _ => hself u

end Step

/-- Evaluating an annotated type gives the result of the type, annotated. -/
theorem mirrored_reduce (env : Env) (room : Nat) (t : Ty) :
    Mirrors α (Image α) (reduce env room t) (reduce (env.mirror α) room (t.annotated α)) := by
  induction room generalizing t with
  | zero =>
    have same := isReducible_mirror α env t
    cases hr : isReducible env t with
    | false =>
      rw [reduce_irreducible hr, reduce_irreducible (same.trans hr)]
      exact mirrors_pure rfl
    | true =>
      rw [reduce_zero hr, reduce_zero (same.trans hr)]
      exact mirrors_throw
  | succ room ih =>
    have same := isReducible_mirror α env t
    cases hr : isReducible env t with
    | false =>
      rw [reduce_irreducible hr, reduce_irreducible (same.trans hr)]
      exact mirrors_pure rfl
    | true =>
      rw [reduce_succ hr, reduce_succ (same.trans hr)]
      exact (mirrored_reduceStep ih (settled_reduce room) t).nested

end Evaluate
end TypeCalculus

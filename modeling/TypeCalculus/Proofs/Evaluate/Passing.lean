import TypeCalculus.Proofs.Evaluate.Concur
import TypeCalculus.Proofs.Evaluate.FreeParams
import TypeCalculus.Proofs.Evaluate.Open
import TypeCalculus.Proofs.Substitute.Compose

/-! Arguments that are passed on to a declared name, before or after names are bound in them. Evaluated arguments for all
    parameters are taken as they are, once their constraints are checked (`concur_instantiate`), and stay evaluated when
    names are bound to values (`Passable`). -/

namespace TypeCalculus.Evaluate
open Ty (Normal Built Free)
open Substitute (Replaced Named Static Passed run_rebuilt)

/-! ### Arguments -/

theorem forall₂_zip {α β γ : Type} {P : α → β → Prop} {Q : β → γ → Prop} {xs : List α} {ys : List β} {zs : List γ}
    (h : List.Forall₂ P xs ys) (h' : List.Forall₂ Q ys zs) :
    List.Forall₂ (fun x e => P x e.1 ∧ Q e.1 e.2) xs (ys.zip zs) := by
  induction h generalizing zs with
  | nil => exact .nil
  | cons hp _ ih =>
    cases h' with
    | cons hq hrest => exact .cons ⟨hp, hq⟩ (ih hrest)

section Arguments
variable {lax lax' : Prop} {env : Env} {self : Ty → Evaluating Ty}

theorem substituteOnce_static {t : Ty} (h : Static t) (σ : Subst) : t.substituteOnce σ = t :=
  Option.some.inj ((Substitute.run_once h.built σ).symm.trans (h.run _ _ _))

theorem checkConstraint_absent {p : ParamDecl} (hp : p.constraint = .absent) (a : Ty) (σ : Subst) :
    checkConstraint env self p a σ = pure () := by
  rw [checkConstraint, hp]
  rfl

/-- A constraint without parameters is checked alike, whatever is bound. -/
theorem concur_checkConstraint {p : ParamDecl} (hp : Static p.constraint) (a : Ty) (σ σ' : Subst) (room room' : Nat) :
    Concur lax lax' (fun _ => True) (checkConstraint env (reduce env room) p a σ)
      (checkConstraint env (reduce env room') p a σ') := by
  have same : checkConstraint env (reduce env room') p a σ' = checkConstraint env (reduce env room') p a σ := by
    rw [checkConstraint, checkConstraint, substituteOnce_static hp, substituteOnce_static hp]
  rw [same]
  exact @Paired.checkConstraint _ _ _ (concurring lax lax' env) Ty.carried_true (reduce env room) (reduce env room')
    (fun _ => concur_reduce room room' _) _ _ _ ⟨trivial, trivial⟩ trivial fun _ _ => trivial

theorem bindAll_cons {params ps : List ParamDecl} {p : ParamDecl} {a : Ty} {args : List Ty} (ha : a ≠ .absent) (σ : Subst) :
    bindAll env self params [] σ (p :: ps) (a :: args) =
      checkConstraint env self p a σ >>= fun _ => bindAll env self params [] (σ.insert p.name a) ps args := by
  have present : a.isAbsent = false := Bool.eq_false_iff.2 fun h => ha (Substitute.isAbsent_iff.1 h)
  rw [bindAll, List.headD_cons, bindingOf, present, if_pos (show (!false) = true from rfl), bind_assoc]
  rfl

/-- The bindings of parameters to arguments. -/
def passing (params : List ParamDecl) (args : List Ty) : Subst := Subst.ofList ((params.map (·.name)).zip args)

/-- Arguments for all parameters are taken as they are, if their constraints hold. -/
theorem yields_instantiate_complete {params : List ParamDecl} {args : List Ty} (hl : args.length = params.length)
    (ha : ∀ a ∈ args, a ≠ .absent) : Yields (· = passing params args) (instantiate env self params args []) := by
  have all : ∀ (ps : List ParamDecl) (args : List Ty) (σ : Subst), args.length = ps.length → (∀ a ∈ args, a ≠ .absent) →
      Yields (· = ((ps.map (·.name)).zip args).foldl (fun σ e => σ.insert e.1 e.2) σ) (bindAll env self params [] σ ps args) := by
    intro ps
    induction ps with
    | nil => exact fun args σ _ _ => Results.evaluating.pure rfl
    | cons p ps ih =>
      intro args σ hl ha
      cases args with
      | nil => cases hl
      | cons a args =>
        rw [bindAll_cons (ha a List.mem_cons_self)]
        exact Yields.after fun _ => ih args _ (Nat.succ.inj hl) fun b hb => ha b (List.mem_cons_of_mem _ hb)
  rw [instantiate, if_neg (by omega)]
  exact all params args {} hl ha

/-- Arguments for which no constraint is checked that was not, or none but what was, are taken as well. -/
theorem concur_instantiate {params : List ParamDecl} {es : List (Ty × Ty)}
    (he : List.Forall₂ (fun p e => e.1 ≠ .absent ∧ e.2 ≠ .absent ∧
      (lax' ∨ p.constraint = .absent ∨ e.1 = e.2 ∧ Static p.constraint)) params es)
    {room : Nat} {r : Resolution} {τ : Subst}
    (h : ((instantiate env (reduce env room) params (es.map (·.1)) []).run r).1 = .ok τ) (room' : Nat) :
    Concur lax lax' (· = passing params (es.map (·.2))) (pure (passing params (es.map (·.2))))
      (instantiate env (reduce env room') params (es.map (·.2)) []) := by
  have all : ∀ {ps : List ParamDecl} {es : List (Ty × Ty)}, List.Forall₂ (fun p e => e.1 ≠ .absent ∧ e.2 ≠ .absent ∧
      (lax' ∨ p.constraint = .absent ∨ e.1 = e.2 ∧ Static p.constraint)) ps es → ∀ (σ σ' τ : Subst) (r : Resolution),
      ((bindAll env (reduce env room) params [] σ ps (es.map (·.1))).run r).1 = .ok τ →
      let τ' := ((ps.map (·.name)).zip (es.map (·.2))).foldl (fun σ e => σ.insert e.1 e.2) σ'
      Concur lax lax' (· = τ') (pure τ') (bindAll env (reduce env room') params [] σ' ps (es.map (·.2))) := by
    intro ps es he
    induction he with
    | nil => exact fun σ σ' τ r _ => concur_pure rfl
    | @cons p e ps es hp _ ih =>
      intro σ σ' τ r h
      obtain ⟨present, present', checked⟩ := hp
      rw [List.map_cons, bindAll_cons present] at h
      dsimp only
      rw [show (e :: es).map (·.2) = e.2 :: es.map (·.2) from rfl, bindAll_cons present']
      cases hr : ((checkConstraint env (reduce env room) p e.1 σ).run r).1 with
      | error =>
        rw [run_bind_error hr] at h
        cases h
      | ok =>
        rw [run_bind_ok hr] at h
        have check : Concur lax lax' (fun _ => True) (pure ()) (checkConstraint env (reduce env room') p e.2 σ') := by
          rcases checked with hl | hc | ⟨same, static⟩
          · exact concur_unchecked hl
          · rw [checkConstraint_absent hc]
            exact concur_pure trivial
          · rw [← same]
            exact ((concur_checkConstraint static e.1 σ σ' room room').of_ok hr).imp fun _ _ => trivial
        have rest := concur_bind check fun _ _ => ih _ (σ'.insert p.name e.2) τ _ h
        rwa [pure_bind] at rest
  have lengths := he.length_eq
  rw [instantiate, if_neg (by rw [List.length_map]; omega)] at h ⊢
  exact all he {} {} τ r h

end Arguments

/-! ### Bindings -/

/-- A closed type that is evaluated. -/
structure Value (env : Env) (t : Ty) : Prop where
  built : Built t
  settled : Settled env t
  closed : t.hasFreeParams = false

theorem Value.static {env : Env} {t : Ty} (h : Value env t) : Static t :=
  ⟨h.built, (unbound_of_closed h.settled h.built.tidy h.closed).named⟩

/-- Names are bound to values, of which only some have alternatives. -/
structure Binds (env : Env) (names divided : List String) (s : Subst) : Prop where
  values : s.Forall (Value env)
  names : ∀ n, Replaced s [] n → n ∈ names
  whole : ∀ n v, s.find? n = some v → n ∉ divided → Substitute.alternatives? v = none

/-- The type mentions none of the names. -/
abbrev Apart (names : List String) : Ty → Prop := Named (· ∉ names)

section Binds
variable {env : Env} {names divided : List String} {s : Subst} {t u : Ty}

theorem Binds.normal (B : Binds env names divided s) : s.Forall Normal := fun e he => (B.values e he).built.normal

theorem Binds.static (B : Binds env names divided s) : s.Forall Static := fun e he => (B.values e he).static

theorem Binds.run_apart (B : Binds env names divided s) (ht : Built t) (ha : ∀ n, Free n t → n ∉ names) :
    Substitute.run true s [] t = some t :=
  Substitute.run_cleared ht fun n hn hf => ha n hf (B.names n hn)

/-- A parameter becomes what it is bound to, or stays. -/
theorem Binds.run_param (B : Binds env names divided s) {n : String} {c d : Ty}
    (h : Substitute.run true s [] (.param n c d) = some u) :
    s.find? n = some u ∧ u ≠ .absent ∨ u = .param n c d := by
  cases Substitute.run_iff.1 h with
  | kept => exact .inr rfl
  | replaced hr hf hv =>
    rw [(B.static.find? hf).run] at hv
    cases hv
    obtain ⟨-, v, hv, hp⟩ := hr
    rw [hf] at hv
    cases hv
    exact .inl ⟨hf, hp⟩
  | rebuilt hp => cases hp

/-- A conditional that distributes over no bound name with alternatives is substituted in as a whole. -/
theorem Binds.run_conditional (B : Binds env names divided s) {check bound yes no : Ty} {distribute : Bool}
    (hd : distribute = true → Apart divided check)
    (h : Substitute.run true s [] (.conditional check bound yes no distribute) = some u) :
    ∃ check' bound' yes' no', Substitute.run true s [] check = some check' ∧ Substitute.run true s [] bound = some bound' ∧
      Substitute.run true (s.without bound.inferNames) [] yes = some yes' ∧ Substitute.run true s [] no = some no' ∧
      u = .conditional check' bound' yes' no' (check'.isParam && distribute) := by
  cases Substitute.run_iff.1 h with
  | split hsplit =>
    obtain ⟨rfl, c, d, r, rfl, -, hr, ha⟩ := Substitute.splits?_eq_some hsplit
    rcases B.run_param hr with ⟨hf, -⟩ | rfl
    · rw [B.whole _ _ hf (Substitute.named_param.1 (hd rfl))] at ha
      cases ha
    · cases ha
  | whole _ hc hb hy hn => exact ⟨_, _, _, _, hc, hb, hy, hn, rfl⟩
  | rebuilt _ hc => cases hc

/-- What may be passed on to a declared name: parameters, evaluated types that mention none of the names, and frames of
    them. -/
inductive Passable (env : Env) (names : List String) : Ty → Prop
  | param {name : String} {constraint default : Ty} : Passable env names (.param name constraint default)
  | apart {t : Ty} : Apart names t → Settled env t → Passable env names t
  | frame {t : Ty} : isFrame env t = true → (∀ u ∈ t.parts, Passable env names u) → Passable env names t

theorem settled_frame (h : isFrame env t = true) (hp : ∀ u ∈ t.parts, Settled env u) : Settled env t := by
  refine ⟨.inr ?_, fun u hu => hp u (mem_parts_of_evaluated hu)⟩
  cases t with
  | reference name =>
    rw [isFrame, Bool.not_eq_true'] at h
    exact h
  | _ => trivial

theorem Passable.settled (h : Passable env names t) : Settled env t := by
  induction h with
  | param => exact settled_of_irreducible rfl
  | apart _ hs => exact hs
  | frame hf _ ih => exact settled_frame hf ih

/-- With names bound in it, what may be passed on is evaluated as well. -/
theorem Passable.settled_run (h : Passable env names t) (B : Binds env names divided s) (ht : Built t)
    (hu : Substitute.run true s [] t = some u) : Settled env u := by
  induction h generalizing u with
  | param =>
    rcases B.run_param hu with ⟨hf, -⟩ | rfl
    · exact (B.values.find? hf).settled
    · exact settled_of_irreducible rfl
  | apart ha hs =>
    rw [B.run_apart ht fun n hf => ha.free hf] at hu
    cases hu
    exact hs
  | @frame t hf _ ih =>
    rw [run_rebuilt (isParam_of_frame hf) (isConditional_of_frame hf)] at hu
    refine settled_frame (isFrame_rebuild ht.normal.form hf hu) fun w hw => ?_
    obtain ⟨v, hv, hvw⟩ := Ty.partner (Ty.parts_rebuild ht.normal.form (isRow_of_frame hf) hu).flip hw
    exact ih v hv (ht.part (isParam_of_frame hf) hv) hvw

theorem Passable.passed (h : Passable env names t) (B : Binds env names divided s) (ht : Built t) (present : t ≠ .absent)
    (undivided : Substitute.alternatives? t = none) (hu : Substitute.run true s [] t = some u) : Passed s t u := by
  cases h with
  | param =>
    refine ⟨hu, ⟨present, ?_⟩, undivided, nofun⟩
    rcases B.run_param hu with ⟨-, hp⟩ | rfl
    · exact hp
    · exact present
  | apart ha =>
    have same := B.run_apart ht fun n hf => ha.free hf
    rw [same] at hu
    cases hu
    exact ⟨same, ⟨present, present⟩, undivided, fun hp => ⟨hp, undivided⟩⟩
  | frame hf =>
    have framed := isFrame_rebuild ht.normal.form hf ((run_rebuilt (isParam_of_frame hf) (isConditional_of_frame hf)).1 hu)
    refine ⟨hu, ⟨present, ?_⟩, undivided, fun _ => ⟨isParam_of_frame framed, ?_⟩⟩
    · rintro rfl
      cases framed
    · cases u <;> first | rfl | cases framed

end Binds

end TypeCalculus.Evaluate

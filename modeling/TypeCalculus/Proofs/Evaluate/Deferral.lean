import TypeCalculus.Proofs.Evaluate.Passing

/-! Evaluating early and binding later agrees with binding first, where what is bound is waited for. A type waits for
    names if they stand in it under operators and conditionals that are sure to be left as they are until the names are
    bound (`Opens`), in arguments that are passed on as they are (`Unfolds`), and elsewhere only under nodes that keep all
    their parts (`Waits`). Then the result of an early evaluation holds everything that a later one needs, but for
    constraints that are not checked again (`faithful_of_waits`). -/

namespace TypeCalculus.Evaluate
open Ty (Normal Built Free)
open Substitute (Named Cleared Static Passed Plain run_rebuilt)

/-! ### Declarations -/

/-- The declaration mentions names only where they are its own parameters. What may be taken for a missing argument of
    such a parameter is inert, and no placeholder of the body is named like one. -/
structure Hygienic (env : Env) (names : List String) (d : Declaration) : Prop where
  built : d.Forall Built
  params : ∀ p ∈ d.params, p.Forall (Apart names)
  inert : ∀ p ∈ d.params, p.name ∈ names → Inert env p.constraint ∧ Inert env p.default
  body : Named (fun n => n ∈ d.params.map (·.name) ∨ n ∉ names) d.body
  placeholders : ∀ n ∈ names, n ∉ d.body.inferNames

theorem declared_of_hygienic {env : Env} {names : List String} (hd : ∀ d ∈ env.decls.entries, Hygienic env names d) :
    Declared env (· ∉ names) := by
  intro d hm
  have h := hd d hm
  have fit : ∀ {u}, Built u → Apart names u → Fit env (· ∉ names) u := fun hb ha => ⟨hb.normal, scoped_of_named ha hb.tidy⟩
  refine ⟨fun p hp => ⟨fit (h.built.params p hp).1 (h.params p hp).1, fit (h.built.params p hp).2 (h.params p hp).2⟩,
    h.built.body.normal, ?_⟩
  have own : ∀ n, n ∈ d.params.map (·.name) ∨ n ∉ names → n ∉ names ∨ n ∈ names ∧ Bound env d.params n := by
    intro n hn
    by_cases hnames : n ∈ names
    · obtain ⟨p, hp, rfl⟩ := List.mem_map.1 (hn.resolve_right (not_not.2 hnames))
      exact .inr ⟨hnames, ⟨p, hp, rfl⟩, fun q hq he => h.inert q hq (he ▸ hnames)⟩
    · exact .inl hnames
  have body : Scoped env (· ∉ names) (fun n => n ∈ names ∧ Bound env d.params n) (fun _ => False) d.body :=
    scoped_of_replaced (h.body.imp own) (fun n hn hnow => h.placeholders n hnow.1 hn) h.built.body.tidy
  exact body.imp (fun _ h => h) (fun n hn => .inr hn.2) nofun

/-! ### Waiting types -/

/-- A declared name is unfolded as its arguments stand: none may be split by a conditional in two places, and nothing in
    the body can change for what takes the place of a parameter. Unless failures are let pass, a constraint is without
    parameters and for an argument that mentions none of the names. -/
structure Unfolds (env : Env) (names divided : List String) (lax : Prop) (decl : Declaration) (args : List Ty) : Prop where
  checked : List.Forall₂ (fun p a => lax ∨ p.constraint = .absent ∨ Apart names a ∧ Static p.constraint) decl.params args
  passable : ∀ a ∈ args, Passable env names a ∧ a ≠ .absent ∧ Substitute.alternatives? a = none
  distinct : args.Pairwise fun a b => ∀ n ∈ divided, ¬(a.occurs (Ty.isParamOf n) = true ∧ b.occurs (Ty.isParamOf n) = true)
  plain : Plain (decl.params.map (·.name)) names decl.body

/-- The names are waited for: where they occur, the type is evaluated already, or they stand under nodes that keep
    their parts, operators that stay open, and conditionals that stay open. A conditional distributes over none of the
    names with alternatives, and its true branch mentions them only if its bound is evaluated and so goes on declaring
    the same placeholders. -/
inductive Waits (env : Env) (names divided : List String) (lax : Prop) : Ty → Prop
  | settled {t : Ty} : Settled env t → Waits env names divided lax t
  | apart {t : Ty} : Apart names t → Waits env names divided lax t
  | frame {t : Ty} : isFrame env t = true → (∀ u ∈ t.parts, Waits env names divided lax u) → Waits env names divided lax t
  | keyOf {t : Ty} : Opens env true t → Waits env names divided lax t → Waits env names divided lax (.keyOf t)
  | mapping {op : Mapping} {t : Ty} : Opens env true t → Waits env names divided lax t → Waits env names divided lax (.mapping op t)
  | access {t i : Ty} : Opens env false t ∨ Opens env false i → Waits env names divided lax t → Waits env names divided lax i →
      Waits env names divided lax (.access t i)
  | conditional {check bound yes no : Ty} {distribute : Bool} : Opens env false check ∨ Opens env false bound →
      (distribute = true → Apart divided check) → Settled env bound ∨ Apart names yes → Waits env names divided lax check →
      Waits env names divided lax bound → Waits env names divided lax (.conditional check bound yes no distribute)
  | expansion {name : String} {args : List Ty} {decl : Declaration} : env.decls.find? name = some decl →
      Unfolds env names divided lax decl args → Waits env names divided lax (decl.body.substituteOnce (passing decl.params args)) →
      Waits env names divided lax (.reference name args)

/-- Evaluating the type and binding names later agrees with binding them first. -/
def Faithful (env : Env) (lax : Prop) (s : Subst) (t : Ty) : Prop :=
  ∀ r u v, Comes env t r → Substitute.run true s [] t = some u → Substitute.run true s [] r = some v →
    ∀ room room', Concur False lax (fun _ => True) (reduce env room v) (reduce env room' u)

section Faithful
variable {env : Env} {names divided : List String} {lax : Prop} {s : Subst} {t : Ty}

/-- Evaluation brings no other parameters than there were. -/
theorem Comes.fit {known : String → Prop} {r : Ty} (hr : Comes env t r) (hd : Declared env known) (ht : Built t)
    (hn : Named known t) : Fit env known r := by
  obtain ⟨room, st, h⟩ := hr
  exact fit_reduce hd room ⟨ht.normal, scoped_of_named hn ht.tidy⟩ st r h

theorem fit_built (ht : Built t) : Fit env (fun _ => True) t :=
  ⟨ht.normal, scoped_of_named (Ty.throughout_of_occurs (fun _ => rfl) fun _ _ => trivial) ht.tidy⟩

theorem Comes.built {r : Ty} (hr : Comes env t r) (hd : env.decls.Forall Built) (ht : Built t) : Built r := by
  obtain ⟨room, st, h⟩ := hr
  have fit := fit_reduce (declared_of_fit (hd.imp fun _ => fit_built)) room (fit_built ht) st r h
  exact ⟨fit.normal, fit.closed.tidy⟩

/-- What is evaluated already is given back by the first evaluation. -/
theorem faithful_settled (hn : Normal t) (hs : Settled env t) : Faithful env lax s t := by
  intro r u v hr hu hv room room'
  rw [hr.of_settled hn hs, hu] at hv
  cases hv
  exact concur_reduce room room' u

/-- What does not mention the names comes to what does not mention them either. -/
theorem faithful_apart (hd : ∀ d ∈ env.decls.entries, Hygienic env names d) (B : Binds env names divided s) (ht : Built t)
    (ha : Apart names t) : Faithful env lax s t := by
  intro r u v hr hu hv room room'
  have result : Fit env (· ∉ names) r := hr.fit (declared_of_hygienic hd) ht ha
  have unnamed : ∀ n, Free n r → n ∉ names := fun n hf => (result.closed.free hf).resolve_right nofun
  rw [B.run_apart ht fun n hf => ha.free hf] at hu
  rw [B.run_apart ⟨result.normal, result.closed.tidy⟩ unnamed] at hv
  cases hu
  cases hv
  exact concur_of_run (run_settled result.normal hr.settled room) (hr.run room')

theorem faithful_frame (hd : env.decls.Forall Built) (B : Binds env names divided s) (hb : Built t) (h : isFrame env t = true)
    (parts : ∀ w ∈ t.parts, Faithful env lax s w) : Faithful env lax s t := by
  intro r u v hr hu hv room room'
  have hn := hb.normal
  obtain ⟨f, hf, comes⟩ := hr.frame hn h
  have row := isRow_of_frame h
  have framed := isFrame_rebuild hn.form h hf
  have rnormal := (hr.built hd hb).normal
  have unormal : Normal u := Ty.carried_normal.run B.normal hn hu
  have vnormal : Normal v := Ty.carried_normal.run B.normal rnormal hv
  rw [run_rebuilt (isParam_of_frame h) (isConditional_of_frame h)] at hu
  rw [run_rebuilt (isParam_of_frame framed) (isConditional_of_frame framed)] at hv
  -- Both are rebuilt from the parts of one type.
  have later : t.rebuild (fun w => Substitute.run true s [] ((f w).getD w)) = some v :=
    (Ty.rebuild_twice hn.form row hf _).symm.trans hv
  refine concur_frame vnormal (isFrame_rebuild rnormal.form framed hv) (fun room => ?_) room
  refine (concur_frame unormal (isFrame_rebuild hn.form h hu) (fun room' => ?_) room').symm
  rw [Ty.rebuild_twice hn.form row hu, Ty.rebuild_twice hn.form row later]
  refine Ty.carried_true.rebuild (concurring lax False env).toLinked trivial fun w hw => ?_
  have hw : w ∈ t.parts := by
    cases t with
    | param => cases h
    | _ => exact hw
  obtain ⟨x, -, hx⟩ := Ty.partner (Ty.parts_rebuild hn.form row hf) hw
  obtain ⟨y, -, hy⟩ := Ty.partner (Ty.parts_rebuild hn.form row hu) hw
  obtain ⟨z, -, hz⟩ := Ty.partner (Ty.parts_rebuild hn.form row later) hw
  rw [hx, Option.getD_some] at hz
  rw [hy, hx, Option.getD_some, Option.getD_some, hz, Option.getD_some]
  exact (parts w hw x y z (comes w hw x hx) hy hz room room').symm

theorem faithful_keyOf (hn : Normal t) (ho : Opens env true t) (ht : Faithful env lax s t) : Faithful env lax s (.keyOf t) := by
  intro _ u v whole hu hv
  obtain ⟨r, hr, rfl⟩ := whole.keyOf
  rw [Ty.keysOf_hidden ((ho.comes hn hr).2 rfl).1] at hv
  obtain ⟨ut, hut, h⟩ := Option.bind_eq_some_iff.1 ((run_rebuilt rfl rfl).1 hu)
  cases h
  obtain ⟨vt, hvt, h⟩ := Option.bind_eq_some_iff.1 ((run_rebuilt rfl rfl).1 hv)
  cases h
  refine concur_step rfl rfl fun room room' => ?_
  exact concur_bind (ht r ut vt hr hut hvt room room') fun _ _ => concur_pure trivial

theorem faithful_mapping {op : Mapping} (hn : Normal t) (ho : Opens env true t) (ht : Faithful env lax s t) :
    Faithful env lax s (.mapping op t) := by
  intro _ u v whole hu hv
  obtain ⟨r, hr, rfl⟩ := whole.mapping
  rw [Ty.mapped_stuck op ((ho.comes hn hr).2 rfl).2] at hv
  obtain ⟨ut, hut, h⟩ := Option.bind_eq_some_iff.1 ((run_rebuilt rfl rfl).1 hu)
  cases h
  obtain ⟨vt, hvt, h⟩ := Option.bind_eq_some_iff.1 ((run_rebuilt rfl rfl).1 hv)
  cases h
  refine concur_step rfl rfl fun room room' => ?_
  exact concur_bind (ht r ut vt hr hut hvt room room') fun _ _ => concur_pure trivial

theorem faithful_access {i : Ty} (hn : Normal t) (hni : Normal i) (ho : Opens env false t ∨ Opens env false i)
    (ht : Faithful env lax s t) (hi : Faithful env lax s i) : Faithful env lax s (.access t i) := by
  intro _ u v whole hu hv
  obtain ⟨r, j, hr, hj, he⟩ := whole.access
  have free : ∃ x, Free x r ∨ Free x j := by
    rcases ho with ho | ho
    · exact (ho.comes hn hr).1.imp fun _ h => .inl h
    · exact (ho.comes hni hj).1.imp fun _ h => .inr h
  obtain ⟨x, hx⟩ := free
  rw [indexed_of_free hx] at he
  cases he
  obtain ⟨ut, hut, h⟩ := Option.bind_eq_some_iff.1 ((run_rebuilt rfl rfl).1 hu)
  obtain ⟨ui, hui, h⟩ := Option.bind_eq_some_iff.1 h
  cases h
  obtain ⟨vt, hvt, h⟩ := Option.bind_eq_some_iff.1 ((run_rebuilt rfl rfl).1 hv)
  obtain ⟨vi, hvi, h⟩ := Option.bind_eq_some_iff.1 h
  cases h
  refine concur_step rfl rfl fun room room' => ?_
  refine concur_bind (ht r ut vt hr hut hvt room room') fun a _ => ?_
  refine concur_bind (hi j ui vi hj hui hvi room room') fun b _ => ?_
  exact (concurring False lax env).ofExcept (fun _ _ => trivial) fun _ he => Ty.indexed_error he

theorem hasFreeParams_of_opens {check bound c b : Ty} (ho : Opens env false check ∨ Opens env false bound) (nc : Normal check)
    (nb : Normal bound) (hc : Comes env check c) (hb : Comes env bound b) : (c.hasFreeParams || b.hasFreeParams) = true := by
  rcases ho with ho | ho
  · obtain ⟨⟨x, hx⟩, -⟩ := ho.comes nc hc
    rw [hasFreeParams_of_free hx, Bool.true_or]
  · obtain ⟨⟨x, hx⟩, -⟩ := ho.comes nb hb
    rw [hasFreeParams_of_free hx, Bool.or_true]

/-- A true branch is the same under the bound and under what the bound comes to, if they are one type or nothing in the
    branch is bound. -/
theorem Binds.run_branch (B : Binds env names divided s) {bound b yes u v : Ty} (hyes : Built yes) (h : b = bound ∨ Apart names yes)
    (hu : Substitute.run true (s.without bound.inferNames) [] yes = some u)
    (hv : Substitute.run true (s.without b.inferNames) [] yes = some v) : v = u := by
  rcases h with rfl | ha
  · exact Option.some.inj (hv.symm.trans hu)
  · have cleared : ∀ names', Cleared (s.without names') [] yes := fun _ n hn hf =>
      ha.free hf (B.names n (Substitute.replaced_without.1 hn).2)
    rw [Substitute.run_cleared hyes (cleared _)] at hu hv
    exact (Option.some.inj hv).symm.trans (Option.some.inj hu)

/-- A conditional that stays open is resolved later on the same operands and with the same branches. -/
theorem faithful_conditional (B : Binds env names divided s) {check bound yes no : Ty} {distribute : Bool}
    (hb : Built (.conditional check bound yes no distribute)) (ho : Opens env false check ∨ Opens env false bound)
    (hd : distribute = true → Apart divided check) (hy : Settled env bound ∨ Apart names yes) (hcheck : Faithful env lax s check)
    (hbound : Faithful env lax s bound) : Faithful env lax s (.conditional check bound yes no distribute) := by
  intro r u v hr hu hv
  obtain ⟨form, nc, nb, ny, nn⟩ := Ty.normal_conditional.1 hb.normal
  obtain ⟨c, b, hc, hbr, room, st, hres⟩ := hr.conditional
  have free : (c.hasFreeParams || b.hasFreeParams) = true := hasFreeParams_of_opens ho nc nb hc hbr
  rw [resolve_open free] at hres
  cases hres
  -- A parameter that is distributed over is not evaluated before it is bound.
  have kept : distribute = true → check.isParam = true ∧ c = check := by
    intro hdist
    have hp := form hdist
    cases check with
    | param name => exact ⟨rfl, hc.of_settled nc (settled_of_irreducible rfl)⟩
    | _ => cases hp
  have flag : (c.isParam && distribute) = distribute := by
    cases distribute with
    | false => exact Bool.and_false _
    | true =>
      obtain ⟨hp, rfl⟩ := kept rfl
      rw [hp, Bool.and_true]
  rw [flag] at hv
  obtain ⟨cu, bu, yu, nu, hcu, hbu, hyu, hnu, rfl⟩ := B.run_conditional hd hu
  obtain ⟨cv, bv, yv, nv, hcv, hbv, hyv, hnv, rfl⟩ := B.run_conditional (fun hdist => (kept hdist).2 ▸ hd hdist) hv
  have flags : (cv.isParam && distribute) = (cu.isParam && distribute) := by
    cases distribute with
    | false => rw [Bool.and_false, Bool.and_false]
    | true =>
      obtain ⟨-, rfl⟩ := kept rfl
      rw [hcv] at hcu
      cases hcu
      rfl
  have branch : yv = yu := by
    have built : Built yes := ⟨ny, hb.tidy.under (by simp [Ty.parts])⟩
    exact B.run_branch built (hy.imp_left fun hs => hbr.of_settled nb hs) hyu hyv
  have rest : nv = nu := by
    rw [hnu] at hnv
    exact (Option.some.inj hnv).symm
  rw [flags, branch, rest]
  refine concur_step rfl rfl fun room room' => Concur.holding ?_ _ _ _ _ _ _
  refine concur_bind (hcheck c cu cv hc hcu hcv room room') fun _ _ => ?_
  refine concur_bind (hbound b bu bv hbr hbu hbv room room') fun _ _ => ?_
  exact @Paired.resolve _ _ _ (concurring False lax env) Ty.carried_true (reduce env room) (reduce env room')
    (fun _ => concur_reduce room room' _) _ _ _ _ _ trivial trivial trivial trivial

/-- What is passed on is built. -/
theorem built_unfolded (hd : env.decls.Forall Built) {name : String} {decl : Declaration} (hf : env.decls.find? name = some decl)
    {args : List Ty} (ha : ∀ a ∈ args, Built a) : Built (decl.body.substituteOnce (passing decl.params args)) := by
  have hb := (hd decl (List.mem_of_find?_eq_some hf)).body
  have fit : Fit env (fun _ => True) (decl.body.substituteOnce (passing decl.params args)) := by
    refine fit_substituteOnce hb.normal (Subst.forall_ofList fun e he => ?_) (fun _ h => h.elim) (fit_built hb).closed
    exact fit_built (ha e.2 (List.of_mem_zip he).2)
  exact ⟨fit.normal, fit.closed.tidy⟩

theorem isReducible_of_declared {name : String} {decl : Declaration} (hf : env.decls.find? name = some decl) {args : List Ty} :
    isReducible env (.reference name args) = true := by
  refine Ty.occurs_self rfl ?_
  simp only [Declarations.declares, hf, Option.isSome_some]

/-- Evaluated types stay what they are. -/
theorem concur_evaluated {lax lax' : Prop} {us : List Ty} (h : ∀ u ∈ us, Normal u ∧ Settled env u) (room : Nat) :
    Concur lax lax' (· = us) (pure us) (us.mapM (reduce env room)) := by
  have all := @Ty.mapM_self _ _ _ unstopped _ (reduce env room) us fun u hu r =>
    (run_settled (h u hu).1 (h u hu).2 room r).imp (fun ha => ⟨u, ha, rfl⟩) id
  intro r r'
  rcases all r' with ⟨_, he, rfl⟩ | hs
  · exact .inr (.inr ⟨he.symm, fun _ ha => (Except.ok.inj ha).symm⟩)
  · exact .inr (.inl (.inl hs))

section Expansion
variable {name : String} {args us : List Ty} {decl : Declaration} {r : Ty}

/-- A reference comes to what its unfolded declaration comes to, whose arguments passed their checks. -/
theorem Comes.unfolded (hr : Comes env (.reference name args) r) (hb : ∀ a ∈ args, Built a)
    (hf : env.decls.find? name = some decl) (hw : Unfolds env names divided lax decl args) :
    Comes env (decl.body.substituteOnce (passing decl.params args)) r ∧
      ∃ room st σ, ((instantiate env (reduce env room) decl.params args []).run st).1 = .ok σ := by
  refine Comes.step hr (isReducible_of_declared hf) fun room => ?_
  have same : Yields (· = args) (args.mapM (reduce env room)) := Ty.mapM_self Results.evaluating fun a ha st b hab =>
    Comes.of_settled ⟨room, st, hab⟩ (hb a ha).normal (hw.passable a ha).1.settled
  refine Results.evaluating.bind same fun as has => ?_
  rw [has, hf]
  dsimp only
  have passed : Yields (fun σ => σ = passing decl.params args ∧
      ∃ st, ((instantiate env (reduce env room) decl.params args []).run st).1 = .ok σ)
      (instantiate env (reduce env room) decl.params args []) := fun st σ h =>
    ⟨yields_instantiate_complete hw.checked.length_eq.symm (fun a ha => (hw.passable a ha).2.1) st σ h, st, h⟩
  refine Results.evaluating.bind passed ?_
  rintro σ ⟨rfl, st, hst⟩
  exact Yields.after fun _ st' v hv => ⟨⟨room, st', hv⟩, room, st, _, hst⟩

/-- Arguments in which the names are bound pass the checks that the arguments passed. -/
theorem Unfolds.checked_bound (hw : Unfolds env names divided lax decl args) (B : Binds env names divided s)
    (hb : ∀ a ∈ args, Built a)
    (each : List.Forall₂ (fun a w => a ∈ args ∧ Substitute.run true s [] a = some w ∧ Passed s a w) args us) :
    List.Forall₂ (fun p e => e.1 ≠ .absent ∧ e.2 ≠ .absent ∧ (lax ∨ p.constraint = .absent ∨ e.1 = e.2 ∧ Static p.constraint))
      decl.params (args.zip us) := by
  refine (forall₂_zip hw.checked each).imp ?_
  rintro p ⟨a, w⟩ ⟨hc, ha, hrun, passed⟩
  refine ⟨passed.present.1, passed.present.2, hc.imp_right fun hc => hc.imp_right fun hc => ⟨?_, hc.2⟩⟩
  have same := B.run_apart (hb a ha) fun n hf => hc.1.free hf
  rw [hrun] at same
  exact (Option.some.inj same).symm

/-- The arguments are passed on before or after the names are bound. -/
theorem faithful_expansion (hd : ∀ d ∈ env.decls.entries, Hygienic env names d) (B : Binds env names divided s)
    (hb : Built (.reference name args)) (hf : env.decls.find? name = some decl)
    (hw : Unfolds env names divided lax decl args) (hbody : Faithful env lax s (decl.body.substituteOnce (passing decl.params args))) :
    Faithful env lax s (.reference name args) := by
  intro r u v hr hu hv room room'
  have declared := hd decl (List.mem_of_find?_eq_some hf)
  have body := declared.built.body
  have arg : ∀ a ∈ args, Built a := fun a ha => hb.part rfl ha
  have complete : args.length = decl.params.length := hw.checked.length_eq.symm
  -- The first evaluation takes the arguments as they are.
  obtain ⟨unfolded, first, st, σ, checked⟩ := hr.unfolded arg hf hw
  -- Binding names in the arguments gives evaluated types, and the same body once they are passed.
  obtain ⟨us, hus, he⟩ := Option.bind_eq_some_iff.1 ((run_rebuilt rfl rfl).1 hu)
  cases he
  have each : List.Forall₂ (fun a w => a ∈ args ∧ Substitute.run true s [] a = some w ∧ Passed s a w) args us := by
    refine Results.option.mapM_forall₂ (fun a ha w hw' => ?_) us hus
    obtain ⟨hp, present, undivided⟩ := hw.passable a ha
    exact ⟨ha, hw', hp.passed B (arg a ha) present undivided hw'⟩
  have passes := @Substitute.passes_ofList (decl.params.map (·.name)) names divided s args us B.static B.names B.whole
    (by rw [complete, List.length_map]) (each.imp fun _ _ h => h.2.2) hw.distinct
  obtain ⟨y, hy⟩ := Substitute.static_ends B.static (decl.body.substituteOnce (passing decl.params args))
  have once := Substitute.run_passed hy _ _ _ passes hw.plain body declared.body (Substitute.run_once body _)
  rw [Substitute.run_once body] at once
  cases once
  have evaluated : ∀ w ∈ us, Normal w ∧ Settled env w := by
    intro w hw'
    obtain ⟨a, -, ha, h, -⟩ := Ty.partner each.flip hw'
    exact ⟨Ty.carried_normal.run B.normal (arg a ha).normal h, (hw.passable a ha).1.settled_run B (arg a ha) h⟩
  have lengths : args.length = us.length := each.length_eq
  have again := @concur_instantiate False lax env decl.params (args.zip us) (hw.checked_bound B arg each) first st σ
  rw [List.map_fst_zip lengths.le, List.map_snd_zip lengths.ge] at again
  -- The later evaluation passes them on as they are, too.
  cases room' with
  | zero =>
    rw [reduce_zero (isReducible_of_declared hf)]
    exact (concur_tooDeep _ _).symm
  | succ room' =>
    rw [reduce_succ (isReducible_of_declared hf)]
    have expanded : Concur False lax (fun _ => True) (pure us >>= fun _ => pure (passing decl.params us) >>= fun _ =>
        reduce env room v) (expand env (reduce env room') name us) := by
      refine concur_bind (concur_evaluated evaluated room') fun as has => ?_
      rw [has, hf]
      dsimp only
      refine concur_bind (again checked room') fun τ hτ => ?_
      rw [hτ]
      intro r r'
      exact hbody _ _ v unfolded hy hv room room' r _
    rw [pure_bind, pure_bind] at expanded
    exact fun r r' => expanded r r'.enter

end Expansion

/-- Where names are waited for, evaluating early and binding them later agrees with binding them first. -/
theorem faithful_of_waits (hd : ∀ d ∈ env.decls.entries, Hygienic env names d) (B : Binds env names divided s) (ht : Built t)
    (hw : Waits env names divided lax t) : Faithful env lax s t := by
  have built : env.decls.Forall Built := fun d hm => (hd d hm).built
  induction hw with
  | settled hs => exact faithful_settled ht.normal hs
  | apart ha => exact faithful_apart hd B ht ha
  | frame h _ ih =>
    exact faithful_frame built B ht h fun w hw => ih w hw (ht.part (isParam_of_frame h) hw)
  | keyOf ho _ ih =>
    have target := ht.part rfl List.mem_cons_self
    exact faithful_keyOf target.normal ho (ih target)
  | mapping ho _ ih =>
    have arg := ht.part rfl List.mem_cons_self
    exact faithful_mapping arg.normal ho (ih arg)
  | access ho _ _ iht ihi =>
    have target := ht.part rfl List.mem_cons_self
    have index := ht.part rfl (List.mem_cons_of_mem _ List.mem_cons_self)
    exact faithful_access target.normal index.normal ho (iht target) (ihi index)
  | conditional ho hdist hy _ _ ihc ihb =>
    exact faithful_conditional B ht ho hdist hy (ihc (ht.part rfl (by simp [Ty.parts]))) (ihb (ht.part rfl (by simp [Ty.parts])))
  | @expansion name args decl hf hu _ ih =>
    exact faithful_expansion hd B ht hf hu (ih (built_unfolded built hf fun a ha => ht.part rfl ha))

end Faithful
end TypeCalculus.Evaluate

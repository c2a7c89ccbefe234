import TypeCalculus.Proofs.Substitute.Termination
import TypeCalculus.Proofs.Ty.Lasting

/-! Substitution a second time. After a substitution under acyclic bindings nothing that is bound is free in the result
    (`cleared_run`), and a type in which nothing bound is free stays as it is (`run_cleared`). The first needs that a
    bound goes on declaring what it declares, since its true branch is substituted under the names declared before, and
    the second time under those declared after (`Shields`). A constructor may drop a placeholder: in `infer X | P` with
    `any` for `P` nothing is left of `X`, and what the true branch kept of it is then replaced (`shadow_lost`). -/

namespace TypeCalculus

theorem Subst.find?_without (s : Subst) (names : List String) (name : String) :
    (s.without names).find? name = if name ∈ names then none else s.find? name := by
  have inEntries : ∀ es : List (String × Ty), (es.filter fun e => !names.contains e.1).lookup name =
      if name ∈ names then none else es.lookup name := by
    intro es
    induction es with
    | nil => simp
    | cons e es ih =>
      rw [List.filter_cons]
      grind
  exact inEntries s.entries

theorem Subst.forall_cons {P : Ty → Prop} {n : String} {t : Ty} {entries : List (String × Ty)} (ht : P t)
    (h : Subst.Forall P ⟨entries⟩) : Subst.Forall P ⟨(n, t) :: entries⟩ := List.forall_mem_cons.2 ⟨ht, h⟩

namespace Substitute
open Ty Relation

theorem replaced_without {s : Subst} {names opened : List String} {n : String} :
    Replaced (s.without names) opened n ↔ n ∉ names ∧ Replaced s opened n := by
  unfold Replaced
  rw [Subst.find?_without]
  split
  · rename_i hn
    simp [hn]
  · rename_i hn
    simp [hn]

theorem replaced_of_insert {s : Subst} {opened : List String} {name n : String} {t : Ty} (hname : Replaced s opened name)
    (h : Replaced (s.insert name t) opened n) : Replaced s opened n := by
  obtain ⟨ho, u, hf, hu⟩ := h
  by_cases hn : n = name
  · exact hn ▸ hname
  · rw [Subst.find?_insert_ne _ _ hn] at hf
    exact ⟨ho, u, hf, hu⟩

/-! ### What stays -/

/-- Nothing that would be replaced is free in the type. -/
def Cleared (s : Subst) (opened : List String) (t : Ty) : Prop := ∀ n, Replaced s opened n → ¬Free n t

theorem Cleared.imp {s s' : Subst} {opened opened' : List String} {t : Ty} (h : Cleared s opened t)
    (hr : ∀ n, Replaced s' opened' n → Replaced s opened n) : Cleared s' opened' t := fun n hn => h n (hr n hn)

theorem not_split {self : Subst → List String → Ty → Option Ty} {s : Subst} {opened : List String} {check : Ty}
    {distribute : Bool} (hself : ∃ r, self s opened check = some r) (h : Cleared s opened check) :
    splits? self s opened check distribute = some none := by
  obtain ⟨split, hsplit⟩ := @splits?_ends _ _ _ _ distribute hself
  rcases split with _ | ⟨name, members⟩
  · exact hsplit
  · obtain ⟨-, c, d, r, rfl, hr, -, -⟩ := splits?_eq_some hsplit
    exact absurd (free_param.2 rfl) (h name hr)

/-- A type in which nothing would be replaced stays as it is. -/
theorem run_cleared {chain : Bool} {s : Subst} {opened : List String} {t : Ty} (hb : Built t) (h : Cleared s opened t) :
    run chain s opened t = some t := by
  induction t using parts_induction generalizing s with
  | step t ih =>
    have part : ∀ {s}, ∀ u ∈ t.parts, Cleared s opened u → run chain s opened u = some u := by
      intro s u hu hc
      refine ih u hu ⟨hb.normal.child ?_, hb.tidy.under hu⟩ hc
      cases t with
      | param => cases hu
      | _ => exact hu
    cases t with
    | param name c d => exact run_iff.2 (.kept fun hr => h name hr .here)
    | conditional check bound yes no distribute =>
      have open_ : ∀ u ∈ openParts (conditional check bound yes no distribute), Cleared s opened u :=
        fun u hu n hn hf => h n hn (.part hu hf)
      have hcheck := open_ check (by simp [openParts])
      have hyes : Cleared (s.without bound.inferNames) opened yes := by
        intro n hn hf
        obtain ⟨hx, hn⟩ := replaced_without.1 hn
        exact h n hn (.yes hx hf)
      have flag : (check.isParam && distribute) = distribute := by
        cases distribute with
        | false => exact Bool.and_false _
        | true => rw [hb.normal.form rfl]; rfl
      have hc := part check (by simp [parts]) hcheck
      have whole := @Step.whole _ _ _ chain distribute _ _ _ _ _ _ _ _ (not_split ⟨_, hc⟩ hcheck) hc
        (part bound (by simp [parts]) (open_ bound (by simp [openParts]))) (part yes (by simp [parts]) hyes)
        (part no (by simp [parts]) (open_ no (by simp [openParts])))
      rw [flag] at whole
      exact run_iff.2 whole
    | _ =>
      refine run_iff.2 (.rebuilt rfl rfl ?_)
      obtain ⟨u, hu, rfl⟩ := rebuild_self Results.ended hb.normal.form hb.tidy.node.union hb.tidy.node.meet rfl
        fun v hv => ⟨v, part v hv fun n hn hf => h n hn (.part hv hf), rfl⟩
      exact hu

/-! ### What lasts -/

theorem tidy_run {s : Subst} {opened : List String} {t u : Ty} (h : run true s opened t = some u) : Tidy u := by
  refine run_induction (motive := fun _ _ _ u => Tidy u) (fun self hself s opened t u hstep => ?_) h
  cases hstep with
  | kept => exact ⟨tidyNode_of_pending (.inl rfl), nofun⟩
  | replaced _ _ hu => exact (hself _ _ _ _ hu).2
  | split _ hus => exact inherited_tidy.unionOf (Results.option.mapM (fun m _ u hu => (hself _ _ _ _ hu).2) _ hus)
  | whole _ hc hb hy hn =>
    refine ⟨tidyNode_of_pending (.inl rfl), fun v hv => ?_⟩
    simp only [parts, List.mem_cons, List.not_mem_nil, or_false] at hv
    rcases hv with rfl | rfl | rfl | rfl
    · exact (hself _ _ _ _ hc).2
    · exact (hself _ _ _ _ hb).2
    · exact (hself _ _ _ _ hy).2
    · exact (hself _ _ _ _ hn).2
  | rebuilt hp hc hu =>
    exact inherited_tidy.rebuild Results.option hp hc (fun _ hv hk => ⟨tidyNode_of_pending hk, hv⟩)
      (fun v _ w hw => (hself _ _ _ _ hw).2) _ hu

section Survives
variable {still : Option String → Bool} {x : String}

/-- Placeholders that last stand in the result of a substitution. -/
theorem survives_run {chain : Bool} {s : Subst} {opened : List String} {t u : Ty} (h : run chain s opened t = some u) :
    s.Forall Normal → Normal t → Survives still (isInferOf x) t u := by
  refine run_induction (motive := fun s _ t u => s.Forall Normal → Normal t → Survives still (isInferOf x) t u)
    (fun self hself s opened t u hstep hs ht => ?_) h
  have part : ∀ {s opened t u}, s.Forall Normal → Normal t → self s opened t = some u → Survives still (isInferOf x) t u :=
    fun hs ht hu => (hself _ _ _ _ hu).2 hs ht
  cases hstep with
  | kept => exact survives_refl _ _ _
  | replaced | taken => exact survives_of_loose rfl rfl rfl rfl _
  | split hsplit =>
    obtain ⟨rfl, -⟩ := splits?_eq_some hsplit
    exact survives_of_loose rfl rfl rfl rfl _
  | @whole _ distribute check bound yes no check' bound' yes' no' _ hc hb hy hn =>
    obtain ⟨-, nc, nb, ny, nn⟩ := normal_conditional.1 ht
    cases distribute with
    | true => exact survives_of_loose rfl rfl rfl rfl _
    | false =>
      rw [Bool.and_false]
      cases hstill : still none with
      | false => exact survives_of_loose (t := conditional check bound yes no false) rfl hstill hstill rfl _
      | true =>
        have all : List.Forall₂ (Survives still (isInferOf x)) [check, bound, yes, no] [check', bound', yes', no'] :=
          .cons (part hs nc hc) (.cons (part hs nb hb) (.cons (part (hs.without _) ny hy) (.cons (part hs nn hn) .nil)))
        refine survives_of_parts nofun hstill hstill nofun fun v hv hlast => ?_
        obtain ⟨w, hw, hvw⟩ := partner all hv
        exact ⟨w, hw, hvw.lasts hlast⟩
  | rebuilt hp hc hu =>
    refine survives_rebuild (names_isInferOf x) Results.option ht.form hp hc (fun v hv w hw => part hs (ht.child ?_) hw) u hu
    cases t with
    | param => cases hp
    | _ => exact hv

end Survives

/-! ### Results are cleared -/

/-- Whatever is replaced, the bound of a conditional goes on declaring those names that are bound outside: their
    placeholders last, or nothing in the bound is replaced. -/
def Shields (s : Subst) : Ty → Prop :=
  Throughout parts fun u => ∀ check bound yes no distribute, u = conditional check bound yes no distribute →
    ∀ x ∈ bound.inferNames, s.binds x = true → Lasts (fun _ => true) (isInferOf x) bound ∨ bound.mentions s = false

/-- Every binding is to a type that shields its names, or to one in which nothing is replaced any more. -/
def Ready (s₀ s : Subst) (opened : List String) : Prop :=
  ∀ n t, s.find? n = some t → Shields s₀ t ∨ Cleared s opened t

theorem Ready.imp {s₀ s s' : Subst} {opened opened' : List String} (h : Ready s₀ s opened)
    (hf : ∀ n t, s'.find? n = some t → s.find? n = some t) (hr : ∀ n, Replaced s' opened' n → Replaced s opened n) :
    Ready s₀ s' opened' :=
  fun n t ht => (h n t (hf n t ht)).imp_right fun hc => hc.imp hr

theorem Ready.insert {s₀ s : Subst} {opened : List String} {name : String} {m : Ty} (h : Ready s₀ s opened)
    (hname : Replaced s opened name) (hm : Cleared s opened m) : Ready s₀ (s.insert name m) opened := by
  have fewer : ∀ n, Replaced (s.insert name m) opened n → Replaced s opened n := fun n => replaced_of_insert hname
  intro n t ht
  rw [Subst.find?_insert] at ht
  split at ht
  · cases ht
    exact .inr (hm.imp fewer)
  · exact (h n t ht).imp_right fun hc => hc.imp fewer

theorem Follows.binds {s₀ s : Subst} (hs : Follows s₀ s) {opened : List String} {n : String} (h : Replaced s opened n) :
    s₀.binds n = true := by
  obtain ⟨-, t, hf, -⟩ := h
  obtain ⟨e, he, rfl⟩ := List.mem_map.1 (hs.bound hf)
  rw [Subst.binds, Subst.find?, Option.isSome_iff_ne_none]
  exact fun hnone => absurd (List.lookup_eq_none_iff.1 hnone e he) (by simp)

theorem cleared_of_unmentioned {s₀ s : Subst} (hs : Follows s₀ s) (opened : List String) {t : Ty}
    (h : t.mentions s₀ = false) : Cleared s opened t := by
  intro n hn hf
  have : t.mentions s₀ = true := hf.occurs rfl fun _ _ => hs.binds hn
  rw [h] at this
  cases this

theorem Named.free {A : String → Prop} {t : Ty} (h : Named A t) {n : String} (hf : Free n t) : A n := by
  induction hf with
  | here => exact named_param.1 h
  | part hu _ ih => exact ih (h.under (mem_parts_of_open hu))
  | yes _ _ ih => exact ih (h.under (by simp [parts]))

/-- What has to be known of the bindings and of a type so that nothing bound is left free in the result. -/
structure Clearable (s₀ s : Subst) (opened : List String) (t : Ty) : Prop where
  follows : Follows s₀ s
  bindings : s.Forall Built
  ready : Ready s₀ s opened
  named : Named s₀.Grounded t
  built : Built t
  shields : Shields s₀ t

theorem Clearable.under {s₀ s : Subst} {opened : List String} {t u : Ty} (h : Clearable s₀ s opened t) (hp : t.isParam = false)
    (hu : u ∈ t.parts) : Clearable s₀ s opened u :=
  ⟨h.follows, h.bindings, h.ready, h.named.under hu, h.built.part hp hu, h.shields.under hu⟩

section Cleared
variable {s₀ : Subst} {self : Subst → List String → Ty → Option Ty}
  (hself : ∀ s opened t u, self s opened t = some u →
    run true s opened t = some u ∧ (Clearable s₀ s opened t → Cleared s opened u))
  {s : Subst} {opened : List String} {check bound yes no : Ty} {distribute : Bool}
include hself

/-- A name does not occur in what it is replaced by, or else it would lead to itself. -/
theorem cleared_replaced {name : String} {constraint default t u : Ty} (h : Clearable s₀ s opened (param name constraint default))
    (hf : s.find? name = some t) (hu : self s (name :: opened) t = some u) : Cleared s opened u := by
  have hg := named_param.1 h.named
  have named := h.follows.named hf hg
  obtain ⟨hrun, ih⟩ := hself _ _ _ _ hu
  have fewer : ∀ n, Replaced s (name :: opened) n → Replaced s opened n :=
    fun n hn => ⟨fun ho => hn.1 (List.mem_cons_of_mem _ ho), hn.2⟩
  have deeper : Cleared s (name :: opened) u := by
    rcases h.ready name t hf with hsh | hc
    · exact ih ⟨h.follows, h.bindings, h.ready.imp (fun _ _ h => h) fewer, named.imp fun n hn => hg.of_leads hn,
        h.bindings.find? hf, hsh⟩
    · cases (run_cleared (h.bindings.find? hf) (hc.imp fewer)).symm.trans hrun
      exact hc.imp fewer
  rintro n ⟨ho, hb'⟩ hfree
  by_cases hn : n = name
  · exact hg.ne ((named_run (closed_leads hg) h.follows named hrun).free hfree) hn
  · exact deeper n ⟨by simp [hn, ho], hb'⟩ hfree

/-- Of a conditional that splits every alternative is taken with the name bound to it. -/
theorem cleared_split {name : String} {members us : List Ty} (h : Clearable s₀ s opened (conditional check bound yes no distribute))
    (hsplit : splits? self s opened check distribute = some (some (name, members)))
    (hus : members.mapM (fun m => self (s.insert name m) opened (conditional check bound yes no distribute)) = some us) :
    Cleared s opened (unionOf us) := by
  obtain ⟨rfl, c, d, r, rfl, hr, hself', ha⟩ := splits?_eq_some hsplit
  have hcheck := h.under rfl (u := param name c d) List.mem_cons_self
  have hg := named_param.1 hcheck.named
  obtain ⟨hrun, ih⟩ := hself _ _ _ _ hself'
  have clear : Cleared s opened r := ih hcheck
  have fixed := fixed_run hrun h.follows hcheck.named
  have normal := carried_normal.run (fun e he => (h.bindings e he).normal) hcheck.built.normal hrun
  intro n hn
  refine (inherited_notFree n).unionOf (Results.option.mapM (fun m hm v hv => ?_) us hus)
  have named : Named (TransGen s₀.Leads name) m := by
    rcases named_run_param h.follows hg hrun with rfl | hnamed
    · cases ha
    · exact Inherited.alternatives (inherited_named _) hnamed ha m hm
  have built : Built m := ⟨carried_normal.alternatives normal ha m hm, Inherited.alternatives inherited_tidy (tidy_run hrun) ha m hm⟩
  have cm : Cleared s opened m := fun k hk => Inherited.alternatives (inherited_notFree k) (clear k hk) ha m hm
  have deeper : Clearable s₀ (s.insert name m) opened (conditional (param name c d) bound yes no true) :=
    ⟨h.follows.insert hr hg named, h.bindings.insert name built, h.ready.insert hr cm, h.named, h.built, h.shields⟩
  exact (hself _ _ _ _ hv).2 deeper n (hr.insert (present_alternatives fixed ha m hm) hn)

/-- Of a conditional that stays whole the true branch is taken without the names that the bound declares, and these it
    goes on declaring. -/
theorem cleared_whole {check' bound' yes' no' : Ty} {flag : Bool} (h : Clearable s₀ s opened (conditional check bound yes no distribute))
    (hc : self s opened check = some check') (hb : self s opened bound = some bound')
    (hy : self (s.without bound.inferNames) opened yes = some yes') (hn' : self s opened no = some no') :
    Cleared s opened (conditional check' bound' yes' no' flag) := by
  have part : ∀ {v w}, v ∈ (conditional check bound yes no distribute).parts → self s opened v = some w → Cleared s opened w :=
    fun hv hw => (hself _ _ _ _ hw).2 (h.under rfl hv)
  have hyes := h.under rfl (u := yes) (by simp [parts])
  have hbound := h.under rfl (u := bound) (by simp [parts])
  have branch : Cleared (s.without bound.inferNames) opened yes' :=
    (hself _ _ _ _ hy).2 ⟨h.follows.without _, h.bindings.without _,
      h.ready.imp (fun _ _ h => Subst.find?_of_without h) fun n hn => (replaced_without.1 hn).2, hyes.named, hyes.built,
      hyes.shields⟩
  intro n hn hfree
  rcases free_conditional.1 hfree with hf | hf | hf | ⟨hx, hf⟩
  · exact part (by simp [parts]) hc n hn hf
  · exact part (by simp [parts]) hb n hn hf
  · exact part (by simp [parts]) hn' n hn hf
  · by_cases declared : n ∈ bound.inferNames
    · have hrun := (hself _ _ _ _ hb).1
      rcases h.shields.node _ _ _ _ _ rfl n declared (h.follows.binds hn) with hlast | hm
      · exact hx ((survives_run hrun (fun e he => (h.bindings e he).normal) hbound.built.normal).lasts hlast).mem_inferNames
      · cases (run_cleared hbound.built (cleared_of_unmentioned h.follows opened hm)).symm.trans hrun
        exact hx declared
    · exact branch n (replaced_without.2 ⟨declared, hn⟩) hf

omit hself in
/-- Of what is bound, nothing is free in the result of a substitution. -/
theorem cleared_run {t u : Ty} (h : run true s opened t = some u) : Clearable s₀ s opened t → Cleared s opened u := by
  refine run_induction (motive := fun s opened t u => Clearable s₀ s opened t → Cleared s opened u)
    (fun self hself s opened t u hstep hc => ?_) h
  cases hstep with
  | kept hr => exact fun n hn hf => hr (free_param.1 hf ▸ hn)
  | replaced hr hf hu => exact cleared_replaced hself hc hf hu
  | split hsplit hus => exact cleared_split hself hc hsplit hus
  | whole _ hcheck hbound hyes hno => exact cleared_whole hself hc hcheck hbound hyes hno
  | rebuilt hp hcond hu =>
    intro n hn
    refine (inherited_notFree n).rebuild Results.option hp hcond (fun {v} hk hv _ hf => ?_) (fun v hv w hw => ?_) u hu
    · obtain ⟨w, hw, hf⟩ := (free_iff ((isParam_of_kind hk).trans hp) ((isConditional_of_kind hk).trans hcond)).1 hf
      exact hv w hw hf
    · exact (hself _ _ _ _ hw).2 (hc.under hp hv) n hn

end Cleared

/-! ### Twice is once -/

/-- Substitution under acyclic bindings comes to an end, and a second one changes nothing, if bounds shield what they
    declare. -/
theorem substitution_idempotent {s : Subst} {t : Ty} (ht : Built t) (hs : s.Forall Built)
    (acyclic : ∀ n, ¬TransGen s.Leads n n) (hst : Shields s t) (hss : s.Forall (Shields s)) :
    (∃ r, run true s [] t = some r ∧ run true s [] r = some r) ∧
      ((t.substitute s).substitute s).identical (t.substitute s) = true := by
  have grounded : ∀ n, s.Grounded n := fun n m _ => acyclic m
  obtain ⟨r, hr⟩ := substitution_ends (s := s) (t := t) (fun n _ => grounded n) fun _ _ _ n _ => grounded n
  have named : Named s.Grounded t := throughout_of_occurs (fun _ => rfl) fun n _ => grounded n
  have follows : Follows s s := follows_self fun n u _ => throughout_of_occurs (fun _ => rfl) fun m _ => grounded m
  have cleared := cleared_run hr ⟨follows, hs, fun n u hu => .inl (hss.find? hu), named, ht, hst⟩
  have built : Built r := ⟨carried_normal.run (fun e he => (hs e he).normal) ht.normal hr, tidy_run hr⟩
  have again : run true s [] r = some r := run_cleared built cleared
  refine ⟨⟨r, hr, again⟩, ?_⟩
  have stays : r.substitute s = r := by
    unfold Ty.substitute
    rw [again]
    split <;> rfl
  have same : (t.substitute s).substitute s = t.substitute s := by
    cases hm : t.mentions s with
    | false =>
      have unchanged : t.substitute s = t := by rw [Ty.substitute, if_neg (by rw [hm]; nofun)]
      rw [unchanged, unchanged]
    | true =>
      have first : t.substitute s = r := by rw [Ty.substitute, if_pos hm, hr, Option.getD_some]
      rw [first, stays]
  rw [same]
  exact identical_refl _

theorem shields_of_unconditional {s : Subst} {t : Ty} (h : t.occurs isConditional = false) : Shields s t := by
  have none : Throughout parts (fun u => ∀ _ : Unit, u.isConditional = true → False) t :=
    throughout_of_occurs (fun _ => rfl) fun _ ho => by simp [h] at ho
  refine none.imp fun u hu check bound yes no distribute he => ?_
  subst he
  exact (hu () rfl).elim

/-- Checks the pair of a captured and a bound type. The captured one is bound outside as well. -/
def capturing : Ty :=
  conditional (param "P" absent absent) (tuple [infer "X" absent, param "Q" absent absent])
    (tuple [param "Q" absent absent, param "X" absent absent]) (param "X" absent absent) true

/-- `P` has alternatives, and `Q` leads to `R`. -/
def chained : Subst :=
  ⟨[("P", union [number, string]), ("Q", array (param "R" absent absent) false), ("R", string), ("X", number)]⟩

theorem chained_leads {a b : String} (h : chained.Leads a b) : a = "Q" ∧ b = "R" := by
  obtain ⟨t, ht, ho⟩ := h
  simp only [Subst.find?, chained, List.lookup] at ht
  have : a = "Q" ∧ t = array (param "R" absent absent) false ∨
      t = union [number, string] ∨ t = string ∨ t = number := by grind
  rcases this with ⟨rfl, rfl⟩ | rfl | rfl | rfl
  · refine ⟨rfl, ?_⟩
    simp only [occurs, isParamOf, Bool.false_or, beq_iff_eq] at ho
    exact ho.symm
  · cases ho
  · cases ho
  · cases ho

theorem substitution_idempotent_capturing :
    (∃ r, run true chained [] capturing = some r ∧ run true chained [] r = some r) ∧
      ((capturing.substitute chained).substitute chained).identical (capturing.substitute chained) = true := by
  have pair : ∀ {a b}, Built a → Built b → Built (tuple [a, b]) := fun ha hb =>
    built_plain rfl (List.forall_mem_cons.2 ⟨ha, List.forall_mem_singleton.2 hb⟩)
  have built : Built capturing :=
    built_conditional (fun _ => rfl) (built_param "P") (pair (built_plain rfl nofun) (built_param "Q"))
      (pair (built_param "Q") (built_param "X")) (built_param "X")
  have alternatives : Built (union [number, string]) :=
    built_pair (built_atom rfl) (built_atom rfl) rfl rfl rfl rfl (by decide)
  have values : chained.Forall Built :=
    Subst.forall_cons alternatives (Subst.forall_cons (built_plain rfl (List.forall_mem_singleton.2 (built_param "R")))
      (Subst.forall_cons (built_atom rfl) (Subst.forall_cons (built_atom rfl) Subst.forall_empty)))
  refine substitution_idempotent built values (fun n hn => ?_) ⟨?_, ?_⟩ ?_
  · have leads : ∀ {a b}, TransGen chained.Leads a b → a = "Q" ∧ b = "R" := by
      intro a b h
      induction h with
      | single h => exact chained_leads h
      | tail _ h ih => exact ⟨ih.1, (chained_leads h).2⟩
    obtain ⟨rfl, h⟩ := leads hn
    exact absurd h (by decide)
  · rintro _ _ _ _ _ ⟨⟩ x hx -
    refine .inl (.within rfl List.mem_cons_self (.here ?_))
    rw [show (tuple [infer "X" absent, param "Q" absent absent]).inferNames = ["X"] from rfl, List.mem_singleton] at hx
    rw [hx]
    rfl
  · simp only [capturing, parts, List.forall_mem_cons]
    exact ⟨shields_of_unconditional rfl, shields_of_unconditional rfl, shields_of_unconditional rfl,
      shields_of_unconditional rfl, nofun⟩
  · exact Subst.forall_cons (shields_of_unconditional rfl) (Subst.forall_cons (shields_of_unconditional rfl)
      (Subst.forall_cons (shields_of_unconditional rfl) (Subst.forall_cons (shields_of_unconditional rfl) Subst.forall_empty)))

/-- The bound declares `X` beside `P`. -/
def overshadowed : Ty :=
  conditional string (union [param "P" absent absent, infer "X" absent]) (param "X" absent absent) never false

def overshadowing : Subst := ⟨[("P", any), ("X", string)]⟩

/-- With `any` for `P` the bound is `any` and declares nothing. The first substitution leaves `X` in the true branch,
    and the second replaces it. -/
theorem shadow_lost :
    Built overshadowed ∧ overshadowing.Forall Built ∧ (∀ n, ¬TransGen overshadowing.Leads n n) ∧
      overshadowed.substitute overshadowing = conditional string any (param "X" absent absent) never false ∧
      ((overshadowed.substitute overshadowing).substitute overshadowing).identical
        (overshadowed.substitute overshadowing) = false := by
  have first : overshadowed.substitute overshadowing = conditional string any (param "X" absent absent) never false := by
    cbv
  have second : (conditional string any (param "X" absent absent) never false).substitute overshadowing =
      conditional string any string never false := by
    cbv
  have bound : Built (union [param "P" absent absent, infer "X" absent]) :=
    built_pair (built_param "P") (built_plain rfl (List.forall_mem_nil _)) rfl rfl rfl rfl (by decide)
  refine ⟨?_, ?_, fun n hn => ?_, first, ?_⟩
  · exact built_conditional (fun h => by cases h) (built_atom rfl) bound (built_param "X") (built_atom rfl)
  · exact Subst.forall_cons (built_atom rfl) (Subst.forall_cons (built_atom rfl) Subst.forall_empty)
  · obtain ⟨m, ⟨t, ht, ho⟩, -⟩ := TransGen.head'_iff.1 hn
    have closed : overshadowing.Forall fun t => t.occurs (isParamOf m) = false :=
      Subst.forall_cons rfl (Subst.forall_cons rfl Subst.forall_empty)
    rw [closed.find? ht] at ho
    cases ho
  · rw [first, second]
    rfl

end Substitute
end TypeCalculus

import Mathlib.Data.List.Pairwise
import TypeCalculus.Proofs.Substitute.Idempotent
import TypeCalculus.Proofs.Ty.Lasting

/-! Passing arguments on. Names are replaced at once by arguments, in which other names are then bound; binding the names
    in the arguments first gives the same type (`run_passed`). For that, no constructor may meet an argument and change
    what stands beside it: a name to be replaced stands under nodes that keep their parts, and in the check and in the
    branches of conditionals (`Plain`). Where a conditional splits over an argument, it is bound to one alternative in that
    place only, so no parameter with alternatives is passed on in two arguments (`Passes`). -/

namespace TypeCalculus.Substitute
open Ty

/-! ### Types without parameters -/

/-- The type has the normal form and holds no parameters. -/
structure Static (t : Ty) : Prop where
  built : Built t
  named : Named (fun _ => False) t

theorem Named.mentioned {A : String → Prop} {t : Ty} (h : Named A t) {n : String} (ho : t.occurs (isParamOf n) = true) : A n := by
  induction t using parts_induction with
  | step t ih =>
    rcases (occurs_iff rfl).1 ho with hn | ⟨u, hu, ho⟩
    · exact h.node n hn
    · exact ih u hu (h.under hu) ho

theorem Static.run {t : Ty} (h : Static t) (chain : Bool) (s : Subst) (opened : List String) : run chain s opened t = some t :=
  run_cleared h.built fun _ _ hf => h.named.free hf

theorem Static.alternatives {t : Ty} (h : Static t) {members : List Ty} (ha : alternatives? t = some members) :
    ∀ m ∈ members, Static m ∧ m ≠ absent := fun m hm =>
  ⟨⟨⟨carried_normal.alternatives h.built.normal ha m hm, Inherited.alternatives inherited_tidy h.built.tidy ha m hm⟩,
    Inherited.alternatives (inherited_named _) h.named ha m hm⟩, alternatives_present h.built.tidy.node.union ha m hm⟩

/-- Bindings to types without parameters do not lead on, so every substitution of them comes to an end. -/
theorem static_ends {s : Subst} (hs : s.Forall Static) (t : Ty) : ∃ u, Substitute.run true s [] t = some u := by
  have grounded : ∀ name, s.Grounded name := fun _ => grounded_of_not_leads fun _ ⟨_, hf, ho⟩ =>
    (hs.find? hf).named.mentioned ho
  exact substitution_ends (fun name _ => grounded name) fun _ _ _ name _ => grounded name

section Run
variable {chain : Bool} {s : Subst} {opened : List String} {t u : Ty}

theorem run_rebuilt (hp : t.isParam = false) (hc : t.isConditional = false) :
    run chain s opened t = some u ↔ t.rebuild (run chain s opened) = some u := by
  rw [run_iff]
  constructor
  · intro h
    cases h with
    | kept | replaced | taken => cases hp
    | split | whole => cases hc
    | rebuilt _ _ h => exact h
  · exact .rebuilt hp hc

/-- The second step has the results of the first. -/
def extending : Linked Option Option where
  All P x y := ∀ a, x = some a → y = some a ∧ P a
  pure h a e := by
    cases e
    exact ⟨rfl, h⟩
  bind hx hf b h := by
    obtain ⟨a, ha, hb⟩ := Option.bind_eq_some_iff.1 h
    obtain ⟨rfl, hp⟩ := hx a ha
    exact hf a hp b hb

theorem rebuild_extends {f g : Ty → Option Ty} (hp : t.isParam = false) (h : ∀ v ∈ t.parts, ∀ w, f v = some w → g v = some w)
    (hu : t.rebuild f = some u) : t.rebuild g = some u := by
  have parts : t.children = t.parts := by
    cases t with
    | param => cases hp
    | _ => rfl
  have linked := carried_true.rebuild (t := t) extending trivial fun v hv w hw => ⟨h v (parts ▸ hv) w hw, trivial⟩
  exact (linked u hu).1

theorem mapM_extends {f g : Ty → Option Ty} {ts us : List Ty} (h : ∀ v ∈ ts, ∀ w, f v = some w → g v = some w)
    (hu : ts.mapM f = some us) : ts.mapM g = some us :=
  (extending.mapM (fun v hv w hw => ⟨h v hv w hw, trivial⟩) us hu).1

theorem isParam_of_row (h : t.isRow = true) : t.isParam = false := by
  cases t <;> first | rfl | cases h

theorem isConditional_of_row (h : t.isRow = true) : t.isConditional = false := by
  cases t <;> first | rfl | cases h

theorem run_once_kept {name : String} {c d : Ty} (h : s.find? name = none) :
    run false s opened (param name c d) = some (param name c d) := by
  refine run_iff.2 (.kept ?_)
  rintro ⟨-, u, hu, -⟩
  rw [h] at hu
  cases hu

theorem run_once_taken {name : String} {c d : Ty} (h : s.find? name = some u) (hu : u ≠ absent) :
    run false s [] (param name c d) = some u :=
  run_iff.2 (.taken ⟨List.not_mem_nil, _, h, hu⟩ h)

/-- A conditional that distributes over a parameter to be replaced splits if the replacement has alternatives. -/
theorem splits?_of_replaced {self : Subst → List String → Ty → Option Ty} {name : String} {c d r : Ty}
    (h : Replaced s opened name) (hr : self s opened (param name c d) = some r) :
    splits? self s opened (param name c d) true = some ((alternatives? r).map fun ms => (name, ms)) := by
  obtain ⟨ho, u, hf, hu⟩ := h
  have isOpen : (opened.contains name || ((s.find? name).getD absent).isAbsent) = false := by
    rw [hf, Option.getD_some, Bool.or_eq_false_iff]
    exact ⟨by simpa using ho, Bool.eq_false_iff.2 fun ha => hu (isAbsent_iff.1 ha)⟩
  rw [splits?, isOpen, hr]
  rfl

end Run

/-! ### Bindings that agree -/

/-- The bindings agree on the names that the type mentions. -/
def AgreeOn (s s' : Subst) (t : Ty) : Prop :=
  ∀ n, t.occurs (isParamOf n) = true → s.find? n = s'.find? n ∨ ¬Replaced s [] n ∧ ¬Replaced s' [] n

section AgreeOn
variable {s s' : Subst} {t u : Ty}

theorem AgreeOn.symm (h : AgreeOn s s' t) : AgreeOn s' s t := fun n hn => (h n hn).imp Eq.symm And.symm

theorem AgreeOn.under (h : AgreeOn s s' t) (hu : u ∈ t.parts) : AgreeOn s s' u := fun n hn => h n (occurs_of_part rfl hu hn)

theorem AgreeOn.replaced (h : AgreeOn s s' t) {n : String} (hn : t.occurs (isParamOf n) = true) (hr : Replaced s [] n) :
    s'.find? n = s.find? n ∧ Replaced s' [] n := by
  rcases h n hn with he | ⟨hnot, -⟩
  · obtain ⟨-, v, hv, hp⟩ := hr
    exact ⟨he.symm, List.not_mem_nil, v, he ▸ hv, hp⟩
  · exact absurd hr hnot

theorem AgreeOn.without (h : AgreeOn s s' t) (names : List String) : AgreeOn (s.without names) (s'.without names) t := by
  intro n hn
  refine (h n hn).imp (fun he => ?_) (And.imp (fun hr => ?_) fun hr => ?_)
  · rw [Subst.find?_without, Subst.find?_without, he]
  · exact fun h => hr (replaced_without.1 h).2
  · exact fun h => hr (replaced_without.1 h).2

theorem AgreeOn.insert (h : AgreeOn s s' t) (name : String) (m : Ty) : AgreeOn (s.insert name m) (s'.insert name m) t := by
  intro n hn
  have replaced : ∀ {s : Subst}, n ≠ name → ¬Replaced s [] n → ¬Replaced (s.insert name m) [] n := by
    rintro s hne hr ⟨-, v, hv, hp⟩
    rw [Subst.find?_insert_ne _ _ hne] at hv
    exact hr ⟨List.not_mem_nil, v, hv, hp⟩
  by_cases hne : n = name
  · subst hne
    rw [Subst.find?_insert_self, Subst.find?_insert_self]
    exact .inl rfl
  · refine (h n hn).imp (fun he => ?_) (And.imp (replaced hne) (replaced hne))
    rw [Subst.find?_insert_ne _ _ hne, Subst.find?_insert_ne _ _ hne, he]

/-- Bindings to types without parameters that agree on what a type mentions make the same of it. -/
theorem run_agrees {x y : Ty} (h : run true s [] x = some y) :
    ∀ s', s.Forall Static → AgreeOn s s' x → run true s' [] x = some y := by
  refine run_induction (motive := fun s opened x y => opened = [] → ∀ s', s.Forall Static → AgreeOn s s' x →
    run true s' [] x = some y) (fun self hself s opened x y hstep => ?_) h rfl
  rintro rfl s' hs ha
  have part : ∀ {u w : Ty}, u ∈ x.parts → self s [] u = some w → run true s' [] u = some w := fun hu hw =>
    (hself _ _ _ _ hw).2 rfl s' hs (ha.under hu)
  cases hstep with
  | kept hr => exact run_iff.2 (.kept fun hr' => hr (ha.symm.replaced (occurs_self rfl (beq_self_eq_true _)) hr').2)
  | replaced hr hf hv =>
    obtain ⟨he, hr'⟩ := ha.replaced (occurs_self rfl (beq_self_eq_true _)) hr
    have given := (hself _ _ _ _ hv).1
    rw [(hs.find? hf).run] at given
    cases given
    exact run_iff.2 (.replaced hr' (he.trans hf) ((hs.find? hf).run _ _ _))
  | @split _ _ check _ _ _ name members us hsplit hus =>
    obtain ⟨hd, c, d, r, rfl, hr, hrun, halt⟩ := splits?_eq_some hsplit
    obtain ⟨-, hr'⟩ := ha.replaced (occurs_of_part rfl List.mem_cons_self (occurs_self rfl (beq_self_eq_true _))) hr
    subst hd
    have static : Static r := by
      obtain ⟨-, v, hv, hp⟩ := hr
      have given := (hself _ _ _ _ hrun).1
      rw [run_iff.2 (.replaced ⟨List.not_mem_nil, v, hv, hp⟩ hv ((hs.find? hv).run _ _ _))] at given
      cases given
      exact hs.find? hv
    have splits : splits? (run true) s' [] (param name c d) true = some (some (name, members)) := by
      rw [splits?_of_replaced hr' (part List.mem_cons_self hrun), halt]
      rfl
    refine run_iff.2 (.split splits (mapM_extends (fun m hm w hw => ?_) hus))
    exact (hself _ _ _ _ hw).2 rfl _ (hs.insert name (static.alternatives halt m hm).1) (ha.insert name m)
  | @whole _ distribute check bound yes no check' _ _ _ hsplit hc hb hy hn =>
    have check' := part List.mem_cons_self hc
    have splits : splits? (run true) s' [] check distribute = some none := by
      obtain ⟨split, hsplit'⟩ := @splits?_ends (run true) s' [] check distribute ⟨_, check'⟩
      rcases split with _ | ⟨name, members⟩
      · exact hsplit'
      · -- It would have split before.
        obtain ⟨rfl, c, d, r, rfl, hr', hrun, halt⟩ := splits?_eq_some hsplit'
        rw [check'] at hrun
        cases hrun
        obtain ⟨-, hr⟩ := ha.symm.replaced (occurs_of_part rfl List.mem_cons_self (occurs_self rfl (beq_self_eq_true _))) hr'
        rw [splits?_of_replaced hr hc, halt] at hsplit
        cases hsplit
    refine run_iff.2 (.whole splits check' (part (by simp [parts]) hb) ?_ (part (by simp [parts]) hn))
    exact (hself _ _ _ _ hy).2 rfl _ (hs.without _) ((ha.under (by simp [parts])).without _)
  | rebuilt hp hc hu => exact run_iff.2 (.rebuilt hp hc (rebuild_extends hp (fun v hv w hw => part hv hw) hu))

/-- A simultaneous substitution goes by what is bound to the names that are free in the type. -/
theorem run_once_agrees {x y : Ty} (h : run false s [] x = some y) :
    ∀ s', (∀ n, Free n x → s.find? n = s'.find? n) → run false s' [] x = some y := by
  refine run_induction (motive := fun s opened x y => opened = [] → ∀ s', (∀ n, Free n x → s.find? n = s'.find? n) →
    run false s' [] x = some y) (fun self hself s opened x y hstep => ?_) h rfl
  rintro rfl s' ha
  have part : ∀ {u w : Ty}, u ∈ openParts x → self s [] u = some w → run false s' [] u = some w := fun hu hw =>
    (hself _ _ _ _ hw).2 rfl s' fun n hn => ha n (.part hu hn)
  have replaced : ∀ {n}, Free n x → (Replaced s [] n ↔ Replaced s' [] n) := fun hn => by
    rw [Replaced, Replaced, ha _ hn]
  cases hstep with
  | kept hr => exact run_iff.2 (.kept (mt (replaced .here).2 hr))
  | taken hr hf => exact run_iff.2 (.taken ((replaced .here).1 hr) (ha _ .here ▸ hf))
  | @split _ _ check _ _ _ name members us hsplit hus =>
    obtain ⟨rfl, c, d, r, rfl, hr, hrun, halt⟩ := splits?_eq_some hsplit
    have hr' := (replaced (.part List.mem_cons_self .here)).1 hr
    have splits : splits? (run false) s' [] (param name c d) true = some (some (name, members)) := by
      rw [splits?_of_replaced hr' (part List.mem_cons_self hrun), halt]
      rfl
    refine run_iff.2 (.split splits (mapM_extends (fun m hm w hw => ?_) hus))
    refine (hself _ _ _ _ hw).2 rfl _ fun n hn => ?_
    rw [Subst.find?_insert, Subst.find?_insert, ha n hn]
  | @whole _ distribute check bound yes no check' _ _ _ hsplit hc hb hy hn =>
    have check' := part List.mem_cons_self hc
    have splits : splits? (run false) s' [] check distribute = some none := by
      obtain ⟨split, hsplit'⟩ := @splits?_ends (run false) s' [] check distribute ⟨_, check'⟩
      rcases split with _ | ⟨name, members⟩
      · exact hsplit'
      · -- It would have split before.
        obtain ⟨rfl, c, d, r, rfl, hr', hrun, halt⟩ := splits?_eq_some hsplit'
        rw [check'] at hrun
        cases hrun
        rw [splits?_of_replaced ((replaced (.part List.mem_cons_self .here)).2 hr') hc, halt] at hsplit
        cases hsplit
    refine run_iff.2 (.whole splits check' (part (by simp [openParts]) hb) ?_ (part (by simp [openParts]) hn))
    refine (hself _ _ _ _ hy).2 rfl _ fun n hn => ?_
    rw [Subst.find?_without, Subst.find?_without]
    split
    · rfl
    · rename_i hx
      exact ha n (.yes hx hn)
  | rebuilt hp hc hu =>
    exact run_iff.2 (.rebuilt hp hc (rebuild_extends hp (fun v hv w hw => part (openParts_eq hc ▸ hv) hw) hu))

end AgreeOn

/-! ### Arguments -/

/-- What an argument becomes when names are bound. Only a parameter may become one of several alternatives. -/
structure Passed (s : Subst) (t u : Ty) : Prop where
  run : run true s [] t = some u
  present : t ≠ absent ∧ u ≠ absent
  undivided : alternatives? t = none
  made : t.isParam = false → u.isParam = false ∧ alternatives? u = none

/-- The second bindings are the first with names bound in the arguments, to types without parameters. No parameter that
    may be bound to a type with alternatives is passed on in two arguments. -/
structure Passes (params names divided : List String) (s σ σ' : Subst) : Prop where
  static : s.Forall Static
  outer : ∀ n, Replaced s [] n → n ∈ names
  whole : ∀ n v, s.find? n = some v → n ∉ divided → alternatives? v = none
  inner : ∀ p, (σ.find? p).isSome = true → p ∈ params
  covers : ∀ p ∈ params, σ.find? p = none → p ∉ names
  passed : ∀ p, σ.find? p = none ∧ σ'.find? p = none ∨ ∃ t u, σ.find? p = some t ∧ σ'.find? p = some u ∧ Passed s t u
  distinct : ∀ n ∈ divided, ∀ p q t u, σ.find? p = some t → σ.find? q = some u → t.occurs (isParamOf n) = true →
    u.occurs (isParamOf n) = true → p = q

section Passes
variable {params names divided : List String} {s σ σ' : Subst} {t u : Ty}

/-- A parameter that is bound becomes what it is bound to. -/
theorem Passed.bound {n : String} {c d : Ty} (h : Passed s (param n c d) u) (hs : s.Forall Static) (hr : Replaced s [] n) :
    s.find? n = some u := by
  obtain ⟨-, v, hv, hp⟩ := id hr
  have given := h.run
  rw [run_iff.2 (.replaced hr hv ((hs.find? hv).run _ _ _))] at given
  cases given
  exact hv

theorem Passed.agrees {s' : Subst} (h : Passed s t u) (hs : s.Forall Static) (ha : AgreeOn s s' t) : Passed s' t u :=
  { h with run := run_agrees h.run s' hs ha }

theorem Passes.inner' (h : Passes params names divided s σ σ') (p : String) (hp : (σ'.find? p).isSome = true) : p ∈ params := by
  rcases h.passed p with ⟨-, hn⟩ | ⟨t, u, ht, -, -⟩
  · rw [hn] at hp
    cases hp
  · exact h.inner p (by rw [ht]; rfl)

theorem Passes.without (h : Passes params names divided s σ σ') {ns : List String} (hns : ∀ n ∈ ns, n ∉ names) :
    Passes params names divided (s.without ns) (σ.without ns) (σ'.without ns) where
  static := h.static.without ns
  outer n hn := h.outer n (replaced_without.1 hn).2
  whole n v hv := by
    rw [Subst.find?_without] at hv
    split at hv
    · cases hv
    · exact h.whole n v hv
  inner p hp := by
    rw [Subst.find?_without] at hp
    split at hp
    · cases hp
    · exact h.inner p hp
  covers p hp hn := by
    rw [Subst.find?_without] at hn
    split at hn
    · exact hns p ‹_›
    · exact h.covers p hp hn
  passed p := by
    rw [Subst.find?_without, Subst.find?_without]
    split
    · exact .inl ⟨rfl, rfl⟩
    · rcases h.passed p with hp | ⟨t, u, ht, hu, hp⟩
      · exact .inl hp
      · refine .inr ⟨t, u, ht, hu, hp.agrees h.static fun n _ => ?_⟩
        rw [Subst.find?_without]
        split
        · have unbound : ¬Replaced s [] n := fun hr => hns n ‹_› (h.outer n hr)
          exact .inr ⟨unbound, fun hr => unbound (replaced_without.1 hr).2⟩
        · exact .inl rfl
  distinct n hn p q t u hp hq := by
    rw [Subst.find?_without] at hp hq
    split at hp
    · cases hp
    · split at hq
      · cases hq
      · exact h.distinct n hn p q t u hp hq

/-- One of the alternatives of a bound parameter is passed on in its place. -/
theorem Passes.insert (h : Passes params names divided s σ σ') {p n : String} {c d m : Ty} (hp : σ.find? p = some (param n c d))
    (hr : Replaced s [] n) (hn : n ∈ divided) (hm : Static m) (present : m ≠ absent) :
    Passes params names divided (s.insert n m) σ (σ'.insert p m) where
  static := h.static.insert n hm
  outer x hx := h.outer x (replaced_of_insert hr hx)
  whole x v hv hx := by
    have other : x ≠ n := fun he => hx (he ▸ hn)
    rw [Subst.find?_insert_ne _ _ other] at hv
    exact h.whole x v hv hx
  inner := h.inner
  covers := h.covers
  passed q := by
    by_cases hq : q = p
    · subst hq
      rw [hp, Subst.find?_insert_self]
      refine .inr ⟨_, _, rfl, rfl, run_iff.2 ?_, ⟨nofun, present⟩, rfl, nofun⟩
      exact .replaced ⟨List.not_mem_nil, m, Subst.find?_insert_self _ _ _, present⟩ (Subst.find?_insert_self _ _ _)
        (hm.run _ _ _)
    · rw [Subst.find?_insert_ne _ _ hq]
      rcases h.passed q with hnone | ⟨t, u, ht, hu, hpassed⟩
      · exact .inl hnone
      · refine .inr ⟨t, u, ht, hu, hpassed.agrees h.static fun x hx => .inl ?_⟩
        rw [Subst.find?_insert_ne]
        rintro rfl
        exact hq (h.distinct _ hn q p _ _ ht hp hx (occurs_self rfl (beq_self_eq_true _)))
  distinct := h.distinct

theorem Passes.cleared (h : ∀ p, (σ.find? p).isSome = true → p ∈ params) (ht : Named (· ∉ params) t) : Cleared σ [] t := by
  rintro n ⟨-, u, hu, -⟩ hf
  exact ht.free hf (h n (by rw [hu]; rfl))

end Passes

/-! ### One substitution after the other -/

/-- The parameters to be replaced stand under nodes that keep their parts, and in the check and in the branches of
    conditionals that do not declare the names that are bound later. -/
inductive Plain (params names : List String) : Ty → Prop
  | apart {t : Ty} : Named (· ∉ params) t → Plain params names t
  | param {name : String} {constraint default : Ty} : Plain params names (param name constraint default)
  | row {t : Ty} : t.isRow = true → (∀ u ∈ t.parts, Plain params names u) → Plain params names t
  | conditional {check bound yes no : Ty} {distribute : Bool} : Plain params names check → Named (· ∉ params) bound →
      (∀ n ∈ bound.inferNames, n ∉ names) → Plain params names yes → Plain params names no →
      Plain params names (conditional check bound yes no distribute)

section Conditional
variable {params names divided : List String} {s σ σ' : Subst} {check bound yes no xc xy xn : Ty} {distribute : Bool}

/-- A parameter that is not replaced is none of the names to be bound later. -/
theorem Passes.unnamed (h : Passes params names divided s σ σ') {p : String} {c d : Ty}
    (hc : Named (fun n => n ∈ params ∨ n ∉ names) (param p c d)) (hn : σ.find? p = none) : p ∉ names :=
  (named_param.1 hc).elim (fun hp => h.covers p hp hn) id

/-- A parameter that is distributed over is replaced by an argument in both ways, which only splits if it is a bound
    parameter. -/
theorem Passes.checked (h : Passes params names divided s σ σ') (hp : check.isParam = true)
    (hc : Named (fun n => n ∈ params ∨ n ∉ names) check) (hx : run false σ [] check = some xc) :
    ∃ yc, run true s [] xc = some yc ∧ run false σ' [] check = some yc ∧
      (xc.isParam = false → yc.isParam = false ∧ alternatives? xc = none ∧ alternatives? yc = none) := by
  cases check with
  | param p c d =>
    rcases h.passed p with ⟨hn, hn'⟩ | ⟨a, b, ha, hb, hpassed⟩
    · rw [run_once_kept hn] at hx
      cases hx
      refine ⟨_, ?_, run_once_kept hn', nofun⟩
      exact run_iff.2 (.kept fun hr => h.unnamed hc hn (h.outer p hr))
    · rw [run_once_taken ha hpassed.present.1] at hx
      cases hx
      exact ⟨b, hpassed.run, run_once_taken hb hpassed.present.2, fun hparam =>
        ⟨(hpassed.made hparam).1, hpassed.undivided, (hpassed.made hparam).2⟩⟩
  | _ => cases hp

/-- A parameter that becomes a bound one is passed it as an argument. -/
theorem Passes.passed_bound (h : Passes params names divided s σ σ') {p n : String} {c d c' d' : Ty}
    (hc : Named (fun n => n ∈ params ∨ n ∉ names) (param p c d)) (hx : run false σ [] (param p c d) = some (param n c' d'))
    (hr : Replaced s [] n) :
    ∃ v, s.find? n = some v ∧ v ≠ absent ∧ σ.find? p = some (param n c' d') ∧ σ'.find? p = some v ∧
      run true s [] (param n c' d') = some v := by
  rcases h.passed p with ⟨hn, -⟩ | ⟨a, v, ha, hv, hpassed⟩
  · rw [run_once_kept hn] at hx
    cases hx
    exact absurd (h.outer _ hr) (h.unnamed hc hn)
  · rw [run_once_taken ha hpassed.present.1] at hx
    cases hx
    exact ⟨v, hpassed.bound h.static hr, hpassed.present.2, ha, hv, hpassed.run⟩

/-- Where a conditional is not split after names are bound, it is not split with the names bound in the argument. -/
theorem Passes.undivided (h : Passes params names divided s σ σ') {self : Subst → List String → Ty → Option Ty} {yc : Ty}
    (form : distribute = true → check.isParam = true)
    (hc : Named (fun n => n ∈ params ∨ n ∉ names) check) (hx : run false σ [] check = some xc)
    (hself : self s [] xc = some yc) (hy : run true s [] xc = some yc)
    (hsplit : splits? self s [] xc (xc.isParam && distribute) = some none) (hy' : run false σ' [] check = some yc) :
    splits? (run false) σ' [] check distribute = some none ∧
      (yc.isParam && (xc.isParam && distribute)) = (yc.isParam && distribute) := by
  constructor
  · obtain ⟨split, hsplit'⟩ := @splits?_ends (run false) σ' [] check distribute ⟨yc, hy'⟩
    rcases split with _ | ⟨p, members⟩
    · exact hsplit'
    · obtain ⟨rfl, c, d, r, rfl, -, hr, ha⟩ := splits?_eq_some hsplit'
      rw [hy'] at hr
      cases hr
      obtain ⟨yc', hrun, -, made⟩ := h.checked rfl hc hx
      rw [hy] at hrun
      cases hrun
      cases xc with
      | param n c' d' =>
        by_cases hr : Replaced s [] n
        · rw [show ((param n c' d').isParam && true) = true from rfl, splits?_of_replaced hr hself, ha] at hsplit
          cases hsplit
        · rw [run_iff.2 (.kept hr)] at hy
          cases hy
          cases ha
      | _ =>
        rw [(made rfl).2.2] at ha
        cases ha
  · cases distribute with
    | false => rw [Bool.and_false, Bool.and_false]
    | true =>
      obtain ⟨yc', hrun, -, made⟩ := h.checked (form rfl) hc hx
      rw [hy] at hrun
      cases hrun
      cases hp : xc.isParam with
      | false => rw [(made hp).1, Bool.false_and, Bool.false_and]
      | true => rw [Bool.true_and]

end Conditional

/-- What binding names makes of a type, it makes of everything the type comes from when arguments are passed: there the
    arguments may be passed with the names bound in them. -/
def PassesOn (params names divided : List String) (s : Subst) (x y : Ty) : Prop :=
  ∀ σ σ' t, Passes params names divided s σ σ' → Plain params names t → Built t →
    Named (fun n => n ∈ params ∨ n ∉ names) t → run false σ [] t = some x → run false σ' [] t = some y

section Conditional
variable {params names divided : List String} {self : Subst → List String → Ty → Option Ty}
  (hself : ∀ s opened x y, self s opened x = some y →
    run true s opened x = some y ∧ (opened = [] → PassesOn params names divided s x y))
  {s σ σ' : Subst} (hσ : Passes params names divided s σ σ') {check bound yes no x xc yc yb yy yn : Ty} {distribute : Bool}

/-- The bound mentions none of the names, and stays as it is. -/
theorem Passes.bound_kept (h : Passes params names divided s σ σ') (hb : Built bound) (ha : Named (· ∉ params) bound)
    (ht : Named (fun n => n ∈ params ∨ n ∉ names) bound) :
    run false σ [] bound = some bound ∧ run true s [] bound = some bound ∧ run false σ' [] bound = some bound :=
  ⟨run_cleared hb (Passes.cleared h.inner ha),
    run_cleared hb fun n hn hf => ((ht.free hf).resolve_left (ha.free hf)) (h.outer n hn),
    run_cleared hb (Passes.cleared h.inner' ha)⟩

include hself hσ

/-- A conditional over a parameter that is split when names are bound splits over what the argument becomes. -/
theorem passed_split {members us : List Ty} {n : String} (hplain : Plain params names (conditional check bound yes no distribute))
    (hb : Built (conditional check bound yes no distribute))
    (ht : Named (fun n => n ∈ params ∨ n ∉ names) (conditional check bound yes no distribute))
    (hx : run false σ [] (conditional check bound yes no distribute) = some x) (hcx : run false σ [] check = some xc)
    (hsplit : splits? self s [] xc (xc.isParam && distribute) = some (some (n, members)))
    (hus : members.mapM (fun m => self (s.insert n m) [] x) = some us) :
    run false σ' [] (conditional check bound yes no distribute) = some (unionOf us) := by
  obtain ⟨hflag, c', d', r, rfl, hr, hrun, ha⟩ := splits?_eq_some hsplit
  have hdist : distribute = true := hflag
  subst hdist
  have hp : check.isParam = true := (normal_conditional.1 hb.normal).1 rfl
  cases check with
  | param p c d =>
    obtain ⟨v, hv, present, hf, hf', hrun'⟩ := hσ.passed_bound (ht.under (by simp [parts])) hcx hr
    rw [(hself _ _ _ _ hrun).1] at hrun'
    cases hrun'
    have splits : splits? (run false) σ' [] (param p c d) true = some (some (p, members)) := by
      rw [splits?_of_replaced ⟨List.not_mem_nil, _, hf', present⟩ (run_once_taken hf' present), ha]
      rfl
    refine run_iff.2 (.split splits (mapM_extends (fun m hm w hw => ?_) hus))
    obtain ⟨hstatic, hpresent⟩ := (hσ.static.find? hv).alternatives ha m hm
    have divides : n ∈ divided := by
      by_contra hn
      rw [hσ.whole n _ hv hn] at ha
      cases ha
    exact (hself _ _ _ _ hw).2 rfl σ _ _ (hσ.insert hf hr divides hstatic hpresent) hplain hb ht hx
  | _ => cases hp

/-- A conditional that stays whole when names are bound stays whole with the names bound in the arguments. -/
theorem passed_whole {xn xy : Ty} (hc : Plain params names check) (hbound : Named (· ∉ params) bound)
    (hdecl : ∀ n ∈ bound.inferNames, n ∉ names) (hyes : Plain params names yes) (hno : Plain params names no)
    (hb : Built (conditional check bound yes no distribute))
    (ht : Named (fun n => n ∈ params ∨ n ∉ names) (conditional check bound yes no distribute))
    (hcx : run false σ [] check = some xc) (hyx : run false (σ.without bound.inferNames) [] yes = some xy)
    (hnx : run false σ [] no = some xn) (hsplit : splits? self s [] xc (xc.isParam && distribute) = some none)
    (hcy : self s [] xc = some yc) (hby : self s [] bound = some yb) (hyy : self (s.without bound.inferNames) [] xy = some yy)
    (hny : self s [] xn = some yn) :
    run false σ' [] (conditional check bound yes no distribute) =
      some (conditional yc yb yy yn (yc.isParam && (xc.isParam && distribute))) := by
  have part : ∀ {u}, u ∈ (conditional check bound yes no distribute).parts → Built u := hb.part rfl
  obtain ⟨-, kept, kept'⟩ := hσ.bound_kept (part (by simp [parts])) hbound (ht.under (by simp [parts]))
  have bound' := (hself _ _ _ _ hby).1
  rw [kept] at bound'
  cases bound'
  have check' := (hself _ _ _ _ hcy).2 rfl σ σ' check hσ hc (part (by simp [parts])) (ht.under (by simp [parts])) hcx
  have no' := (hself _ _ _ _ hny).2 rfl σ σ' no hσ hno (part (by simp [parts])) (ht.under (by simp [parts])) hnx
  have yes' := (hself _ _ _ _ hyy).2 rfl _ _ yes (hσ.without hdecl) hyes (part (by simp [parts]))
    (ht.under (by simp [parts])) hyx
  obtain ⟨splits, flag⟩ := hσ.undivided (normal_conditional.1 hb.normal).1 (ht.under (by simp [parts])) hcx hcy
    (hself _ _ _ _ hcy).1 hsplit check'
  rw [flag]
  exact run_iff.2 (.whole splits check' kept' yes' no')

end Conditional

/-- Binding names after arguments are passed gives what passing the arguments with the names bound gives. -/
theorem run_passed {params names divided : List String} {s : Subst} {x y : Ty} (h : run true s [] x = some y) :
    PassesOn params names divided s x y := by
  refine run_induction (motive := fun s opened x y => opened = [] → PassesOn params names divided s x y)
    (fun self hself s opened x y hstep => ?_) h rfl
  rintro rfl σ σ' t hσ hplain hb ht hx
  have hy : run true s [] x = some y := by
    rw [run]
    exact step_extend (fun s o t u hu => (hself s o t u hu).1) true s [] x y (step_iff.2 hstep)
  cases hplain with
  | apart ha =>
    obtain ⟨kept, kept', kept''⟩ := hσ.bound_kept hb ha ht
    cases kept.symm.trans hx
    cases kept'.symm.trans hy
    exact kept''
  | @param name c d =>
    obtain ⟨y', hy', h', -⟩ := hσ.checked rfl ht hx
    rw [hy'] at hy
    cases hy
    exact h'
  | row hrow hparts =>
    have hp := isParam_of_row hrow
    have hc := isConditional_of_row hrow
    rw [run_rebuilt hp hc] at hx ⊢
    have hxrow := isRow_rebuild hb.normal.form hrow hx
    cases hstep with
    | kept | replaced => cases isParam_of_row hxrow
    | split | whole => cases isConditional_of_row hxrow
    | rebuilt _ _ hstep =>
      rw [rebuild_twice hb.normal.form hrow hx] at hstep
      refine rebuild_extends hp (fun v hv w hw => ?_) hstep
      obtain ⟨z, -, hz⟩ := partner (parts_rebuild hb.normal.form hrow hx) hv
      rw [hz, Option.getD_some] at hw
      exact (hself _ _ _ _ hw).2 rfl σ σ' v hσ (hparts v hv) (hb.part hp hv) (ht.under hv) hz
  | @conditional check bound yes no distribute hc hbound hdecl hyes hno =>
    cases run_iff.1 hx with
    | split hsplit =>
      -- Arguments have no alternatives.
      obtain ⟨hdist, c, d, r, rfl, -, hrun, ha⟩ := splits?_eq_some hsplit
      obtain ⟨y', -, -, made⟩ := hσ.checked rfl (ht.under (by simp [parts])) hrun
      cases r with
      | param => cases ha
      | _ =>
        rw [(made rfl).2.1] at ha
        cases ha
    | whole _ hcx hbx hyx hnx =>
      cases (hσ.bound_kept (hb.part rfl (by simp [parts])) hbound (ht.under (by simp [parts]))).1.symm.trans hbx
      cases hstep with
      | split hsplit hus => exact passed_split hself hσ (.conditional hc hbound hdecl hyes hno) hb ht hx hcx hsplit hus
      | whole hsplit hcy hby hyy hny =>
        exact passed_whole hself hσ hc hbound hdecl hyes hno hb ht hcx hyx hnx hsplit hcy hby hyy hny
      | rebuilt _ hcond => cases hcond
    | rebuilt _ hcond => cases hcond

/-! ### Lists of arguments -/

/-- A substitution at once has a result, which is what it gives. -/
theorem run_once {t : Ty} (ht : Built t) (s : Subst) : run false s [] t = some (t.substituteOnce s) := by
  obtain ⟨u, hu⟩ := once_ends s [] t
  rw [substituteOnce]
  split
  · rw [hu]
    rfl
  · rename_i hm
    refine run_cleared ht fun n ⟨_, v, hv, _⟩ hf => hm (hf.occurs rfl fun _ _ => ?_)
    exact Option.isSome_iff_exists.2 ⟨v, hv⟩

/-- Bindings that agree on what is free in a type make the same of it, unless it is left as it is under one of them only and
    does not have its normal form. -/
theorem substituteOnce_agrees {t : Ty} {s s' : Subst} (ha : ∀ n, Free n t → s.find? n = s'.find? n)
    (h : Built t ∨ t.mentions s = t.mentions s') : t.substituteOnce s = t.substituteOnce s' := by
  rcases h with hb | hm
  · exact Option.some.inj ((run_once_agrees (run_once hb s) s' ha).symm.trans (run_once hb s'))
  · obtain ⟨u, hu⟩ := once_ends s [] t
    rw [substituteOnce, substituteOnce, hm, hu, run_once_agrees hu s' ha]

/-- A substitution gives the result of its run. -/
theorem substitute_of_run {s : Subst} {t u : Ty} (ht : Built t) (h : run true s [] t = some u) : t.substitute s = u := by
  rw [substitute]
  split
  · rw [h]
    rfl
  · rename_i hm
    have same : run true s [] t = some t := by
      refine run_cleared ht fun n hr hf => hm (hf.occurs rfl fun _ _ => ?_)
      obtain ⟨-, v, hv, -⟩ := hr
      exact Option.isSome_iff_exists.2 ⟨v, hv⟩
    rw [same] at h
    exact Option.some.inj h

theorem mem_of_find?_ofList {entries : List (String × Ty)} {p : String} {t : Ty} (h : (Subst.ofList entries).find? p = some t) :
    (p, t) ∈ entries := by
  have fold : ∀ (entries : List (String × Ty)) (σ : Subst),
      (entries.foldl (fun σ e => σ.insert e.1 e.2) σ).find? p = some t → (p, t) ∈ entries ∨ σ.find? p = some t := by
    intro entries
    induction entries with
    | nil => exact fun _ h => .inr h
    | cons e entries ih =>
      intro σ h
      rcases ih _ h with h | h
      · exact .inl (List.mem_cons_of_mem _ h)
      · rw [Subst.find?_insert] at h
        split at h
        · rename_i he
          cases h
          exact .inl (he ▸ List.mem_cons_self)
        · exact .inr h
  exact (fold entries {} h).resolve_right nofun

theorem find?_ofList_of_mem {entries : List (String × Ty)} {p : String} (h : p ∈ entries.map (·.1)) :
    ((Subst.ofList entries).find? p).isSome = true := by
  have fold : ∀ (entries : List (String × Ty)) (σ : Subst), p ∈ entries.map (·.1) ∨ (σ.find? p).isSome = true →
      ((entries.foldl (fun σ e => σ.insert e.1 e.2) σ).find? p).isSome = true := by
    intro entries
    induction entries with
    | nil => exact fun _ h => h.resolve_left nofun
    | cons e entries ih =>
      intro σ h
      refine ih _ ?_
      rw [Subst.find?_insert]
      split
      · exact .inr rfl
      · rename_i hne
        refine h.imp_left fun h => (List.mem_cons.1 h).resolve_left hne
  exact fold entries {} (.inl h)

theorem passed_ofList {s : Subst} {args us : List Ty} (h : List.Forall₂ (Passed s) args us) (params : List String) (p : String) :
    (Subst.ofList (params.zip args)).find? p = none ∧ (Subst.ofList (params.zip us)).find? p = none ∨
      ∃ t u, (Subst.ofList (params.zip args)).find? p = some t ∧ (Subst.ofList (params.zip us)).find? p = some u ∧
        Passed s t u := by
  have fold : ∀ (params : List String) (σ σ' : Subst),
      (σ.find? p = none ∧ σ'.find? p = none ∨ ∃ t u, σ.find? p = some t ∧ σ'.find? p = some u ∧ Passed s t u) →
      let τ := (params.zip args).foldl (fun σ e => σ.insert e.1 e.2) σ
      let τ' := (params.zip us).foldl (fun σ e => σ.insert e.1 e.2) σ'
      τ.find? p = none ∧ τ'.find? p = none ∨ ∃ t u, τ.find? p = some t ∧ τ'.find? p = some u ∧ Passed s t u := by
    induction h with
    | nil =>
      intro params σ σ' hσ
      cases params <;> exact hσ
    | cons hp _ ih =>
      intro params σ σ' hσ
      cases params with
      | nil => exact hσ
      | cons q params =>
        refine ih params _ _ ?_
        rw [Subst.find?_insert, Subst.find?_insert]
        split
        · exact .inr ⟨_, _, rfl, rfl, hp⟩
        · exact hσ
  exact fold params {} {} (.inl ⟨rfl, rfl⟩)

/-- Arguments are passed to parameters one by one. -/
theorem passes_ofList {params names divided : List String} {s : Subst} {args us : List Ty} (hs : s.Forall Static)
    (ho : ∀ n, Replaced s [] n → n ∈ names) (hw : ∀ n v, s.find? n = some v → n ∉ divided → alternatives? v = none)
    (hl : args.length = params.length) (h : List.Forall₂ (Passed s) args us)
    (hd : args.Pairwise fun a b => ∀ n ∈ divided, ¬(a.occurs (isParamOf n) = true ∧ b.occurs (isParamOf n) = true)) :
    Passes params names divided s (Subst.ofList (params.zip args)) (Subst.ofList (params.zip us)) where
  static := hs
  outer := ho
  whole := hw
  inner p hp := by
    obtain ⟨t, ht⟩ := Option.isSome_iff_exists.1 hp
    exact (List.of_mem_zip (mem_of_find?_ofList ht)).1
  covers p hp hn := by
    have found : ((Subst.ofList (params.zip args)).find? p).isSome = true := by
      refine find?_ofList_of_mem ?_
      rwa [List.map_fst_zip hl.ge]
    rw [hn] at found
    cases found
  passed := passed_ofList h params
  distinct n hn p q t u hp hq ht hu := by
    let R : String × Ty → String × Ty → Prop := fun e e' => e.2.occurs (isParamOf n) = true → e'.2.occurs (isParamOf n) = true →
      e.1 = e'.1
    have symm : Std.Symm R := ⟨fun _ _ h h₁ h₂ => (h h₂ h₁).symm⟩
    have apart : (params.zip args).Pairwise R := by
      clear hp hq h hl symm
      induction args generalizing params with
      | nil => rw [List.zip_nil_right]; exact .nil
      | cons a args ih =>
        cases params with
        | nil => exact .nil
        | cons p params =>
          obtain ⟨ha, hrest⟩ := List.pairwise_cons.1 hd
          exact .cons (fun e he h h' => absurd ⟨h, h'⟩ (ha e.2 (List.of_mem_zip he).2 n hn)) (ih hrest)
    exact apart.forall_of_forall (fun _ _ _ _ => rfl) (mem_of_find?_ofList hp) (mem_of_find?_ofList hq) ht hu

end TypeCalculus.Substitute

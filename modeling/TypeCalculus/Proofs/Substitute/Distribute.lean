import TypeCalculus.Proofs.Substitute.Compose
import TypeCalculus.Proofs.Ty.Members

/-! How a distributive conditional is split. With its parameter bound to a union, it becomes the union of what it becomes
    with the parameter bound to each of the members (`run_distributes`). Members are told apart by the conditionals that
    check them, so none of these are lost. -/

namespace TypeCalculus.Substitute
open Ty

/-- The types that the conditional checks once its parameter is bound. -/
def checked (t : Ty) : List Ty := (alternatives? t).getD [t]

theorem checked_member {m : Ty} (h : m.isUnionMember = true) :
    m = .prim .boolean ∧ checked m = booleans ∨ alternatives? m = none ∧ checked m = [m] := by
  unfold checked alternatives?
  split
  · cases h
  · exact .inl ⟨rfl, rfl⟩
  · cases h
  · exact .inr ⟨rfl, rfl⟩

theorem pair_of_form {ms : List Ty} (form : UnionForm ms) : ∃ m n, m ∈ ms ∧ n ∈ ms ∧ m.identical n = false := by
  have two := form.two
  match ms, form.apart, two with
  | m :: n :: rest, apart, _ =>
    exact ⟨m, n, List.mem_cons_self, List.mem_cons_of_mem _ List.mem_cons_self,
      List.rel_of_pairwise_cons apart List.mem_cons_self⟩

/-- Different members of a union are checked in different conditionals. -/
theorem checked_apart {ms : List Ty} (form : UnionForm ms) {m n x y : Ty} (hm : m ∈ ms) (hn : n ∈ ms)
    (ha : m.identical n = false) (hx : x ∈ checked m) (hy : y ∈ checked n) : x.identical y = false := by
  have other : ∀ {z w}, Ty.prim .boolean ∈ ms → z ∈ booleans → w ∈ ms → ¬w.identical z = true := by
    intro z w hb hz hw hi
    have literal : ∃ text, z = .literal .boolean text := by
      rcases List.mem_pair.1 hz with rfl | rfl <;> exact ⟨_, rfl⟩
    obtain ⟨text, rfl⟩ := literal
    obtain rfl := eq_of_identical_atom rfl hi
    exact form.uncovered _ _ hw hb
  by_contra hi
  have same := Bool.eq_true_of_not_eq_false hi
  rcases checked_member (form.single m hm) with ⟨rfl, he⟩ | ⟨-, he⟩ <;>
    rcases checked_member (form.single n hn) with ⟨rfl, he'⟩ | ⟨-, he'⟩ <;> rw [he] at hx <;> rw [he'] at hy
  · rw [identical_refl] at ha
    cases ha
  · rw [List.mem_singleton.1 hy] at same
    exact other hm hx hn (identical_symm same)
  · rw [List.mem_singleton.1 hx] at same
    exact other hn hy hm same
  · rw [List.mem_singleton.1 hx, List.mem_singleton.1 hy, ha] at same
    cases same

section Run
variable {s : Subst} {name : String} {constraint default bound yes no u : Ty}

theorem run_bound (hs : s.Forall Static) (hu : s.find? name = some u) (hp : u ≠ absent) (opened : List String)
    (ho : name ∉ opened) : run true s opened (param name constraint default) = some u :=
  run_iff.2 (.replaced ⟨ho, u, hu, hp⟩ hu ((hs.find? hu).run true s _))

/-- Bound to a type with alternatives, the parameter splits the conditional. -/
theorem run_split (hs : s.Forall Static) (hu : s.find? name = some u) (hp : u ≠ absent) {ms : List Ty}
    (ha : alternatives? u = some ms) :
    ∃ us, ms.mapM (fun m => run true (s.insert name m) [] (conditional (param name constraint default) bound yes no true)) =
        some us ∧
      run true s [] (conditional (param name constraint default) bound yes no true) = some (unionOf us) := by
  have split := splits?_of_replaced ⟨List.not_mem_nil, u, hu, hp⟩
    (@run_bound s name constraint default u hs hu hp [] List.not_mem_nil)
  rw [ha] at split
  obtain ⟨us, hus⟩ := ends_mapM fun m (hm : m ∈ ms) => static_ends
    (hs.insert name ((hs.find? hu).alternatives ha m hm).1) (conditional (param name constraint default) bound yes no true)
  exact ⟨us, hus, run_iff.2 (.split split hus)⟩

/-- Bound to a type without alternatives, the parameter is replaced. -/
theorem run_whole (hs : s.Forall Static) (hu : s.find? name = some u) (hp : u ≠ absent) (ha : alternatives? u = none) :
    ∃ v, run true s [] (conditional (param name constraint default) bound yes no true) = some v ∧ v.Inspects u := by
  have check := @run_bound s name constraint default u hs hu hp [] List.not_mem_nil
  have split := splits?_of_replaced ⟨List.not_mem_nil, u, hu, hp⟩ check
  rw [ha] at split
  obtain ⟨bound', hbound⟩ := static_ends hs bound
  obtain ⟨yes', hyes⟩ := static_ends (hs.without bound.inferNames) yes
  obtain ⟨no', hno⟩ := static_ends hs no
  exact ⟨_, run_iff.2 (.whole split check hbound hyes hno), _, _, _, _, rfl⟩

/-- Bound to a member of a union, the conditional becomes one for each type that is checked then. -/
theorem run_member (hs : s.Forall Static) (hu : s.find? name = some u) (hp : u ≠ absent) (hm : u.isUnionMember = true) :
    ∃ v, run true s [] (conditional (param name constraint default) bound yes no true) = some v ∧ Cases (checked u) v := by
  rcases checked_member hm with ⟨rfl, he⟩ | ⟨ha, he⟩
  · obtain ⟨vs, hvs, hrun⟩ := @run_split s name constraint default bound yes no _ hs hu hp booleans rfl
    refine ⟨_, hrun, (united_cases ?_ fun v hv => ?_).1⟩
    · rintro rfl
      cases forall₂_of_mapM hvs
    · obtain ⟨x, hx, hxv⟩ := partner (forall₂_of_mapM hvs).flip hv
      obtain ⟨static, present⟩ := (hs.find? hu).alternatives rfl x hx
      have plain : alternatives? x = none := by
        rcases List.mem_pair.1 hx with rfl | rfl <;> rfl
      obtain ⟨w, hw, hi⟩ := @run_whole _ name constraint default bound yes no x (hs.insert name static)
        (s.find?_insert_self name x) present plain
      cases hxv.symm.trans hw
      exact .one (he ▸ hx) hi
  · obtain ⟨v, hrun, hi⟩ := @run_whole s name constraint default bound yes no u hs hu hp ha
    exact ⟨v, hrun, .one (he ▸ List.mem_singleton_self u) hi⟩

/-- Bound to a union, the conditional becomes the union of what it becomes for the members. -/
theorem run_distributes {ms : List Ty} (hs : s.Forall Static) (hu : s.find? name = some (union ms)) (form : UnionForm ms) :
    ∃ us, ms.mapM (fun m => run true (s.insert name m) [] (conditional (param name constraint default) bound yes no true)) =
        some us ∧
      run true s [] (conditional (param name constraint default) bound yes no true) = some (unionOf us) ∧
      us ≠ [] ∧ (∀ u ∈ us, Cases (ms.flatMap checked) u) ∧ ∃ cs, unionOf us = .union cs := by
  obtain ⟨us, hus, hrun⟩ := @run_split s name constraint default bound yes no _ hs hu nofun ms rfl
  have whole := forall₂_of_mapM hus
  have each : ∀ {m v}, m ∈ ms →
      run true (s.insert name m) [] (conditional (param name constraint default) bound yes no true) = some v → Cases (checked m) v := by
    intro m v hm hv
    obtain ⟨static, present⟩ := (hs.find? hu).alternatives rfl m hm
    obtain ⟨w, hw, made⟩ := @run_member _ name constraint default bound yes no m (hs.insert name static)
      (s.find?_insert_self name m) present (form.single m hm)
    cases hv.symm.trans hw
    exact made
  have made : ∀ u ∈ us, Cases (ms.flatMap checked) u := by
    intro v hv
    obtain ⟨m, hm, hrun⟩ := partner whole.flip hv
    exact (each hm hrun).mono fun x hx => List.mem_flatMap.2 ⟨m, hm, hx⟩
  obtain ⟨m, n, hm, hn, apart⟩ := pair_of_form form
  obtain ⟨v, hv, hmv⟩ := partner whole hm
  obtain ⟨w, hw, hnw⟩ := partner whole hn
  refine ⟨us, hus, hrun, List.ne_nil_of_mem hv, made, ?_⟩
  obtain ⟨c, hc⟩ := List.exists_mem_of_ne_nil _ (made v hv).members.1
  obtain ⟨c', hc'⟩ := List.exists_mem_of_ne_nil _ (made w hw).members.1
  obtain ⟨x, hx, hi⟩ := (each hm hmv).members.2 c hc
  obtain ⟨y, hy, hi'⟩ := (each hn hnw).members.2 c' hc'
  exact union_of_apart made hv hw hc hc' (hi.apart hi' (checked_apart form hm hn apart hx hy))

end Run
end TypeCalculus.Substitute

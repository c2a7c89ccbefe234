import TypeCalculus.Proofs.Assignable.DepthLimit

/-! The answer of a comparison apart from its limit. Where a comparison is not cut off, its answer does not depend on
    the limit (`accepts_of_uncut`), and it is one step over the answers for lighter pairs (`accepts_eq_check`). -/

namespace TypeCalculus.Assignable

/-! ### Answers apart from states -/

/-- Both comparisons give one answer, from any states. -/
def SameAnswer (x y : Relating Bool) : Prop := ∀ p q, (x p).1 = (y q).1

theorem sameAnswer_compatible : Compatible (fun _ => True) SameAnswer where
  answer _ _ _ := rfl
  both {x x' y y'} hx hy p q := by
    change ((if (x p).1 then y else pure false : Relating Bool) (x p).2).1 =
      ((if (x' q).1 then y' else pure false : Relating Bool) (x' q).2).1
    rw [hx p q]
    split
    · exact hy _ _
    · rfl
  either {x x' y y'} hx hy p q := by
    change ((if (x p).1 then pure true else y : Relating Bool) (x p).2).1 =
      ((if (x' q).1 then pure true else y' : Relating Bool) (x' q).2).1
    rw [hx p q]
    split
    · rfl
    · exact hy _ _
  attempt hx p q := by
    rw [attempt_run, attempt_run]
    exact hx p q
  capture _ _ _ _ := rfl
  report _ _ _ _ := rfl

theorem relate_sameAnswer (o : Options) (n : Nat) (a b : Ty) : SameAnswer (relate o n a b) (relate o n a b) := by
  have accepts := (@relate_refines o o rfl n n (Nat.le_refl n) a b).accepts
  exact fun p q => Bool.eq_iff_iff.2 ⟨accepts p q, accepts q p⟩

/-! ### The answer without a limit -/

/-- Whether the first type is assignable to the second under a limit that does not matter. -/
def accepts (a b : Ty) : Bool := (run ⟨a.weight + b.weight, false⟩ a b).1

theorem accepts_of_uncut {d : Nat} {a b : Ty} (h : (run ⟨d, false⟩ a b).2.clipped = false) :
    (run ⟨d, false⟩ a b).1 = accepts a b := by
  have uncut := relate_uncut ⟨a.weight + b.weight, false⟩ (Nat.le_refl (a.weight + b.weight)) {} rfl
  unfold accepts
  rcases Nat.le_total d (a.weight + b.weight) with hd | hd
  · have refines := @relate_refines ⟨d, false⟩ ⟨a.weight + b.weight, false⟩ rfl _ _ hd a b
    exact congrArg (·.1) (refines.same {} h).symm
  · have refines := @relate_refines ⟨a.weight + b.weight, false⟩ ⟨d, false⟩ rfl _ _ hd a b
    exact congrArg (·.1) (refines.same {} uncut)

theorem accepts_of_enough {n : Nat} {a b : Ty} (h : a.weight + b.weight ≤ n) (o : Options) (ho : o.anyFits = false) :
    SameAnswer (relate o n a b) (pure (accepts a b)) := by
  intro p q
  have uncut := relate_uncut ⟨a.weight + b.weight, false⟩ (Nat.le_refl (a.weight + b.weight)) {} rfl
  have same := (@relate_refines ⟨a.weight + b.weight, false⟩ o ho.symm _ _ h a b).same {} uncut
  exact (relate_sameAnswer o n a b p {}).trans (congrArg (·.1) same)

theorem accepts_of_relate {o : Options} (ho : o.anyFits = false) {n : Nat} {a b : Ty} {p : Progress}
    (h : (relate o n a b p).1 = true) : accepts a b = true := by
  rcases Nat.le_total n (a.weight + b.weight) with hn | hn
  · exact (@relate_refines o ⟨a.weight + b.weight, false⟩ ho _ _ hn a b).accepts p {} h
  · rwa [accepts_of_enough hn o ho p {}] at h

theorem present_of_accepts {a b : Ty} (h : accepts a b = true) : a.isAbsent = false ∧ b.isAbsent = false := by
  rw [← Bool.or_eq_false_iff]
  cases hab : a.isAbsent || b.isAbsent with
  | false => rfl
  | true =>
    obtain ⟨n, hn⟩ : ∃ n, a.weight + b.weight = n + 1 := ⟨a.weight + b.weight - 1, by have := Ty.weight_pos a; omega⟩
    rw [accepts, run, show (Options.mk (a.weight + b.weight) false).limit = n + 1 from hn, relate, if_pos hab] at h
    cases h

/-- The answer for two types is one step of the comparison over the answers for lighter ones. -/
theorem accepts_eq_check {a b : Ty} (ha : a.isAbsent = false) (hb : b.isAbsent = false) :
    accepts a b = (check ⟨0, false⟩ (fun x y => pure (accepts x y)) a b {}).1 := by
  obtain ⟨n, hn⟩ : ∃ n, a.weight + b.weight = n + 1 := ⟨a.weight + b.weight - 1, by have := Ty.weight_pos a; omega⟩
  change (relate ⟨a.weight + b.weight, false⟩ (a.weight + b.weight) a b {}).1 = _
  rw [hn, relate, if_neg (by rw [ha, hb]; decide)]
  have step := @Compatible.check _ _ sameAnswer_compatible (relate ⟨n + 1, false⟩ n) (fun x y => pure (accepts x y))
    ⟨n + 1, false⟩ ⟨0, false⟩ rfl a b trivial trivial fun _ _ => trivial
  refine step (fun x y hxy => ?_) {} {}
  have := hxy.weight_lt
  exact accepts_of_enough (by omega) _ rfl

/-! ### Steps over given answers -/

theorem attempt_pure (v : Bool) : attempt (pure v) = pure v := by
  funext p
  rw [attempt_run]
  cases v <;> rfl

theorem every_pure {α : Type} (f : α → Bool) (xs : List α) : every (fun x => pure (f x)) xs = pure (xs.all f) := by
  induction xs with
  | nil => rfl
  | cons x xs ih =>
    rw [every, ih, pure_bind, List.all_cons]
    cases f x <;> rfl

theorem first_pure {α : Type} (f : α → Bool) (xs : List α) : first (fun x => pure (f x)) xs = pure (xs.any f) := by
  induction xs with
  | nil => rfl
  | cons x xs ih =>
    rw [first, ih, attempt_pure, pure_bind, List.any_cons]
    cases f x <;> rfl

end TypeCalculus.Assignable

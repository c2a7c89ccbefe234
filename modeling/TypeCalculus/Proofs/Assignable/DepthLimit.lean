import TypeCalculus.Proofs.Assignable.Weight

/-! The depth limit only makes comparisons answer no. A comparison that may nest deeper accepts whatever one
    with a lower limit accepts, and does the same where that one was not cut off (`Refines`). A comparison
    whose limit is at least the weight of its types is not cut off at all (`Uncut`). -/

namespace TypeCalculus.Assignable

/-! ### A higher limit -/

/-- `y` accepts what `x` accepts, and does what `x` does where `x` is not cut off. -/
structure Refines (x y : Relating Bool) : Prop where
  accepts : ∀ p q, (x p).1 = true → (y q).1 = true
  same : ∀ p, (x p).2.clipped = false → y p = x p
  keeps : ∀ p, p.clipped = true → (x p).2.clipped = true

namespace Refines

/-- A comparison that is not cut off was not cut off before. -/
theorem unclipped {x y : Relating Bool} (h : Refines x y) {p : Progress} (hp : (x p).2.clipped = false) :
    p.clipped = false := by
  cases hc : p.clipped with
  | false => rfl
  | true => rw [h.keeps p hc] at hp; cases hp

/-- A step that neither cuts off nor looks at what was captured. -/
theorem of_fixed {v : Bool} {f : Progress → Progress} (hf : ∀ p, (f p).clipped = p.clipped) :
    Refines (fun p => (v, f p)) (fun p => (v, f p)) where
  accepts := fun _ _ h => h
  same := fun _ _ => rfl
  keeps := fun p h => (hf p).trans h

theorem both {x x' y y' : Relating Bool} (hx : Refines x x') (hy : Refines y y') :
    Refines (do if ← x then y else pure false) (do if ← x' then y' else pure false) := by
  have run : ∀ (x y : Relating Bool) p, (do if ← x then y else pure false : Relating Bool) p =
      if (x p).1 then y (x p).2 else (false, (x p).2) := by
    intro x y p
    change (if (x p).1 then y else pure false : Relating Bool) (x p).2 = _
    split <;> rfl
  refine ⟨fun p q h => ?_, fun p h => ?_, fun p h => ?_⟩
  · rw [run] at h ⊢
    cases hv : (x p).1 with
    | false => rw [hv] at h; cases h
    | true =>
      rw [hv] at h
      rw [hx.accepts p q hv]
      exact hy.accepts _ _ h
  · rw [run] at h
    rw [run, run]
    cases hv : (x p).1 with
    | false =>
      rw [hv] at h
      rw [hx.same p h, hv]
      rfl
    | true =>
      rw [hv] at h
      rw [hx.same p (hy.unclipped h), hv]
      exact hy.same _ h
  · rw [run]
    split
    · exact hy.keeps _ (hx.keeps p h)
    · exact hx.keeps p h

theorem either {x x' y y' : Relating Bool} (hx : Refines x x') (hy : Refines y y') :
    Refines (do if ← x then pure true else y) (do if ← x' then pure true else y') := by
  have run : ∀ (x y : Relating Bool) p, (do if ← x then pure true else y : Relating Bool) p =
      if (x p).1 then (true, (x p).2) else y (x p).2 := by
    intro x y p
    change (if (x p).1 then pure true else y : Relating Bool) (x p).2 = _
    split <;> rfl
  refine ⟨fun p q h => ?_, fun p h => ?_, fun p h => ?_⟩
  · rw [run] at h ⊢
    cases hv : (x p).1 with
    | true => rw [hx.accepts p q hv]; rfl
    | false =>
      rw [hv] at h
      cases (x' q).1 with
      | true => rfl
      | false => exact hy.accepts _ _ h
  · rw [run] at h
    rw [run, run]
    cases hv : (x p).1 with
    | true =>
      rw [hv] at h
      rw [hx.same p h, hv]
      rfl
    | false =>
      rw [hv] at h
      rw [hx.same p (hy.unclipped h), hv]
      exact hy.same _ h
  · rw [run]
    split
    · exact hx.keeps p h
    · exact hy.keeps _ (hx.keeps p h)

end Refines

theorem attempt_run (x : Relating Bool) (p : Progress) : attempt x p =
    ((x p).1, if (x p).1 then (x p).2 else { (x p).2 with captures := p.captures }) := by
  change (if !(x p).1 then _ else _ : Relating Bool) (x p).2 = _
  cases (x p).1 <;> rfl

theorem clipped_attempt (x : Relating Bool) (p : Progress) : (attempt x p).2.clipped = (x p).2.clipped := by
  rw [attempt_run]
  dsimp only
  split <;> rfl

theorem Refines.attempt {x x' : Relating Bool} (h : Refines x x') : Refines (attempt x) (attempt x') := by
  refine ⟨fun p q hp => ?_, fun p hp => ?_, fun p hp => ?_⟩
  · rw [attempt_run] at hp ⊢
    exact h.accepts p q hp
  · rw [clipped_attempt] at hp
    rw [attempt_run, attempt_run, h.same p hp]
  · rw [clipped_attempt]
    exact h.keeps p hp

theorem refines_compatible : Compatible (fun _ => True) Refines where
  answer _ := Refines.of_fixed fun _ => rfl
  both := Refines.both
  either := Refines.either
  attempt := Refines.attempt
  capture _ _ := Refines.of_fixed fun _ => rfl
  report _ _ := Refines.of_fixed fun _ => rfl

/-- A comparison that is cut off at once is refined by every other. -/
theorem refines_of_clip {limit : Nat} {a b : Ty} (y : Relating Bool) :
    Refines (do clip limit a b; pure false) y := by
  have cut : ∀ p, (((do clip limit a b; pure false : Relating Bool) p).2).clipped = true := by
    intro p
    change (if p.clipped then p else _ : Progress).clipped = true
    split <;> simp_all
  refine ⟨fun p q h => ?_, fun p h => ?_, fun p _ => cut p⟩
  · cases h
  · rw [cut p] at h
    cases h

theorem relate_refines {o o' : Options} (ho : o.anyFits = o'.anyFits) {n n' : Nat} (hn : n ≤ n') (a b : Ty) :
    Refines (relate o n a b) (relate o' n' a b) := by
  induction n generalizing n' a b with
  | zero =>
    cases hab : a.isAbsent || b.isAbsent with
    | true => cases n' <;> simp only [relate, hab] <;> exact refines_compatible.answer false
    | false =>
      have : relate o 0 a b = (do clip o.limit a b; pure false) := by simp [relate, hab]
      rw [this]
      exact refines_of_clip _
  | succ n ih =>
    obtain ⟨m, rfl⟩ : ∃ m, n' = m + 1 := ⟨n' - 1, by omega⟩
    simp only [relate]
    split
    · exact refines_compatible.answer false
    · exact refines_compatible.check ho trivial trivial (fun _ _ => trivial) fun x y _ => ih (by omega) x y

/-! ### A limit that is high enough -/

/-- The comparison is not cut off. -/
def Uncut (x : Relating Bool) : Prop := ∀ p, p.clipped = false → (x p).2.clipped = false

theorem uncut_compatible : Compatible (fun _ => True) fun x _ => Uncut x where
  answer _ _ hp := hp
  both hx hy p hp := by
    change ((if _ then _ else _ : Relating Bool) _).2.clipped = false
    split
    · exact hy _ (hx p hp)
    · exact hx p hp
  either hx hy p hp := by
    change ((if _ then _ else _ : Relating Bool) _).2.clipped = false
    split
    · exact hx p hp
    · exact hy _ (hx p hp)
  attempt hx p hp := (clipped_attempt _ p).trans (hx p hp)
  capture _ _ _ hp := hp
  report _ _ _ hp := hp

theorem relate_uncut (o : Options) {n : Nat} {a b : Ty} (h : a.weight + b.weight ≤ n) : Uncut (relate o n a b) := by
  induction n generalizing a b with
  | zero =>
    have := Ty.weight_pos a
    omega
  | succ n ih =>
    rw [relate]
    split
    · exact uncut_compatible.answer false
    · refine @Compatible.check _ _ uncut_compatible _ (relate o n) o o rfl a b trivial trivial (fun _ _ => trivial) ?_
      intro x y hxy
      have := hxy.weight_lt
      exact ih (by omega)

/-! ### Reports -/

/-- Some comparison was reported to be cut off. -/
def Reported (events : List Event) : Prop := ∃ limit source target, Event.clipped limit source target ∈ events

/-- If the comparison is cut off, that is reported. -/
def Reports (x : Relating Bool) : Prop :=
  ∀ p, (p.clipped = true → Reported p.events) → (x p).2.clipped = true → Reported (x p).2.events

theorem reports_compatible : Compatible (fun _ => True) fun x _ => Reports x where
  answer _ _ hp := hp
  both hx hy p hp := by
    change ((if _ then _ else _ : Relating Bool) _).2.clipped = true → Reported ((if _ then _ else _ : Relating Bool) _).2.events
    split
    · exact hy _ (hx p hp)
    · exact hx p hp
  either hx hy p hp := by
    change ((if _ then _ else _ : Relating Bool) _).2.clipped = true → Reported ((if _ then _ else _ : Relating Bool) _).2.events
    split
    · exact hx p hp
    · exact hy _ (hx p hp)
  attempt {x _} hx p hp := by
    rw [attempt_run]
    dsimp only
    split <;> exact hx p hp
  capture _ _ _ hp := hp
  report _ _ p hp hc := by
    obtain ⟨limit, source, target, he⟩ := hp hc
    exact ⟨limit, source, target, List.mem_cons_of_mem _ he⟩

theorem relate_reports (o : Options) (n : Nat) (a b : Ty) : Reports (relate o n a b) := by
  induction n generalizing a b with
  | zero =>
    intro p hp
    rw [relate]
    split
    · exact hp
    · change (if p.clipped then p else _ : Progress).clipped = true → Reported (if p.clipped then p else _ : Progress).events
      split
      · exact hp
      · exact fun _ => ⟨_, _, _, List.mem_cons_self⟩
  | succ n ih =>
    rw [relate]
    split
    · exact reports_compatible.answer false
    · exact @Compatible.check _ _ reports_compatible _ (relate o n) o o rfl a b trivial trivial (fun _ _ => trivial)
        fun x y _ => ih x y

/-- A run that does not report to be cut off is the run with every higher limit. -/
theorem run_of_unreported {anyFits : Bool} {d d' : Nat} (hd : d ≤ d') {a b : Ty}
    (h : ¬Reported (run ⟨d, anyFits⟩ a b).2.events) : run ⟨d', anyFits⟩ a b = run ⟨d, anyFits⟩ a b := by
  refine (@relate_refines ⟨d, anyFits⟩ ⟨d', anyFits⟩ rfl d d' hd a b).same {} ?_
  rw [Bool.eq_false_iff]
  exact fun hc => h (relate_reports ⟨d, anyFits⟩ d a b {} nofun hc)

/-! ### Runs -/

/-- The limit only makes comparisons answer no: raising it keeps what is accepted, changes nothing in a run
    that was not cut off, and from some limit on no run is cut off. -/
theorem limit_only_refuses (anyFits : Bool) (a b : Ty) :
    (∀ d d', d ≤ d' → (run ⟨d, anyFits⟩ a b).1 = true → (run ⟨d', anyFits⟩ a b).1 = true) ∧
    (∀ d d', d ≤ d' → (run ⟨d, anyFits⟩ a b).2.clipped = false →
      (run ⟨d', anyFits⟩ a b).1 = (run ⟨d, anyFits⟩ a b).1 ∧
      (run ⟨d', anyFits⟩ a b).2.captures = (run ⟨d, anyFits⟩ a b).2.captures) ∧
    ∃ enough, ∀ d, enough ≤ d → (run ⟨d, anyFits⟩ a b).2.clipped = false := by
  have refines : ∀ d d', d ≤ d' → Refines (relate ⟨d, anyFits⟩ d a b) (relate ⟨d', anyFits⟩ d' a b) :=
    fun d d' h => @relate_refines ⟨d, anyFits⟩ ⟨d', anyFits⟩ rfl d d' h a b
  refine ⟨fun d d' h => (refines d d' h).accepts {} {}, fun d d' h hc => ?_, a.weight + b.weight, fun d h => ?_⟩
  · have := (refines d d' h).same {} hc
    exact ⟨congrArg (·.1) this, congrArg (·.2.captures) this⟩
  · exact relate_uncut ⟨d, anyFits⟩ h {} rfl

end TypeCalculus.Assignable

import TypeCalculus.Number.Shortest
import TypeCalculus.Proofs.Number.Range

/-! The size of the shortest decimal of a number. What the search finds lies in the interval of the number, so it is below
    the bound from which on rounding fails, as the number itself is; and its last digit stands near the places that are
    searched. -/

namespace TypeCalculus.Number
open Binary64 (InRange overflow)

/-- The value of a decimal. -/
def Decimal.value (d : Decimal) : ℚ := d.digits * 10 ^ d.exponent

/-! ### The interval of a number -/

theorem common_den_pos (n : Nat) (unit p : Int) : 0 < (common n unit p).2 := by
  unfold common
  dsimp only
  split <;> split <;> simp [Nat.pow_eq]

theorem common_den (n k : Nat) (unit p : Int) : (common n unit p).2 = (common k unit p).2 := by
  unfold common
  dsimp only
  split <;> rfl

theorem common_ratio (n : Nat) (unit p : Int) :
    ((common n unit p).1 : ℚ) / (common n unit p).2 = n * 2 ^ unit / 10 ^ p := by
  have power : ∀ {b : ℚ} {e : Int}, e < 0 → b ^ e = (b ^ e.natAbs)⁻¹ := fun {b e} he => by
    rw [← zpow_natCast, ← zpow_neg]
    congr 1
    omega
  have power' : ∀ {b : ℚ} {e : Int}, ¬e < 0 → b ^ e = b ^ e.natAbs := fun {b e} he => by
    rw [← zpow_natCast]
    congr 1
    omega
  unfold common
  dsimp only
  split <;> rename_i hp <;> split <;> rename_i hu <;> simp only [power, power', hp, hu, not_false_eq_true, Nat.pow_eq] <;>
    push_cast <;> field_simp

variable {i : Interval} {d : Nat} {p : Int}

/-- A decimal of the interval does not lie above its upper end, nor on it if the interval is open. -/
theorem Interval.le_of_holds (h : i.holds d p = true) :
    (d : ℚ) * 10 ^ p ≤ i.high * 2 ^ i.unit ∧ (i.closed = false → (d : ℚ) * 10 ^ p < i.high * 2 ^ i.unit) := by
  have pos : (0 : ℚ) < (common i.high i.unit p).2 := by exact_mod_cast common_den_pos _ _ _
  have upper : (d : ℚ) * 10 ^ p ≤ i.high * 2 ^ i.unit ↔ d * (common i.high i.unit p).2 ≤ (common i.high i.unit p).1 := by
    rw [← le_div_iff₀ (by positivity), ← common_ratio, le_div_iff₀ pos]
    exact_mod_cast Iff.rfl
  have below : (d : ℚ) * 10 ^ p < i.high * 2 ^ i.unit ↔ d * (common i.high i.unit p).2 < (common i.high i.unit p).1 := by
    rw [← lt_div_iff₀ (by positivity), ← common_ratio, lt_div_iff₀ pos]
    exact_mod_cast Iff.rfl
  unfold Interval.holds at h
  dsimp only at h
  rw [common_den i.low i.high] at h
  rw [upper, below]
  split at h
  · rename_i closed
    rw [Bool.and_eq_true, decide_eq_true_eq, decide_eq_true_eq] at h
    exact ⟨h.2, fun hc => by rw [hc] at closed; cases closed⟩
  · rw [Bool.and_eq_true, decide_eq_true_eq, decide_eq_true_eq] at h
    exact ⟨h.2.le, fun _ => h.2⟩

/-- The upper end of the interval of a number in range is at most the bound, and a number whose interval contains its ends
    is below the greatest one. -/
theorem Interval.lt_overflow {negative : Bool} {m : Nat} {q : Int} (hr : InRange (.finite negative m q))
    (h : (Interval.of m q).holds d p = true) : (d : ℚ) * 10 ^ p < overflow := by
  obtain ⟨bound, -, greatest⟩ := hr
  obtain ⟨upper, strict⟩ := le_of_holds h
  have power : (2 : ℚ) ^ q ≤ 2 ^ (971 : ℤ) := zpow_le_zpow_right₀ (by norm_num) greatest
  have top : (2 ^ 53 - 1 / 2 : ℚ) * 2 ^ q ≤ overflow := mul_le_mul_of_nonneg_left power (by norm_num)
  have ends : ((Interval.of m q).high : ℚ) * 2 ^ (Interval.of m q).unit = (m + 1 / 2) * 2 ^ q := by
    simp only [Interval.of]
    rw [zpow_sub₀ (by norm_num)]
    push_cast
    ring
  rw [ends] at upper strict
  have last : m ≤ 2 ^ 53 - 1 := by
    unfold Binary64.mantissaBound at bound
    omega
  rcases Nat.lt_or_eq_of_le last with less | greatest
  · have less : ((m : ℚ) + 1) ≤ 2 ^ 53 - 1 := by
      have : m + 1 ≤ 2 ^ 53 - 1 := less
      have : ((m + 1 : Nat) : ℚ) ≤ ((2 ^ 53 - 1 : Nat) : ℚ) := by exact_mod_cast this
      norm_num at this ⊢
      linarith
    calc (d : ℚ) * 10 ^ p ≤ (m + 1 / 2) * 2 ^ q := upper
      _ < (2 ^ 53 - 1 / 2) * 2 ^ q := by gcongr; linarith
      _ ≤ overflow := top
  · have odd : (Interval.of m q).closed = false := by
      change (m % 2 == 0) = false
      rw [greatest]
      rfl
    calc (d : ℚ) * 10 ^ p < (m + 1 / 2) * 2 ^ q := strict odd
      _ = (2 ^ 53 - 1 / 2) * 2 ^ q := by
        rw [greatest]
        norm_num
      _ ≤ overflow := top

/-! ### The search -/

theorem Interval.holds_onGrid? (h : i.onGrid? p = some d) : i.holds d p = true := by
  have := List.find?_some h
  rw [Bool.and_eq_true] at this
  exact this.2

/-- The search ends at one of its places, with a decimal of the interval or with zero. -/
theorem Interval.search_spec (i : Interval) (p : Int) (n : Nat) :
    p - n ≤ (i.search p n).exponent ∧ (i.search p n).exponent ≤ p ∧
      ((i.search p n).digits = 0 ∨ i.holds (i.search p n).digits (i.search p n).exponent = true) := by
  induction n generalizing p with
  | zero =>
    refine ⟨by simp [Interval.search], le_refl _, ?_⟩
    change (i.onGrid? p).getD 0 = 0 ∨ i.holds ((i.onGrid? p).getD 0) p = true
    cases hg : i.onGrid? p with
    | none => exact .inl rfl
    | some d => exact .inr (holds_onGrid? hg)
  | succ n ih =>
    rw [Interval.search]
    split
    · rename_i hg
      exact ⟨by dsimp only; omega, le_refl _, .inr (holds_onGrid? hg)⟩
    · obtain ⟨least, greatest, found⟩ := ih (p - 1)
      exact ⟨by push_cast; omega, by omega, found⟩

/-- Zeros at the end do not change the value. -/
theorem Decimal.trim_spec (d : Decimal) (n : Nat) :
    (d.trim n).value = d.value ∧ d.exponent ≤ (d.trim n).exponent ∧ (d.trim n).exponent ≤ d.exponent + n := by
  induction n generalizing d with
  | zero => exact ⟨rfl, le_refl _, by simp [Decimal.trim]⟩
  | succ n ih =>
    rw [Decimal.trim]
    split
    · rename_i zero
      obtain ⟨same, least, greatest⟩ := ih ⟨d.digits / 10, d.exponent + 1⟩
      refine ⟨?_, by dsimp only at least; omega, by dsimp only at greatest; push_cast; omega⟩
      have digits : d.digits = 10 * (d.digits / 10) := by grind
      rw [same, value, value, zpow_add_one₀ (by norm_num)]
      nth_rewrite 2 [digits]
      push_cast
      ring
    · exact ⟨rfl, le_refl _, by omega⟩

/-! ### The shortest decimal -/

variable {negative : Bool} {m : Nat} {q : Int}

/-- The shortest decimal of a number is below the bound from which on rounding fails. -/
theorem shortest_lt_overflow (h : InRange (.finite negative m q)) : (shortest m q).value < overflow := by
  unfold shortest
  dsimp only
  rw [(Decimal.trim_spec _ _).1]
  rcases (Interval.search_spec (Interval.of m q) (((Nat.log2 m : Int) + q + 1) * 30103 / 100000 + 1) 20).2.2 with none | held
  · rw [Decimal.value, none, Nat.cast_zero, zero_mul]
    unfold overflow
    norm_num
  · exact Interval.lt_overflow h held

theorem shortest_exponent (h : InRange (.finite negative m q)) :
    -343 ≤ (shortest m q).exponent ∧ (shortest m q).exponent ≤ 329 := by
  obtain ⟨bound, least, greatest⟩ := h
  have places : Nat.log2 m < 53 := by
    rcases Nat.eq_zero_or_pos m with rfl | pos
    · decide
    · exact (Nat.log2_lt pos.ne').2 bound
  unfold Binary64.minExponent at least
  unfold Binary64.maxExponent at greatest
  unfold shortest
  dsimp only
  obtain ⟨searched, searched', -⟩ :=
    Interval.search_spec (Interval.of m q) (((Nat.log2 m : Int) + q + 1) * 30103 / 100000 + 1) 20
  obtain ⟨-, trimmed, trimmed'⟩ :=
    Decimal.trim_spec ((Interval.of m q).search (((Nat.log2 m : Int) + q + 1) * 30103 / 100000 + 1) 20) 20
  omega

end TypeCalculus.Number

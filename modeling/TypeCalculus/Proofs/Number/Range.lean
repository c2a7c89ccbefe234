import Mathlib
import TypeCalculus.Number.Reading

/-! The range of double precision. Rounding gives a number in range (`InRange`), and it fails only from a bound on that
    lies half a place above the greatest number (`overflow`). So a text that is read spells an infinity, a number in
    range or none (`Number.inRange_read?`). -/

namespace TypeCalculus

namespace Binary64

/-- The number is within range, if it is finite. -/
def InRange : Binary64 → Prop
  | finite _ m e => m < mantissaBound ∧ minExponent ≤ e ∧ e ≤ maxExponent
  | _ => True

/-- The least ratio that is rounded to no number: it lies in the middle between the greatest number and the next power
    of two. -/
def overflow : ℚ := (2 ^ 53 - 1 / 2) * 2 ^ (971 : ℤ)

theorem overflow_lt : overflow < 2 ^ (1024 : ℤ) := by
  rw [show (1024 : ℤ) = 53 + 971 by norm_num, zpow_add₀ (by norm_num), overflow]
  gcongr
  norm_num

/-! ### Rounding a quotient -/

theorem roundDiv_le (num den : Nat) : roundDiv num den ≤ num / den + 1 := by
  unfold roundDiv
  dsimp only
  split <;> omega

/-- A quotient is not rounded up past its next half. -/
theorem le_of_lt_roundDiv {num den k : Nat} (h : k < roundDiv num den) : (2 * k + 1) * den ≤ 2 * num := by
  have parts := Nat.div_add_mod num den
  have expand : (2 * k + 1) * den = 2 * (den * k) + den := by ring
  unfold roundDiv at h
  dsimp only at h
  rcases Nat.lt_or_ge k (num / den) with below | atLeast
  · have := Nat.mul_le_mul_left den below
    rw [Nat.mul_add_one] at this
    omega
  · split at h
    · obtain rfl : k = num / den := by omega
      have half : den ≤ 2 * (num % den) := by grind
      omega
    · omega

/-- What is rounded to the bound of mantissas is at most half below it. -/
theorem le_of_roundDiv_bound {num den : Nat} (h : mantissaBound ≤ roundDiv num den) :
    (2 ^ 53 - 1 / 2 : ℚ) * den ≤ num := by
  have half := le_of_lt_roundDiv (lt_of_lt_of_le (by decide : mantissaBound - 1 < mantissaBound) h)
  have half' : ((2 * (mantissaBound - 1) + 1 : Nat) : ℚ) * den ≤ 2 * num := by exact_mod_cast half
  norm_num [mantissaBound] at half' ⊢
  linarith

/-! ### Scaling -/

theorem scaled_den_pos {num den : Nat} (h : 0 < den) (e : Int) : 0 < (scaled num den e).2 := by
  unfold scaled
  split
  · exact h
  · exact Nat.mul_pos h (Nat.pow_pos (by decide))

/-- Scaling divides a ratio by a power of two. -/
theorem scaled_ratio (num den : Nat) (e : Int) :
    ((scaled num den e).1 : ℚ) / (scaled num den e).2 = num / den / 2 ^ e := by
  unfold scaled
  split
  · rename_i negative
    obtain ⟨n, rfl⟩ : ∃ n : Nat, e = -n := ⟨e.natAbs, by omega⟩
    rw [Int.natAbs_neg, Int.natAbs_natCast, Nat.pow_eq]
    push_cast
    rw [zpow_neg, zpow_natCast, div_inv_eq_mul, mul_div_right_comm]
  · rename_i positive
    obtain ⟨n, rfl⟩ : ∃ n : Nat, e = n := ⟨e.natAbs, by omega⟩
    rw [Int.natAbs_natCast, Nat.pow_eq]
    push_cast
    rw [zpow_natCast, div_div]

theorem lt_scaled {num den k : Nat} {e : Int} (hd : 0 < den) :
    (scaled num den e).1 / (scaled num den e).2 < k ↔ (num : ℚ) / den < k * 2 ^ e := by
  have pos : (0 : ℚ) < (scaled num den e).2 := by exact_mod_cast scaled_den_pos hd e
  rw [Nat.div_lt_iff_lt_mul (scaled_den_pos hd e), ← div_lt_iff₀ (by positivity), ← scaled_ratio, div_lt_iff₀ pos]
  exact_mod_cast Iff.rfl

/-! ### Rounding a ratio -/

/-- The first guess at the exponent of a ratio. -/
def firstExponent (num den : Nat) : Int := max minExponent ((Nat.log2 num : Int) - (Nat.log2 den : Int) - 53)

/-- The exponent at which a ratio is rounded. -/
def roundExponent (num den : Nat) : Int :=
  let low := firstExponent num den
  if (scaled num den low).1 / (scaled num den low).2 ≥ mantissaBound then low + 1 else low

/-- The ratio in units of the last place, rounded. -/
def rounded (num den : Nat) : Nat :=
  roundDiv (scaled num den (roundExponent num den)).1 (scaled num den (roundExponent num den)).2

theorem nearest?_eq {num : Nat} (h : num ≠ 0) (den : Nat) :
    nearest? num den =
      if rounded num den ≥ mantissaBound then
        if roundExponent num den + 1 > maxExponent then none else some (rounded num den / 2, roundExponent num den + 1)
      else if roundExponent num den > maxExponent then none else some (rounded num den, roundExponent num den) := by
  have chosen : nearest? num den =
      let p := if rounded num den ≥ mantissaBound then (rounded num den / 2, roundExponent num den + 1)
        else (rounded num den, roundExponent num den)
      if p.2 > maxExponent then none else some p := by
    rw [nearest?, if_neg h]
    rfl
  rw [chosen]
  dsimp only
  split <;> rfl

variable {num den : Nat}

theorem ratio_lt (hd : 0 < den) : (num : ℚ) / den < 2 ^ ((Nat.log2 num : Int) - Nat.log2 den + 1) := by
  have upper : (num : ℚ) < 2 ^ (Nat.log2 num + 1) := by exact_mod_cast Nat.lt_log2_self
  have lower : (2 : ℚ) ^ Nat.log2 den ≤ den := by exact_mod_cast Nat.log2_self_le (Nat.ne_of_gt hd)
  calc (num : ℚ) / den < 2 ^ (Nat.log2 num + 1) / 2 ^ Nat.log2 den := by gcongr
    _ = 2 ^ ((Nat.log2 num : Int) - Nat.log2 den + 1) := by
      rw [← zpow_natCast, ← zpow_natCast, ← zpow_sub₀ (by norm_num)]
      congr 1
      push_cast
      ring

theorem lt_ratio (hn : num ≠ 0) (hd : 0 < den) : 2 ^ ((Nat.log2 num : Int) - Nat.log2 den - 1) < (num : ℚ) / den := by
  have lower : (2 : ℚ) ^ Nat.log2 num ≤ num := by exact_mod_cast Nat.log2_self_le hn
  have upper : (den : ℚ) < 2 ^ (Nat.log2 den + 1) := by exact_mod_cast Nat.lt_log2_self
  have pos : (0 : ℚ) < den := by exact_mod_cast hd
  calc (2 : ℚ) ^ ((Nat.log2 num : Int) - Nat.log2 den - 1) = 2 ^ Nat.log2 num / 2 ^ (Nat.log2 den + 1) := by
        rw [← zpow_natCast, ← zpow_natCast, ← zpow_sub₀ (by norm_num)]
        congr 1
        push_cast
        ring
    _ < 2 ^ Nat.log2 num / den := by gcongr
    _ ≤ num / den := by gcongr

/-- At the exponent that is chosen the ratio has at most as many binary places as a mantissa. -/
theorem ratio_lt_roundExponent (hd : 0 < den) : (num : ℚ) / den < mantissaBound * 2 ^ roundExponent num den := by
  unfold roundExponent
  dsimp only
  split
  · have guess : (Nat.log2 num : Int) - Nat.log2 den + 1 ≤ 53 + (firstExponent num den + 1) := by
      unfold firstExponent
      omega
    calc (num : ℚ) / den < 2 ^ ((Nat.log2 num : Int) - Nat.log2 den + 1) := ratio_lt hd
      _ ≤ 2 ^ (53 + (firstExponent num den + 1)) := zpow_le_zpow_right₀ (by norm_num) guess
      _ = mantissaBound * 2 ^ (firstExponent num den + 1) := by
        rw [zpow_add₀ (by norm_num)]
        norm_num [mantissaBound]
  · rename_i fits
    exact (lt_scaled hd).1 (Nat.lt_of_not_ge fits)

/-- At an exponent above the least one the ratio has as many binary places as a mantissa. -/
theorem roundExponent_le_ratio (hn : num ≠ 0) (hd : 0 < den) (h : minExponent < roundExponent num den) :
    2 ^ (52 + roundExponent num den) ≤ (num : ℚ) / den := by
  unfold roundExponent at h ⊢
  dsimp only at h ⊢
  split at h
  · rename_i wide
    rw [if_pos wide]
    have := mt (lt_scaled hd).2 (Nat.not_lt.2 wide)
    calc (2 : ℚ) ^ (52 + (firstExponent num den + 1)) = mantissaBound * 2 ^ firstExponent num den := by
          rw [show 52 + (firstExponent num den + 1) = 53 + firstExponent num den by ring, zpow_add₀ (by norm_num)]
          norm_num [mantissaBound]
      _ ≤ num / den := not_lt.1 this
  · rename_i narrow
    rw [if_neg narrow]
    have guess : 52 + firstExponent num den = (Nat.log2 num : Int) - Nat.log2 den - 1 := by
      unfold firstExponent at h ⊢
      omega
    rw [guess]
    exact (lt_ratio hn hd).le

theorem rounded_le (hd : 0 < den) : rounded num den ≤ mantissaBound :=
  (roundDiv_le _ _).trans ((lt_scaled hd).2 (ratio_lt_roundExponent hd))

/-- Rounding gives a number in range. -/
theorem inRange_nearest? (hd : 0 < den) {m : Nat} {e : Int} (h : nearest? num den = some (m, e)) (negative : Bool) :
    InRange (finite negative m e) := by
  by_cases hn : num = 0
  · rw [nearest?, if_pos hn] at h
    cases h
    exact ⟨by decide, by decide, by decide⟩
  · have least : minExponent ≤ roundExponent num den := by
      unfold roundExponent firstExponent
      dsimp only
      split <;> omega
    have bound : rounded num den ≤ mantissaBound := rounded_le hd
    rw [nearest?_eq hn] at h
    split at h
    · split at h
      · cases h
      · cases h
        refine ⟨?_, by omega, by omega⟩
        exact lt_of_le_of_lt (Nat.div_le_div_right bound) (by decide)
    · split at h
      · cases h
      · cases h
        exact ⟨by omega, least, by omega⟩

/-- A ratio below the bound is rounded to a number. -/
theorem exists_nearest? (hd : 0 < den) (h : (num : ℚ) / den < overflow) : ∃ m e, nearest? num den = some (m, e) := by
  by_cases hn : num = 0
  · exact ⟨0, minExponent, by rw [nearest?, if_pos hn]⟩
  · have below : roundExponent num den ≤ maxExponent := by
      by_contra above
      have lower := roundExponent_le_ratio hn hd (lt_trans (by decide) (not_le.1 above))
      have : (2 : ℚ) ^ (1024 : ℤ) ≤ 2 ^ (52 + roundExponent num den) :=
        zpow_le_zpow_right₀ (by norm_num) (by unfold maxExponent at above; omega)
      linarith [overflow_lt]
    rw [nearest?_eq hn]
    split
    · rename_i wide
      have inside : ¬roundExponent num den + 1 > maxExponent := by
        intro last
        -- At the greatest exponent a ratio that is rounded up to a power of two is not below the bound.
        have last : roundExponent num den = 971 := by unfold maxExponent at below last; omega
        have pos : (0 : ℚ) < (scaled num den (roundExponent num den)).2 := by exact_mod_cast scaled_den_pos hd _
        have half := (le_div_iff₀ pos).2 (le_of_roundDiv_bound wide)
        rw [scaled_ratio, last, le_div_iff₀ (by positivity)] at half
        exact absurd h (not_lt.2 half)
      rw [if_neg inside]
      exact ⟨_, _, rfl⟩
    · rw [if_neg (not_lt.2 below)]
      exact ⟨_, _, rfl⟩

end Binary64

/-! ### Reading -/

namespace Number
open Binary64 (InRange)

/-- A positive number has one digit more than the greatest power of ten that it reaches. -/
theorem le_of_length_toDigits {n : Nat} (h : n ≠ 0) : 10 ^ ((Nat.toDigits 10 n).length - 1) ≤ n := by
  rcases Nat.eq_zero_or_pos ((Nat.toDigits 10 n).length - 1) with single | several
  · rw [single]
    exact Nat.one_le_iff_ne_zero.2 h
  · by_contra less
    have := (Nat.length_toDigits_le_iff (by decide) several).2 (not_le.1 less)
    omega

theorem two_pow_le_ten_pow : (2 : ℚ) ^ (1024 : ℤ) ≤ 10 ^ (310 : ℤ) := by
  have : 2 ^ 1024 ≤ 10 ^ 310 := by decide +kernel
  exact_mod_cast this

/-- A decimal whose value is below the bound is read as a number. -/
theorem exists_ofDecimal? {value : Nat} {e : Int} (h : (value : ℚ) * 10 ^ e < Binary64.overflow) :
    ∃ m q, ofDecimal? value e = some (m, q) := by
  unfold ofDecimal?
  dsimp only
  split
  · exact ⟨_, _, rfl⟩
  · rename_i some_digits
    have hv : value ≠ 0 := by grind
    split
    · rename_i large
      -- A first digit that far before the point is above the bound.
      have digits : (10 : ℚ) ^ ((Nat.toDigits 10 value).length - 1) ≤ value := by exact_mod_cast le_of_length_toDigits hv
      have count : 1 ≤ (Nat.toDigits 10 value).length := Nat.length_toDigits_pos
      have reach : (10 : ℚ) ^ (310 : ℤ) ≤ value * 10 ^ e :=
        calc (10 : ℚ) ^ (310 : ℤ) ≤ 10 ^ ((((Nat.toDigits 10 value).length - 1 : Nat) : ℤ) + e) :=
              zpow_le_zpow_right₀ (by norm_num) (by omega)
          _ = 10 ^ ((Nat.toDigits 10 value).length - 1) * 10 ^ e := by rw [zpow_add₀ (by norm_num), zpow_natCast]
          _ ≤ value * 10 ^ e := by gcongr
      exact absurd (lt_of_le_of_lt (two_pow_le_ten_pow.trans reach) h) (not_lt.2 Binary64.overflow_lt.le)
    · split
      · rename_i negative
        obtain ⟨n, rfl⟩ : ∃ n : Nat, e = -n := ⟨e.natAbs, by omega⟩
        refine Binary64.exists_nearest? (Nat.pow_pos (by decide)) ?_
        rw [Int.natAbs_neg, Int.natAbs_natCast, Nat.pow_eq]
        push_cast
        rwa [zpow_neg, zpow_natCast, ← div_eq_mul_inv] at h
      · obtain ⟨n, rfl⟩ : ∃ n : Nat, e = n := ⟨e.natAbs, by omega⟩
        refine Binary64.exists_nearest? (by decide) ?_
        rw [Int.natAbs_natCast, Nat.pow_eq]
        push_cast
        rwa [div_one, ← zpow_natCast]

theorem inRange_zero (negative : Bool) : InRange (.finite negative 0 Binary64.minExponent) :=
  ⟨by decide, by decide, by decide⟩

theorem inRange_ofDecimal? {value m : Nat} {e q : Int} (h : ofDecimal? value e = some (m, q)) (negative : Bool) :
    InRange (.finite negative m q) := by
  unfold ofDecimal? at h
  dsimp only at h
  split at h
  · cases h
    exact inRange_zero negative
  · split at h
    · cases h
    · split at h
      · exact Binary64.inRange_nearest? (Nat.pow_pos (by decide)) h negative
      · exact Binary64.inRange_nearest? (by decide) h negative

theorem inRange_ofBinary? {value m : Nat} {e q : Int} (h : ofBinary? value e = some (m, q)) (negative : Bool) :
    InRange (.finite negative m q) := by
  unfold ofBinary? at h
  dsimp only at h
  split at h
  · cases h
    exact inRange_zero negative
  · split at h
    · cases h
    · split at h
      · exact Binary64.inRange_nearest? (Nat.pow_pos (by decide)) h negative
      · exact Binary64.inRange_nearest? (by decide) h negative

/-- Whether a number is hexadecimal, and what follows its base mark. -/
def baseMark (cs : List Char) : Bool × List Char :=
  match cs with
  | '0' :: x :: c :: r => if low x = 'x' then (true, c :: r) else (false, cs)
  | _ => (false, cs)

/-- The number of the digits that were read and of what follows them. -/
def ofDigits? (hex : Bool) (d : Digits) : Option (Nat × Int) :=
  if d.count = 0 then none
  else
    match d.rest with
    | [] => if hex then none else ofDecimal? d.value (-(d.fraction : Int))
    | c :: r =>
      if low c = (if hex then 'p' else 'e') then
        match exponent? r with
        | some (e, []) =>
          if hex then ofBinary? d.value (e - 4 * (d.fraction : Int)) else ofDecimal? d.value (e - (d.fraction : Int))
        | _ => none
      else none

theorem unsigned?_eq (cs : List Char) :
    unsigned? cs = ofDigits? (baseMark cs).1 (scanDigits (baseMark cs).1 false {} (baseMark cs).2) := rfl

theorem inRange_unsigned? {cs : List Char} {m : Nat} {q : Int} (h : unsigned? cs = some (m, q)) (negative : Bool) :
    InRange (.finite negative m q) := by
  rw [unsigned?_eq, ofDigits?] at h
  generalize scanDigits _ _ _ _ = d at h
  split at h
  · cases h
  · split at h
    · split at h
      · cases h
      · exact inRange_ofDecimal? h negative
    · obtain ⟨-, h⟩ := Option.ite_none_right_eq_some.1 h
      split at h
      · split at h
        · exact inRange_ofBinary? h negative
        · exact inRange_ofDecimal? h negative
      · cases h

/-- What is read is in range. -/
theorem inRange_read? {s : String} {x : Binary64} (h : read? s = some x) : InRange x := by
  unfold read? at h
  dsimp only at h
  split at h
  · cases h
    trivial
  · split at h
    · cases h
      trivial
    · split at h
      · cases h
      · obtain ⟨⟨m, q⟩, hu, rfl⟩ := Option.map_eq_some_iff.1 h
        exact inRange_unsigned? hu _

end Number

end TypeCalculus

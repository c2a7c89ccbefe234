/-! Binary numbers of double precision, as exact values. A finite number is a mantissa below 2^53 times
    a power of two not below 2^-1074, so that rounding and printing are arithmetic on naturals. -/

namespace TypeCalculus

/-- A number of double precision. -/
inductive Binary64 where
  | nan
  | infinite (negative : Bool)
  | finite (negative : Bool) (mantissa : Nat) (exponent : Int)
  deriving DecidableEq, Repr

namespace Binary64

/-- The least exponent of a finite number. -/
def minExponent : Int := -1074

/-- The greatest exponent of a finite number. -/
def maxExponent : Int := 971

/-- Mantissas are below this bound. -/
def mantissaBound : Nat := 0x20000000000000

/-- The quotient rounded to the nearest integer, a half to the even neighbour. -/
def roundDiv (num den : Nat) : Nat :=
  let q := num / den
  let twice := 2 * (num % den)
  if twice > den || (twice == den && q % 2 == 1) then q + 1 else q

/-- A ratio scaled by a power of two: `(num, den)` for `num / den * 2 ^ (-e)`. -/
def scaled (num den : Nat) (e : Int) : Nat × Nat :=
  if e < 0 then (num * Nat.pow 2 e.natAbs, den) else (num, den * Nat.pow 2 e.natAbs)

/-- The finite number nearest to a positive ratio, a half to the even mantissa, or `none` above the
    range. -/
def nearest? (num den : Nat) : Option (Nat × Int) :=
  if num = 0 then
    some (0, minExponent)
  else
    let estimate : Int := (Nat.log2 num : Int) - (Nat.log2 den : Int) - 53
    let low := max minExponent estimate
    let (n, d) := scaled num den low
    let e := if n / d ≥ mantissaBound then low + 1 else low
    let (n, d) := scaled num den e
    let m := roundDiv n d
    let (m, e) := if m ≥ mantissaBound then (m / 2, e + 1) else (m, e)
    if e > maxExponent then none else some (m, e)

/-- A small natural number as a double. -/
def ofNat (n : Nat) : Binary64 :=
  match nearest? n 1 with
  | some (m, e) => finite false m e
  | none => infinite false

def isFinite : Binary64 → Bool
  | finite .. => true
  | _ => false

end Binary64

end TypeCalculus

import TypeCalculus.Number.Binary64

/-! The shortest decimal that reads back as a given double. Of all decimals that round to the double,
    one with the fewest digits is taken; of two such, the nearer to the double; of two equally near, the
    one with the even last digit. -/

namespace TypeCalculus.Number

/-- A positive decimal: its digits as a number and the power of ten of the last digit. -/
structure Decimal where
  digits : Nat
  exponent : Int
  deriving DecidableEq, Repr

/-- The reals that round to a double, in units of a quarter of its last place. -/
structure Interval where
  /-- Four times the mantissa. -/
  centre : Nat
  low : Nat
  high : Nat
  /-- The ends belong to the interval. -/
  closed : Bool
  /-- The power of two of the unit. -/
  unit : Int

/-- The interval of a double that is not zero. The gap below a power of two is half as wide as the gap
    above it. -/
def Interval.of (m : Nat) (q : Int) : Interval :=
  let narrow := m = 0x10000000000000 && q > Binary64.minExponent
  { centre := 4 * m, low := if narrow then 4 * m - 1 else 4 * m - 2, high := 4 * m + 2
    closed := m % 2 == 0, unit := q - 2 }

/-- Whole numbers proportional to `n * 2 ^ unit` and to `10 ^ p`. -/
def common (n : Nat) (unit : Int) (p : Int) : Nat × Nat :=
  let a := if unit < 0 then n else n * Nat.pow 2 unit.natAbs
  let b := if unit < 0 then Nat.pow 2 unit.natAbs else 1
  if p < 0 then (a * Nat.pow 10 p.natAbs, b) else (a, b * Nat.pow 10 p.natAbs)

/-- `d * 10 ^ p` lies in the interval. -/
def Interval.holds (i : Interval) (d : Nat) (p : Int) : Bool :=
  let (l, b) := common i.low i.unit p
  let (h, _) := common i.high i.unit p
  let x := d * b
  if i.closed then l ≤ x && x ≤ h else l < x && x < h

/-- The point of the grid `10 ^ p` that lies in the interval and is nearest to its centre. -/
def Interval.onGrid? (i : Interval) (p : Int) : Option Nat :=
  let (c, b) := common i.centre i.unit p
  let below := c / b
  let rest := c % b
  let above := below + 1
  let nearer := if 2 * rest > b || (2 * rest == b && below % 2 == 1) then [above, below]
    else [below, above]
  nearer.find? fun d => d > 0 && i.holds d p

/-- Tries ever finer grids. -/
def Interval.search (i : Interval) (p : Int) : (n : Nat) → Decimal
  | 0 => ⟨(i.onGrid? p).getD 0, p⟩
  | n + 1 => match i.onGrid? p with
    | some d => ⟨d, p⟩
    | none => i.search (p - 1) n

/-- Drops zeros at the end. -/
def Decimal.trim (d : Decimal) : (n : Nat) → Decimal
  | 0 => d
  | n + 1 => if d.digits ≠ 0 && d.digits % 10 == 0 then trim ⟨d.digits / 10, d.exponent + 1⟩ n else d

/-- The shortest decimal of `m * 2 ^ q`, for positive `m`. -/
def shortest (m : Nat) (q : Int) : Decimal :=
  let top : Int := ((Nat.log2 m : Int) + q + 1) * 30103 / 100000 + 1
  ((Interval.of m q).search top 20).trim 20

end TypeCalculus.Number

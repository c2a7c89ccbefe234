import TypeCalculus.Number.Binary64

/-! Spans of time in nanoseconds, written as numbers with units such as `1h2m3.5s`. -/

namespace TypeCalculus

/-- A span of time. -/
structure Duration where
  nanoseconds : Int := 0
  deriving DecidableEq, Repr

namespace Duration

/-- The nanoseconds of a unit. -/
def unit? (name : String) : Option Nat :=
  [("ns", 1), ("us", 1000), ("µs", 1000), ("μs", 1000), ("ms", 1000000), ("s", 1000000000),
   ("m", 60000000000), ("h", 3600000000000)].lookup name

/-- The greatest size of a span, reached only below zero. -/
def bound : Nat := 0x8000000000000000

/-- Reads digits; a number beyond the bound is refused. -/
def wholePart? (n : Nat) : List Char → Option (Nat × List Char)
  | [] => some (n, [])
  | c :: cs =>
    if !c.isDigit then some (n, c :: cs)
    else
      let next := n * 10 + (c.toNat - '0'.toNat)
      if n > bound / 10 || next > bound then none else wholePart? next cs

/-- The digits of a fraction as a number and the power of ten it is divided by; digits that no longer fit
    are passed over. -/
def fraction (full : Bool) (n scale : Nat) : List Char → Nat × Nat × List Char
  | [] => (n, scale, [])
  | c :: cs =>
    if !c.isDigit then (n, scale, c :: cs)
    else
      let next := n * 10 + (c.toNat - '0'.toNat)
      if full || n > (bound - 1) / 10 || next > bound then fraction true n scale cs
      else fraction false next (scale * 10) cs

/-- A ratio rounded to double precision, as a ratio again. -/
def rounded (num den : Nat) : Nat × Nat :=
  match Binary64.nearest? num den with
  | some (m, e) => if e < 0 then (m, Nat.pow 2 e.natAbs) else (m * Nat.pow 2 e.natAbs, 1)
  | none => (0, 1)

/-- The nanoseconds of a fraction of a unit. Each step rounds to double precision, and what is left of a
    nanosecond is dropped. -/
def fractionOf (n scale unit : Nat) : Nat :=
  let (a, b) := rounded n 1
  let (c, d) := rounded unit scale
  let (num, den) := rounded (a * c) (b * d)
  num / den

def startsNumber (c : Char) : Bool := c == '.' || c.isDigit

/-- Reads one number with its unit and gives the rest. -/
def term? (cs : List Char) : Option (Nat × List Char) := do
  let (whole, rest) ← wholePart? 0 cs
  let (part, scale, after) := match rest with
    | '.' :: digits => fraction false 0 1 digits
    | rest => (0, 1, rest)
  let pointOnly := match rest with
    | '.' :: digits => after.length == digits.length
    | _ => true
  if rest.length == cs.length && pointOnly then none
  let name := after.takeWhile fun c => !startsNumber c
  let unit ← unit? (String.ofList name)
  if whole > bound / unit then none
  let total := whole * unit + (if part > 0 then fractionOf part scale unit else 0)
  if total > bound then none
  return (total, after.drop name.length)

/-- Adds up terms, within 64 bits; every term takes at least one character. -/
def terms? : (fuel : Nat) → (total : Nat) → List Char → Option Nat
  | _, total, [] => some total
  | 0, _, _ => none
  | fuel + 1, total, cs => do
    let (n, rest) ← term? cs
    let sum := (total + n) % (2 * bound)
    if sum > bound then none
    terms? fuel sum rest

/-- The span that a text tells. -/
def read? (s : String) : Option Duration := do
  let (negative, cs) := match s.toList with
    | '-' :: cs => (true, cs)
    | '+' :: cs => (false, cs)
    | cs => (false, cs)
  if cs == ['0'] then return {}
  if cs.isEmpty then none
  let total ← terms? cs.length 0 cs
  if negative then return ⟨-total⟩
  if total ≥ bound then none
  return ⟨total⟩

/-- A number of units with a fraction of so many digits, written without closing zeros. -/
def decimal (n places : Nat) : String :=
  let digits := Nat.toDigits 10 (n % Nat.pow 10 places)
  let padded := List.replicate (places - digits.length) '0' ++ digits
  let kept := (padded.reverse.dropWhile (· == '0')).reverse
  toString (n / Nat.pow 10 places) ++ (if kept.isEmpty then "" else "." ++ String.ofList kept)

/-- A size in nanoseconds in words of the largest units that fit. -/
def printSize (n : Nat) : String :=
  if n = 0 then "0s"
  else if n < 1000 then toString n ++ "ns"
  else if n < 1000000 then decimal n 3 ++ "µs"
  else if n < 1000000000 then decimal n 6 ++ "ms"
  else
    let seconds := decimal (n % 60000000000) 9 ++ "s"
    let minutes := n / 60000000000
    if minutes = 0 then seconds
    else if minutes < 60 then toString minutes ++ "m" ++ seconds
    else toString (minutes / 60) ++ "h" ++ toString (minutes % 60) ++ "m" ++ seconds

def print (d : Duration) : String :=
  (if d.nanoseconds < 0 then "-" else "") ++ printSize d.nanoseconds.natAbs

end Duration

end TypeCalculus

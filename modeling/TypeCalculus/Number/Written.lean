import TypeCalculus.Number.Shortest

/-! How numbers are written: with the fewest digits that read back, positionally while the first digit
    stands between the fourth place after the point and the sixth before it, and with an exponent of at
    least two digits otherwise. Both zeros are written `0`. -/

namespace TypeCalculus.Number

/-- The digits of a decimal before and after a point put `n` places from the left. -/
def positional (digits : List Char) (n : Int) : String :=
  if n ≤ 0 then
    "0." ++ String.ofList (List.replicate n.natAbs '0' ++ digits)
  else
    let k := n.natAbs
    let whole := digits.take k ++ List.replicate (k - digits.length) '0'
    match digits.drop k with
    | [] => String.ofList whole
    | fraction => String.ofList whole ++ "." ++ String.ofList fraction

/-- One digit, a point before the others, and the exponent of ten with its sign. -/
def scientific (digits : List Char) (e : Int) : String :=
  let mantissa := match digits with
    | [] => "0"
    | [d] => String.singleton d
    | d :: rest => String.singleton d ++ "." ++ String.ofList rest
  let size := Nat.toDigits 10 e.natAbs
  let padded := if size.length < 2 then '0' :: size else size
  mantissa ++ "e" ++ (if e < 0 then "-" else "+") ++ String.ofList padded

/-- The text of a positive decimal. -/
def Decimal.write (d : Decimal) : String :=
  let digits := Nat.toDigits 10 d.digits
  let e : Int := digits.length + d.exponent - 1
  if e < -4 || e ≥ 6 then scientific digits e else positional digits (e + 1)

/-- The text of a number. -/
def write : Binary64 → String
  | .nan => "NaN"
  | .infinite false => "+Inf"
  | .infinite true => "-Inf"
  | .finite negative m q =>
    if m = 0 then "0" else (if negative then "-" else "") ++ (shortest m q).write

end TypeCalculus.Number

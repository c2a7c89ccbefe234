import TypeCalculus.Number.Binary64

/-! Numbers as they are read from text. A number is decimal with an optional exponent of ten, or
    hexadecimal with a required exponent of two; digits may be parted by single underscores; `inf`,
    `infinity` and `nan` are read in any case of letters. A value out of range is not a number. -/

namespace TypeCalculus.Number

/-- A character in lower case if it is a plain letter. -/
def low (c : Char) : Char := c.toLower

/-- The value of a digit in base ten or sixteen. -/
def digit? (hex : Bool) (c : Char) : Option Nat :=
  if c.isDigit then some (c.toNat - '0'.toNat)
  else if hex && 'a' ≤ low c && low c ≤ 'f' then some ((low c).toNat - 'a'.toNat + 10)
  else none

/-- Where a scan for misplaced underscores stands: at the start, after a digit, after an underscore, or
    after another character. -/
private inductive Seen where
  | nothing | digit | underscore | other
  deriving DecidableEq

private def underscoresFrom (hex : Bool) : Seen → List Char → Bool
  | seen, [] => seen ≠ .underscore
  | seen, c :: rest =>
    if (digit? hex c).isSome then underscoresFrom hex .digit rest
    else if c = '_' then seen = .digit && underscoresFrom hex .underscore rest
    else seen ≠ .underscore && underscoresFrom hex .other rest

/-- Every underscore stands between two digits, where a base mark counts as a digit. -/
def underscoresPlaced (cs : List Char) : Bool :=
  let cs := match cs with
    | '+' :: r => r
    | '-' :: r => r
    | r => r
  match cs with
  | '0' :: b :: rest =>
    if low b = 'x' then underscoresFrom true .digit rest
    else if low b = 'b' || low b = 'o' then underscoresFrom false .digit rest
    else underscoresFrom false .nothing cs
  | _ => underscoresFrom false .nothing cs

/-- The digits of a number with its point: their value, how many there are, how many of them stand after
    the point, and what follows. -/
structure Digits where
  value : Nat := 0
  count : Nat := 0
  fraction : Nat := 0
  rest : List Char := []

/-- Reads digits, underscores and at most one point. -/
def scanDigits (hex : Bool) (point : Bool) (acc : Digits) : List Char → Digits
  | [] => { acc with rest := [] }
  | c :: cs =>
    if c = '_' then scanDigits hex point acc cs
    else if c = '.' then
      if point then { acc with rest := c :: cs } else scanDigits hex true acc cs
    else
      match digit? hex c with
      | some d =>
        let base := if hex then 16 else 10
        scanDigits hex point
          { acc with
            value := acc.value * base + d
            count := acc.count + 1
            fraction := if point then acc.fraction + 1 else acc.fraction } cs
      | none => { acc with rest := c :: cs }

/-- Reads the digits of an exponent; from five digits on its size does not matter, and further digits
    are passed over. -/
def scanExponent (e : Nat) : List Char → Nat × List Char
  | [] => (e, [])
  | c :: cs =>
    if c = '_' then scanExponent e cs
    else if c.isDigit then
      scanExponent (if e < 10000 then e * 10 + (c.toNat - '0'.toNat) else e) cs
    else (e, c :: cs)

/-- An exponent with its sign, after the letter that announces it. -/
def exponent? (cs : List Char) : Option (Int × List Char) :=
  let (sign, cs) : Int × List Char := match cs with
    | '+' :: r => (1, r)
    | '-' :: r => (-1, r)
    | r => (1, r)
  match cs with
  | c :: _ =>
    if c.isDigit then
      let (e, rest) := scanExponent 0 cs
      some (sign * (e : Int), rest)
    else none
  | [] => none

/-- The double nearest to `value * 10 ^ e`. -/
def ofDecimal? (value : Nat) (e : Int) : Option (Nat × Int) :=
  let point : Int := (Nat.toDigits 10 value).length + e
  if value = 0 || point < -330 then some (0, Binary64.minExponent)
  else if point > 310 then none
  else if e < 0 then Binary64.nearest? value (Nat.pow 10 e.natAbs)
  else Binary64.nearest? (value * Nat.pow 10 e.natAbs) 1

/-- The double nearest to `value * 2 ^ e`. -/
def ofBinary? (value : Nat) (e : Int) : Option (Nat × Int) :=
  let point : Int := (Nat.log2 value : Int) + e
  if value = 0 || point < -1100 then some (0, Binary64.minExponent)
  else if point > 1030 then none
  else if e < 0 then Binary64.nearest? value (Nat.pow 2 e.natAbs)
  else Binary64.nearest? (value * Nat.pow 2 e.natAbs) 1

/-- The number without its sign. -/
def unsigned? (cs : List Char) : Option (Nat × Int) :=
  let (hex, body) := match cs with
    | '0' :: x :: c :: r => if low x = 'x' then (true, c :: r) else (false, cs)
    | _ => (false, cs)
  let d := scanDigits hex false {} body
  if d.count = 0 then none
  else
    match d.rest with
    | [] => if hex then none else ofDecimal? d.value (-(d.fraction : Int))
    | c :: r =>
      if low c = (if hex then 'p' else 'e') then
        match exponent? r with
        | some (e, []) =>
          if hex then ofBinary? d.value (e - 4 * (d.fraction : Int))
          else ofDecimal? d.value (e - (d.fraction : Int))
        | _ => none
      else none

/-- Splits off the sign of a number. -/
def splitSign : List Char → Bool × List Char
  | '-' :: r => (true, r)
  | '+' :: r => (false, r)
  | r => (false, r)

/-- The number a text spells. -/
def read? (s : String) : Option Binary64 :=
  let cs := s.toList
  let (negative, body) := splitSign cs
  let word := String.ofList (body.map low)
  if word = "inf" || word = "infinity" then some (.infinite negative)
  else if String.ofList (cs.map low) = "nan" then some .nan
  else if cs.contains '_' && !underscoresPlaced cs then none
  else (unsigned? body).map fun (m, e) => .finite negative m e

end TypeCalculus.Number

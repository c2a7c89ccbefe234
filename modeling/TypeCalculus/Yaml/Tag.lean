import TypeCalculus.Number.Reading
import TypeCalculus.Text.Base64
import TypeCalculus.Text.Utf8

/-! What a scalar means. A plain one means by its looks nothing, a truth value, a whole number, a number, a
    time, or else text; a tag says which of them it has to be. -/

namespace TypeCalculus.Yaml

/-- The value of a scalar. -/
inductive Value where
  | null
  | bool (b : Bool)
  | int (n : Int)
  | float (x : Binary64)
  | timestamp
  | text (s : String)

/-- The tag of a value. -/
def Value.tag : Value → String
  | null => "!!null"
  | bool _ => "!!bool"
  | int _ => "!!int"
  | float _ => "!!float"
  | timestamp => "!!timestamp"
  | text _ => "!!str"

/-- Scalars with a fixed meaning. -/
def fixedValue? (s : String) : Option Value :=
  if ["", "~", "null", "Null", "NULL"].contains s then some .null
  else if ["true", "True", "TRUE"].contains s then some (.bool true)
  else if ["false", "False", "FALSE"].contains s then some (.bool false)
  else if [".nan", ".NaN", ".NAN"].contains s then some (.float .nan)
  else if [".inf", ".Inf", ".INF", "+.inf", "+.Inf", "+.INF"].contains s then
    some (.float (.infinite false))
  else if ["-.inf", "-.Inf", "-.INF"].contains s then some (.float (.infinite true))
  else none

/-- The value of digits in a base; none if one of them is not a digit of the base. -/
def digitsIn? (base : Nat) (cs : List Char) : Option Nat :=
  if cs.isEmpty then none
  else
    cs.foldl (fun acc c => do
      let n ← acc
      let d ← Number.digit? true c
      if d < base then some (n * base + d) else none) (some 0)

/-- A number of a sign and a size, if 64 bits hold it. Only a number without a sign may use the highest
    bit. -/
def bounded? (sign : Option Char) (size : Nat) : Option Int :=
  if sign = some '-' then if size ≤ 0x8000000000000000 then some (-(size : Int)) else none
  else if size < 0x8000000000000000 || (size < 0x10000000000000000 && sign.isNone) then some size
  else none

/-- The sign at the start of a text, and what follows it. -/
def takeSign : List Char → Option Char × List Char
  | '+' :: rest => (some '+', rest)
  | '-' :: rest => (some '-', rest)
  | rest => (none, rest)

/-- A sign and digits of a base. -/
def signedIn? (base : Nat) (cs : List Char) : Option Int := do
  let (sign, digits) := takeSign cs
  bounded? sign (← digitsIn? base digits)

/-- A whole number with a sign and a mark of its base; a leading zero marks base eight. -/
def markedWhole? (cs : List Char) : Option Int := do
  let (sign, rest) := takeSign cs
  let size ← match rest with
    | '0' :: b :: digits =>
      if b = 'x' || b = 'X' then digitsIn? 16 digits
      else if b = 'b' || b = 'B' then digitsIn? 2 digits
      else if b = 'o' || b = 'O' then digitsIn? 8 digits
      else digitsIn? 8 (b :: digits)
    | digits => digitsIn? 10 digits
  bounded? sign size

/-- A whole number. In base two and eight the sign may also stand after the mark. -/
def readWhole? (cs : List Char) : Option Int :=
  (markedWhole? cs).or <|
    match cs with
    | '0' :: 'b' :: rest => signedIn? 2 rest
    | '0' :: 'o' :: rest => signedIn? 8 rest
    | _ => none

/-- The text is a decimal number with an optional exponent. -/
def isPlainFloat (s : String) : Bool :=
  let (_, cs) := Number.splitSign s.toList
  let whole := cs.takeWhile Char.isDigit
  let rest := cs.drop whole.length
  let (fraction, rest) := match rest with
    | '.' :: r => (r.takeWhile Char.isDigit, r.dropWhile Char.isDigit)
    | r => ([], r)
  let exponent := match rest with
    | [] => true
    | e :: r =>
      let (_, digits) := Number.splitSign r
      (e = 'e' || e = 'E') && !digits.isEmpty && digits.all Char.isDigit
  (!whole.isEmpty || !fraction.isEmpty) && exponent

/-- One or two digits, or more of a fraction, with an upper bound on their value. -/
private def field? (most : Nat) (cs : List Char) : Option (Nat × List Char) :=
  let digits := (cs.takeWhile Char.isDigit).take 2
  match digitsIn? 10 digits with
  | some n => if n ≤ most then some (n, cs.drop digits.length) else none
  | none => none

private def expect? (c : Char) : List Char → Option (List Char)
  | [] => none
  | d :: rest => if c = d then some rest else none

def daysIn (year month : Nat) : Nat :=
  if month = 2 then
    if year % 4 = 0 && (year % 100 ≠ 0 || year % 400 = 0) then 29 else 28
  else if [4, 6, 9, 11].contains month then 30
  else 31

/-- Hours, minutes and seconds with an optional fraction. -/
private def clock? (cs : List Char) : Option (List Char) := do
  let (_, cs) ← field? 23 cs
  let cs ← expect? ':' cs
  let (_, cs) ← field? 59 cs
  let cs ← expect? ':' cs
  let (_, cs) ← field? 59 cs
  match cs with
  | c :: rest =>
    let fraction := rest.takeWhile Char.isDigit
    if (c = '.' || c = ',') && !fraction.isEmpty then some (rest.drop fraction.length) else some cs
  | [] => some []

/-- `Z`, or a sign with hours and minutes. -/
private def isZone (cs : List Char) : Bool :=
  match cs with
  | ['Z'] => true
  | [s, a, b, ':', c, d] =>
    (s = '+' || s = '-') && (digitsIn? 10 [a, b]).any (· ≤ 24) && (digitsIn? 10 [c, d]).any (· ≤ 60) &&
      [a, b, c, d].all Char.isDigit
  | _ => false

/-- The text is a date, or a date and a time. -/
def isTimestamp (s : String) : Bool :=
  let cs := s.toList
  let year := cs.takeWhile Char.isDigit
  year.length = 4 &&
    (do
      let rest ← expect? '-' (cs.drop 4)
      let (month, rest) ← field? 12 rest
      let rest ← expect? '-' rest
      let (day, rest) ← field? 31 rest
      let y ← digitsIn? 10 year
      if month = 0 || day = 0 || day > daysIn y month then none
      match rest with
      | [] => return true
      | c :: rest =>
        if c = 'T' || c = 't' then return isZone (← clock? rest)
        else if c = ' ' then return (← clock? (rest.dropWhile (· = ' '))).isEmpty
        else none : Option Bool).getD false

/-- The value of a plain scalar that starts like a number. -/
def numberLike (s : String) : Value :=
  if isTimestamp s then .timestamp
  else
    let plain := s.toList.filter (· ≠ '_')
    match readWhole? plain with
    | some n => .int n
    | none =>
      if isPlainFloat (String.ofList plain) then
        ((Number.read? (String.ofList plain)).map Value.float).getD (.text s)
      else .text s

/-- The value of a plain scalar. -/
def valueOf (s : String) : Value :=
  match fixedValue? s with
  | some v => v
  | none =>
    match s.toList with
    | '.' :: _ => ((Number.read? s).map Value.float).getD (.text s)
    | c :: _ => if c.isDigit || c = '+' || c = '-' then numberLike s else .text s
    | [] => .null

/-- A scalar under the tag is read by its looks. Under any other tag it is text. -/
def isResolved (tag : String) : Bool :=
  ["!!null", "!!bool", "!!int", "!!float", "!!timestamp"].contains tag

/-- The value of a scalar under its tag; none if it does not look like one. A whole number may stand for a
    number, unless it takes the highest bit. -/
def valueUnder? (tag s : String) : Option Value :=
  if tag = "!!binary" then (Text.Base64.decode? s).map fun bytes => .text (Text.ofBytes bytes)
  else if !isResolved tag then some (.text s)
  else
    let value := valueOf s
    if value.tag = tag then some value
    else
      match value with
      | .int n =>
        if tag = "!!float" && n < 0x8000000000000000 then
          (Binary64.nearest? n.natAbs 1).map fun (m, e) => .float (.finite (n < 0) m e)
        else none
      | _ => none

end TypeCalculus.Yaml

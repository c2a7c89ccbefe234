/-! Bytes written with sixty-four characters. Four characters spell three bytes, and equals signs fill up
    the last four. Line ends between the characters do not count. -/

namespace TypeCalculus.Text.Base64

/-- The six bits that a character stands for. -/
def digit? (c : Char) : Option Nat :=
  if 'A' ≤ c && c ≤ 'Z' then some (c.toNat - 'A'.toNat)
  else if 'a' ≤ c && c ≤ 'z' then some (c.toNat - 'a'.toNat + 26)
  else if '0' ≤ c && c ≤ '9' then some (c.toNat - '0'.toNat + 52)
  else if c = '+' then some 62
  else if c = '/' then some 63
  else none

/-- The bytes of groups of four characters. In the last group bits that fill no byte are dropped. -/
def groups? : List Char → Option (List UInt8)
  | [] => some []
  | [a, b, '=', '='] => do
    let n := (← digit? a) * 64 + (← digit? b)
    return [(n / 16).toUInt8]
  | [a, b, c, '='] => do
    let n := ((← digit? a) * 64 + (← digit? b)) * 64 + (← digit? c)
    return [(n / 1024).toUInt8, (n / 4).toUInt8]
  | a :: b :: c :: d :: rest => do
    let n := (((← digit? a) * 64 + (← digit? b)) * 64 + (← digit? c)) * 64 + (← digit? d)
    return (n / 65536).toUInt8 :: (n / 256).toUInt8 :: n.toUInt8 :: (← groups? rest)
  | _ => none

/-- The bytes that a text spells. -/
def decode? (s : String) : Option (List UInt8) :=
  groups? (s.toList.filter fun c => c ≠ '\n' && c ≠ '\r')

end TypeCalculus.Text.Base64

/-! Text from bytes. A byte that is part of no character counts as one replacement character.

Texts that differ only in such bytes are one text here. Only names and literals written as `!!binary` scalars can hold
such bytes, since anything else a document spells is text already: two names of that kind, told apart by undecodable
bytes alone, are one name. -/

namespace TypeCalculus.Text

/-- The character for a byte that is part of none. -/
def replacement : Char := Char.ofNat 0xFFFD

/-- A byte that goes on with a character. -/
def isTail (b : UInt8) : Bool := 0x80 ≤ b && b < 0xC0

/-- How many bytes follow the first byte of a character, what the first byte adds to its code, and the
    least code that takes so many bytes. -/
def lead? (b : UInt8) : Option (Nat × Nat × Nat) :=
  let n := b.toNat
  if n < 0x80 then some (0, n, 0)
  else if 0xC0 ≤ n && n < 0xE0 then some (1, n - 0xC0, 0x80)
  else if 0xE0 ≤ n && n < 0xF0 then some (2, n - 0xE0, 0x800)
  else if 0xF0 ≤ n && n < 0xF8 then some (3, n - 0xF0, 0x10000)
  else none

/-- The character that starts with a byte, and how many of the bytes after it belong to it. -/
def charAt? (b : UInt8) (rest : List UInt8) : Option (Char × Nat) := do
  let (length, start, least) ← lead? b
  let tails := rest.take length
  if tails.length < length || !tails.all isTail then none
  let code := tails.foldl (fun code t => code * 64 + (t.toNat - 0x80)) start
  if code < least || !decide code.isValidChar then none
  return (Char.ofNat code, length)

/-- The characters that bytes spell. -/
def charsOf : List UInt8 → List Char
  | [] => []
  | b :: rest =>
    match charAt? b rest with
    | some (c, n) => c :: charsOf (rest.drop n)
    | none => replacement :: charsOf rest
termination_by bytes => bytes.length
decreasing_by
  · simp only [List.length_cons, List.length_drop]; omega
  · simp

def ofBytes (bytes : List UInt8) : String := String.ofList (charsOf bytes)

end TypeCalculus.Text

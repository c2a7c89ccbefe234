import TypeCalculus.Text.Class
import TypeCalculus.Text.Printable

/-! How text stands inside the pattern of a template. Printable characters stand for themselves, after a
    backslash where they have a meaning of their own; all others are written by a letter or by a code.

    A code past two digits is written with as many digits as it has and read with exactly four. So a
    character whose code has three digits takes up the next character if that is a digit too, and cannot be
    read otherwise; of a code with more than four digits the last ones stand for themselves. -/

namespace TypeCalculus.Assignable.Spelling

/-- Characters with a meaning of their own in a pattern. -/
def marks : List Char := "\\.+*?()|[]\x7b\x7d^$# ".toList

/-- Letters that stand for a code after a backslash. -/
def letters : List (Char × Nat) := [('a', 7), ('t', 9), ('n', 10), ('v', 11), ('f', 12), ('r', 13)]

/-- How one character is written. -/
def writeChar (c : Char) : List Char :=
  if Text.isPrintable c then if marks.contains c then ['\\', c] else [c]
  else
    match letters.find? (·.2 = c.toNat) with
    | some (letter, _) => ['\\', letter]
    | none =>
      if c.toNat < 0x100 then '\\' :: 'x' :: (Text.hexPadded 2 c.toNat).toList
      else '\\' :: 'u' :: (Text.hexPadded 1 c.toNat).toList

def write (text : String) : List Char := text.toList.flatMap writeChar

/-- What a character after a backslash stands for, if it starts no code. -/
def codeAfterBackslash (c : Char) : Nat :=
  match letters.find? (·.1 = c) with
  | some (_, code) => code
  | none => c.toNat

/-- The codes of the characters that a written text stands for. A code between those of characters stands
    for none, and no text has it. -/
def read? : List Char → Option (List Nat)
  | [] => some []
  | '\\' :: 'x' :: a :: b :: rest => do return (← Text.hexCode? [a, b]) :: (← read? rest)
  | '\\' :: 'u' :: a :: b :: c :: d :: rest => do return (← Text.hexCode? [a, b, c, d]) :: (← read? rest)
  | ['\\'] | '\\' :: 'x' :: _ | '\\' :: 'u' :: _ => none
  | '\\' :: c :: rest => (read? rest).map (codeAfterBackslash c :: ·)
  | c :: rest => (read? rest).map (c.toNat :: ·)

/-- The codes that a text stands for in a pattern. -/
def codes? (text : String) : Option (List Nat) := read? (write text)

/-- The text starts with characters of the given codes. -/
def begins (codes : List Nat) (s : List Char) : Bool := (s.take codes.length).map Char.toNat = codes

end TypeCalculus.Assignable.Spelling

import TypeCalculus.Ty.Fault
import TypeCalculus.Text.Class

/-! Literals and the texts they are read from. -/

namespace TypeCalculus

/-- The truth value of a text. -/
def readBool? (s : String) : Option Bool :=
  if ["1", "t", "T", "TRUE", "true", "True"].contains s then some true
  else if ["0", "f", "F", "FALSE", "false", "False"].contains s then some false
  else none

/-- The whole number of a decimal text with an optional sign. -/
def readInt? (s : String) : Option Int :=
  let (negative, digits) := Number.splitSign s.toList
  if digits.isEmpty || !digits.all Char.isDigit then none
  else
    let n : Int := digits.foldl (fun n c => n * 10 + (c.toNat - '0'.toNat)) 0
    some (if negative then -n else n)

namespace Ty

def numberLit (x : Binary64) : Ty := literal .number (Number.write x)

def natLit (n : Nat) : Ty := numberLit (Binary64.ofNat n)

def bigintLit (n : Int) : Ty := literal .bigint (toString n)

/-- The value of a number literal. -/
def numberOf? : Ty → Option Binary64
  | literal .number text => Number.read? text
  | _ => none

/-- The base type of a literal. -/
def widen : Ty → Ty
  | literal base _ => prim base
  | t => t

/-- Text without one `n` at its end. -/
def dropBigintMark (s : String) : String :=
  match s.toList.reverse with
  | 'n' :: rest => String.ofList rest.reverse
  | _ => s

/-- The literal of a base type that a text spells. -/
def readLiteral (base : Prim) (text : String) : Except TypeError Ty :=
  match base with
  | .string => pure (stringLit text)
  | .number =>
    match Number.read? (Text.trim text) with
    | some x => if x.isFinite then pure (numberLit x) else malformed (.invalidNumber text)
    | none => malformed (.invalidNumber text)
  | .boolean =>
    match readBool? text with
    | some b => pure (boolLit b)
    | none => malformed (.invalidBoolean text)
  | .bigint =>
    match readInt? (dropBigintMark text) with
    | some n => pure (bigintLit n)
    | none => malformed (.invalidBigint text)
  | .symbol => if text = "" then malformed .unnamedSymbol else pure (literal .symbol text)
  | .null => malformed (.noLiteralForm .null)
  | .undefined => malformed (.noLiteralForm .undefined)

end Ty

end TypeCalculus

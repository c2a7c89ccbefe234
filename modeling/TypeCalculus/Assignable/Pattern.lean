import TypeCalculus.Assignable.Spelling
import TypeCalculus.Text.Class
import TypeCalculus.Ty.Template

/-! Text patterns of the holes of a template. A pattern lists the lengths of the starts of a text that it
    accepts, the preferred one first. -/

namespace TypeCalculus.Assignable

/-- What the text in a hole has to look like. The texts that it names are of type `α`: as they are given, or
    as the codes that they stand for. -/
inductive Pattern (α : Type) where
  /-- Any text, as short as possible. -/
  | shortest
  /-- One character. -/
  | single
  /-- A number, as long as possible. -/
  | number
  /-- A whole number with an optional minus sign, as long as possible. -/
  | integer
  | exactly (text : α)
  /-- The first that fits; with nothing to choose from, the empty text. -/
  | oneOf (ps : List (Pattern α))

namespace Pattern

/-- The numbers from `n` down to `low`. -/
def downTo (low : Nat) : Nat → List Nat
  | 0 => if low = 0 then [0] else []
  | n + 1 => if low ≤ n + 1 then (n + 1) :: downTo low n else []

/-- How many digits a text starts with. -/
def digitRun (s : List Char) : Nat := (s.takeWhile Text.isDecimalDigit).length

/-- At least `low` digits, the more the better. -/
def digits (low : Nat) (s : List Char) : List Nat := downTo low (digitRun s)

/-- One character of a kind. -/
def char (p : Char → Bool) (s : List Char) : List Nat :=
  match s with
  | c :: _ => if p c then [1] else []
  | [] => []

/-- The second pattern after the first. -/
def andThen (p q : List Char → List Nat) (s : List Char) : List Nat :=
  (p s).flatMap fun n => (q (s.drop n)).map (n + ·)

/-- The pattern, or nothing. -/
def optional (p : List Char → List Nat) (s : List Char) : List Nat := p s ++ [0]

/-- The first pattern, or the second. -/
def orElse (p q : List Char → List Nat) (s : List Char) : List Nat := p s ++ q s

/-- `[+-]?(d+.?d*|.d+)([eE][+-]?d+)?`. -/
def numberLengths : List Char → List Nat :=
  let sign := optional (char fun c => c = '+' || c = '-')
  let point := char (· = '.')
  let decimal := orElse (andThen (digits 1) (andThen (optional point) (digits 0)))
    (andThen point (digits 1))
  let exponent := andThen (char fun c => c = 'e' || c = 'E') (andThen sign (digits 1))
  andThen sign (andThen decimal (optional exponent))

/-- `-?d+`. -/
def integerLengths : List Char → List Nat :=
  andThen (optional (char (· = '-'))) (digits 1)

mutual

/-- The lengths of the starts of a text that a pattern accepts, the preferred one first. -/
def lengths (s : List Char) : Pattern (List Nat) → List Nat
  | shortest => List.range (s.length + 1)
  | single => if s.isEmpty then [] else [1]
  | number => (numberLengths s).eraseDups
  | integer => (integerLengths s).eraseDups
  | exactly codes => if Spelling.begins codes s then [codes.length] else []
  | oneOf [] => [0]
  | oneOf ps => (lengthsOfAny s ps).eraseDups
termination_by structural p => p

def lengthsOfAny (s : List Char) : List (Pattern (List Nat)) → List Nat
  | [] => []
  | p :: ps => p.lengths s ++ lengthsOfAny s ps
termination_by structural ps => ps

end

mutual

/-- The pattern of the text in a hole. Holes without a textual form of their own take any text. -/
def ofHole : Ty → Pattern String
  | .prim .number => number
  | .prim .bigint => integer
  | .prim .boolean => oneOf [exactly "true", exactly "false"]
  | .prim .null => exactly "null"
  | .prim .undefined => exactly "undefined"
  | .literal _ text => exactly text
  | .union members => oneOf (ofHoles members)
  | .infer _ .absent => shortest
  | .infer _ constraint => ofHole constraint
  | _ => shortest
termination_by structural t => t

def ofHoles : List Ty → List (Pattern String)
  | [] => []
  | t :: ts => ofHole t :: ofHoles ts
termination_by structural ts => ts

end

mutual

/-- The pattern as it is written. -/
def write : Pattern String → String
  | shortest => ".*?"
  | single => "."
  | number => "[+-]?(?:\\d+\\.?\\d*|\\.\\d+)(?:[eE][+-]?\\d+)?"
  | integer => "-?\\d+"
  | exactly text => String.ofList (Spelling.write text)
  | oneOf ps => "(?:" ++ "|".intercalate (writeAll ps) ++ ")"
termination_by structural p => p

def writeAll : List (Pattern String) → List String
  | [] => []
  | p :: ps => p.write :: writeAll ps
termination_by structural ps => ps

end

mutual

/-- The pattern with the codes of its texts, if all of them can be read. -/
def read? : Pattern String → Option (Pattern (List Nat))
  | shortest => some shortest
  | single => some single
  | number => some number
  | integer => some integer
  | exactly text => (Spelling.codes? text).map exactly
  | oneOf ps => (readAll? ps).map oneOf
termination_by structural p => p

def readAll? : List (Pattern String) → Option (List (Pattern (List Nat)))
  | [] => some []
  | p :: ps => do return (← p.read?) :: (← readAll? ps)
termination_by structural ps => ps

end

end Pattern

end TypeCalculus.Assignable

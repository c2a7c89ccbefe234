/-! A place in a text: what is left to read, with its line and column. -/

namespace TypeCalculus.Yaml

/-- A line break of any kind. -/
def isBreak (c : Char) : Bool :=
  c = '\n' || c = '\r' || c.toNat = 0x85 || c.toNat = 0x2028 || c.toNat = 0x2029

/-- A space or a tab. -/
def isBlank (c : Char) : Bool := c = ' ' || c = '\t'

/-- Letters, digits, `_` and `-`, which names of anchors are made of. -/
def isWord (c : Char) : Bool := c.isAlphanum || c = '_' || c = '-'

/-- The text starts with a line break or is at its end. -/
def startsBreakOrEnd : List Char → Bool
  | [] => true
  | c :: _ => isBreak c

/-- The text starts with a blank or a line break or is at its end. -/
def startsBlankOrEnd : List Char → Bool
  | [] => true
  | c :: _ => isBlank c || isBreak c

/-- A place in a text; lines and columns count from zero. -/
structure Mark where
  index : Nat := 0
  line : Nat := 0
  column : Nat := 0

/-- What is left of a text from a place on. -/
structure Cursor where
  rest : List Char
  mark : Mark := {}
  /-- The length of the whole text: no walk over what is left takes more steps. -/
  room : Nat := rest.length

namespace Cursor

def column (c : Cursor) : Nat := c.mark.column

/-- Goes past a character that is no line break. -/
def skip (c : Cursor) : Cursor :=
  match c.rest with
  | [] => c
  | _ :: rest =>
    { c with rest, mark := { c.mark with index := c.mark.index + 1, column := c.mark.column + 1 } }

/-- Goes past several characters of one line. -/
def skipMany (c : Cursor) (n : Nat) : Cursor :=
  { c with
    rest := c.rest.drop n
    mark := { c.mark with index := c.mark.index + n, column := c.mark.column + n } }

/-- Goes past a line break, and tells the break as it counts in a scalar. -/
def skipLine (c : Cursor) : List Char × Cursor :=
  let next (n : Nat) (rest : List Char) : Cursor :=
    { c with rest, mark := ⟨c.mark.index + n, c.mark.line + 1, 0⟩ }
  match c.rest with
  | '\r' :: '\n' :: rest => (['\n'], next 2 rest)
  | b :: rest =>
    if b = '\n' || b = '\r' || b.toNat = 0x85 then (['\n'], next 1 rest)
    else if isBreak b then ([b], next 1 rest)
    else ([], c)
  | [] => ([], c)

/-- A marker of the start or the end of a document stands here. -/
def atDocumentMarker (c : Cursor) : Bool :=
  c.mark.column = 0 &&
    match c.rest with
    | '-' :: '-' :: '-' :: rest => startsBlankOrEnd rest
    | '.' :: '.' :: '.' :: rest => startsBlankOrEnd rest
    | _ => false

end Cursor

/-- The text does not follow the grammar. -/
inductive SyntaxError where
  | syntaxError

end TypeCalculus.Yaml

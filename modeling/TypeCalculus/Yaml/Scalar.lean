import TypeCalculus.Text.Class
import TypeCalculus.Yaml.Cursor

/-! The texts of scalars: plain, between quotes, and in indented blocks. Line breaks inside a scalar are
    folded: one break becomes a space, and of several the first is dropped. -/

namespace TypeCalculus.Yaml

/-- Blanks and breaks met between two words of a scalar. -/
structure Gap where
  /-- Blanks before the first break. -/
  blanks : List Char := []
  /-- The first break. -/
  first : List Char := []
  /-- The breaks after it. -/
  more : List Char := []
  /-- A break was met. -/
  broken : Bool := false

/-- The characters that a gap stands for. -/
def Gap.fold (g : Gap) : List Char :=
  if g.broken then
    if g.first = ['\n'] then (if g.more.isEmpty then [' '] else g.more)
    else g.first ++ g.more
  else g.blanks

/-- Reads blanks and breaks. In a plain scalar a tab may not stand before the column `indent` at the
    start of a line. -/
def scanGap (indent : Option Nat) : (fuel : Nat) → Gap → Cursor → Except SyntaxError (Gap × Cursor)
  | 0, g, c => pure (g, c)
  | fuel + 1, g, c =>
    match c.rest with
    | [] => pure (g, c)
    | ch :: _ =>
      if isBlank ch then
        if g.broken then
          if ch = '\t' && indent.any (c.column < ·) then throw .syntaxError
          else scanGap indent fuel g c.skip
        else scanGap indent fuel { g with blanks := g.blanks ++ [ch] } c.skip
      else if isBreak ch then
        let (b, c) := c.skipLine
        if g.broken then scanGap indent fuel { g with more := g.more ++ b } c
        else scanGap indent fuel { g with blanks := [], first := b, broken := true } c
      else pure (g, c)

/-- The length of a hexadecimal code after an escape letter. -/
def codeLength? : Char → Option Nat
  | 'x' => some 2
  | 'u' => some 4
  | 'U' => some 8
  | _ => none

/-- The character of a short escape. -/
def escape? : Char → Option Nat
  | '0' => some 0
  | 'a' => some 7
  | 'b' => some 8
  | 't' => some 9
  | '\t' => some 9
  | 'n' => some 10
  | 'v' => some 11
  | 'f' => some 12
  | 'r' => some 13
  | 'e' => some 0x1B
  | ' ' => some 0x20
  | '"' => some 0x22
  | '\'' => some 0x27
  | '\\' => some 0x5C
  | 'N' => some 0x85
  | '_' => some 0xA0
  | 'L' => some 0x2028
  | 'P' => some 0x2029
  | _ => none

/-- An escape after its backslash: the character and how many characters spell it. -/
def unescape (cs : List Char) : Except SyntaxError (Char × Nat) :=
  match cs with
  | [] => throw .syntaxError
  | c :: rest =>
    match escape? c, codeLength? c with
    | some code, _ => pure (Char.ofNat code, 1)
    | none, some n =>
      if rest.length < n then throw .syntaxError
      else
        match Text.hexCode? (rest.take n) with
        | some code =>
          if (0xD800 ≤ code && code ≤ 0xDFFF) || code > 0x10FFFF then throw .syntaxError
          else pure (Char.ofNat code, n + 1)
        | none => throw .syntaxError
    | none, none => throw .syntaxError

/-- Reads a quoted scalar after its opening quote, and goes past the closing one. The characters read so
    far are kept last one first. -/
def scanQuoted (quote : Char) : (fuel : Nat) → List Char → Cursor →
    Except SyntaxError (String × Cursor)
  | 0, _, _ => throw .syntaxError
  | fuel + 1, done, c =>
    if c.atDocumentMarker then throw .syntaxError
    else
      match c.rest with
      | [] => throw .syntaxError
      | ch :: rest =>
        if quote = '\'' && ch = '\'' && rest.head? = some '\'' then
          scanQuoted quote fuel ('\'' :: done) (c.skipMany 2)
        else if ch = quote then pure (String.ofList done.reverse, c.skip)
        else if quote = '"' && ch = '\\' then
          if !rest.isEmpty && startsBreakOrEnd rest then do
            let (_, c) := c.skip.skipLine
            let (g, c) ← scanGap none c.room { broken := true } c
            scanQuoted quote fuel ((g.first ++ g.more).reverse ++ done) c
          else do
            let (e, n) ← unescape rest
            scanQuoted quote fuel (e :: done) (c.skipMany (n + 1))
        else if isBlank ch || isBreak ch then do
          let (g, c) ← scanGap none c.room {} c
          scanQuoted quote fuel (g.fold.reverse ++ done) c
        else scanQuoted quote fuel (ch :: done) c.skip

/-- A character that ends a plain scalar between flow brackets. -/
def endsInFlow (c : Char) : Bool :=
  c = ',' || c = '?' || c = '[' || c = ']' || c = '\x7b' || c = '\x7d'

/-- Reads one word of a plain scalar: up to a blank, a break, a colon before one of them, or a flow
    indicator. -/
def scanWord (inFlow : Bool) : (fuel : Nat) → List Char → Cursor → List Char × Cursor
  | 0, done, c => (done, c)
  | fuel + 1, done, c =>
    match c.rest with
    | [] => (done, c)
    | ch :: rest =>
      if isBlank ch || isBreak ch || (ch = ':' && startsBlankOrEnd rest) ||
          (inFlow && endsInFlow ch) then (done, c)
      else scanWord inFlow fuel (ch :: done) c.skip

/-- Reads a plain scalar. Also tells whether the scalar ended at the start of a new line. The words so far
    are kept last character first, and `gap` stands before the next word. -/
def scanPlain (inFlow : Bool) (indent : Nat) : (fuel : Nat) → List Char → Gap → Cursor →
    Except SyntaxError (String × Bool × Cursor)
  | 0, done, gap, c => pure (String.ofList done.reverse, gap.broken, c)
  | fuel + 1, done, gap, c =>
    let stop := pure (String.ofList done.reverse, gap.broken, c)
    if c.atDocumentMarker || c.rest.head? = some '#' then stop
    else
      let (word, after) := scanWord inFlow c.room [] c
      let done := if word.isEmpty then done else word ++ gap.fold.reverse ++ done
      let gap := if word.isEmpty then gap else {}
      match after.rest with
      | [] => pure (String.ofList done.reverse, gap.broken, after)
      | ch :: _ =>
        if isBlank ch || isBreak ch then do
          let (gap, after) ← scanGap (some indent) after.room gap after
          if !inFlow && after.column < indent then
            pure (String.ofList done.reverse, gap.broken, after)
          else scanPlain inFlow indent fuel done gap after
        else pure (String.ofList done.reverse, gap.broken, after)

/-- What becomes of the breaks at the end of a block scalar. -/
inductive Chomping where
  | strip | clip | keep
  deriving DecidableEq

/-- The head of a block scalar: chomping and indentation, in either order. -/
def blockHead (cs : List Char) : Except SyntaxError (Chomping × Option Nat × Nat) :=
  let chomp? : Char → Option Chomping
    | '+' => some .keep
    | '-' => some .strip
    | _ => none
  let indent? (c : Char) : Option Nat := if c.isDigit then some (c.toNat - '0'.toNat) else none
  let checked (chomping : Chomping) (n : Nat) (length : Nat) :=
    if n = 0 then throw SyntaxError.syntaxError else pure (chomping, some n, length)
  match cs with
  | a :: b :: _ =>
    match chomp? a, indent? a with
    | some chomping, _ =>
      match indent? b with
      | some n => checked chomping n 2
      | none => pure (chomping, none, 1)
    | none, some n =>
      match chomp? b with
      | some chomping => checked chomping n 2
      | none => checked .clip n 1
    | none, none => pure (.clip, none, 0)
  | [a] =>
    match chomp? a, indent? a with
    | some chomping, _ => pure (chomping, none, 1)
    | none, some n => checked .clip n 1
    | none, none => pure (.clip, none, 0)
  | [] => pure (.clip, none, 0)

/-- Goes past spaces up to a column; without one, past all spaces. -/
def skipIndent (indent : Nat) : (fuel : Nat) → Cursor → Cursor
  | 0, c => c
  | fuel + 1, c =>
    match c.rest with
    | ' ' :: _ => if indent = 0 || c.column < indent then skipIndent indent fuel c.skip else c
    | _ => c

/-- Reads indentation and empty lines of a block scalar. Gives the breaks, the indentation, which is found
    out from the deepest line if it is not known, and the place of the next line with text. -/
def scanBlockBreaks (outer : Nat) (indent : Nat) : (fuel : Nat) → Nat → List Char → Cursor →
    Except SyntaxError (List Char × Nat × Cursor)
  | 0, _, _, _ => throw .syntaxError
  | fuel + 1, deepest, breaks, c =>
    let c := skipIndent indent c.room c
    let deepest := max deepest c.column
    let found := if indent = 0 then max (max deepest outer) 1 else indent
    match c.rest with
    | ch :: _ =>
      if ch = '\t' && (indent = 0 || c.column < indent) then throw .syntaxError
      else if isBreak ch then
        let (b, c) := c.skipLine
        scanBlockBreaks outer indent fuel deepest (breaks ++ b) c
      else pure (breaks, found, c)
    | [] => pure (breaks, found, c)

/-- Reads up to the end of a line. -/
def scanLine : (fuel : Nat) → List Char → Cursor → List Char × Cursor
  | 0, done, c => (done, c)
  | fuel + 1, done, c =>
    match c.rest with
    | [] => (done, c)
    | ch :: _ => if isBreak ch then (done, c) else scanLine fuel (ch :: done) c.skip

/-- Reads the lines of a block scalar. The text so far is kept last character first, with the last break
    and the empty lines after it apart. -/
def scanBlockLines (literal : Bool) (outer indent : Nat) : (fuel : Nat) → List Char → List Char →
    List Char → Bool → Cursor → Except SyntaxError (List Char × List Char × List Char × Cursor)
  | 0, done, last, empty, _, c => pure (done, last, empty, c)
  | fuel + 1, done, last, empty, wasIndented, c =>
    match c.rest with
    | [] => pure (done, last, empty, c)
    | ch :: _ =>
      if c.column ≠ indent then pure (done, last, empty, c)
      else do
        let isIndented := isBlank ch
        let folded := !literal && !wasIndented && !isIndented && last = ['\n']
        let joint := if folded then (if empty.isEmpty then [' '] else []) else last
        let (line, c) := scanLine c.room [] c
        let done := line ++ empty.reverse ++ joint.reverse ++ done
        let (last, c) := c.skipLine
        let (empty, _, c) ← scanBlockBreaks outer indent (c.room + 1) 0 [] c
        scanBlockLines literal outer indent fuel done last empty isIndented c

/-- Reads a block scalar after its indicator, inside a block of a given indentation. -/
def scanBlock (literal : Bool) (indent : Int) (c : Cursor) : Except SyntaxError (String × Cursor) := do
  let (chomping, increment, length) ← blockHead c.rest
  let c := c.skipMany length
  let c := c.skipMany (c.rest.takeWhile isBlank).length
  let c := if c.rest.head? = some '#' then
    c.skipMany (c.rest.takeWhile fun ch => !isBreak ch).length else c
  if !startsBreakOrEnd c.rest then throw .syntaxError
  let (_, c) := c.skipLine
  let outer := (indent + 1).toNat
  let given := match increment with
    | some n => indent.toNat + n
    | none => 0
  let (empty, found, c) ← scanBlockBreaks outer given (c.room + 1) 0 [] c
  let (done, last, empty, c) ← scanBlockLines literal outer found (c.room + 1) [] [] empty false c
  let last := if chomping = .strip then [] else last
  let empty := if chomping = .keep then empty else []
  return (String.ofList (done.reverse ++ last ++ empty), c)

end TypeCalculus.Yaml

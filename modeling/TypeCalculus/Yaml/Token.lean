import TypeCalculus.Text.Utf8
import TypeCalculus.Yaml.Scalar

/-! Tokens of a text. Indentation is made explicit by tokens that open and close blocks, and a colon marks
    the token before it as a key, however long that token is. Reading stops at the first error; the tokens
    before it stay usable as far as nothing after them can change them. -/

namespace TypeCalculus.Yaml

/-- What a token stands for. -/
inductive TokenKind where
  | streamStart
  | streamEnd
  | versionDirective (major minor : Nat)
  | tagDirective (handle tagPrefix : String)
  | documentStart
  | documentEnd
  | blockSequenceStart
  | blockMappingStart
  | blockEnd
  | flowSequenceStart
  | flowSequenceEnd
  | flowMappingStart
  | flowMappingEnd
  | blockEntry
  | flowEntry
  | key
  | value
  | link (name : String)
  | anchor (name : String)
  | tag (handle suffix : String)
  | scalar (text : String) (plain : Bool)
  deriving DecidableEq

/-- A token with the line it starts on, counted from one. -/
structure Token where
  kind : TokenKind
  line : Nat

/-- A place where a key may have begun. -/
structure SimpleKey where
  possible : Bool := false
  /-- Something has to follow that makes it a key. -/
  required : Bool := false
  tokenNumber : Nat := 0
  mark : Mark := {}

/-- How far the reading of tokens has come. -/
structure Scanner where
  cursor : Cursor
  /-- Tokens read, the last one first. -/
  tokens : List Token := []
  count : Nat := 0
  flowLevel : Nat := 0
  indent : Int := -1
  indents : List Int := []
  keyAllowed : Bool := true
  /-- The possible keys of each open flow level, the innermost first. -/
  keys : List SimpleKey := [{}]
  ended : Bool := false

namespace Scanner

abbrev Step := Except SyntaxError Scanner

def mark (s : Scanner) : Mark := s.cursor.mark

def column (s : Scanner) : Int := s.cursor.column

/-- Appends a token that starts at a mark. -/
def push (s : Scanner) (kind : TokenKind) (m : Mark) : Scanner :=
  { s with tokens := ⟨kind, m.line + 1⟩ :: s.tokens, count := s.count + 1 }

/-- Inserts a token before the token of a number. -/
def insertAt (s : Scanner) (number : Nat) (kind : TokenKind) (m : Mark) : Scanner :=
  let after := s.count - number
  { s with
    tokens := s.tokens.take after ++ ⟨kind, m.line + 1⟩ :: s.tokens.drop after
    count := s.count + 1 }

/-- Appends a token of some characters and goes past them. -/
def pushSkip (s : Scanner) (kind : TokenKind) (length : Nat) : Scanner :=
  let m := s.mark
  { s with cursor := s.cursor.skipMany length }.push kind m

/-- Opens a block at a column, unless one of that indentation is open. -/
def rollIndent (s : Scanner) (column : Nat) (number : Option Nat) (kind : TokenKind) (m : Mark) :
    Scanner :=
  if s.flowLevel > 0 || s.indent ≥ column then s
  else
    let s := { s with indents := s.indent :: s.indents, indent := column }
    match number with
    | some n => s.insertAt n kind m
    | none => s.push kind m

/-- Closes the blocks that are indented more than a column. -/
def unrollIndents (column : Int) (m : Mark) : List Int → Scanner → Scanner
  | [], s => s
  | outer :: indents, s =>
    if s.indent > column then
      unrollIndents column m indents ({ s with indent := outer, indents := indents }.push .blockEnd m)
    else s

/-- Closes blocks by tokens at a mark. -/
def unrollIndentAt (s : Scanner) (column : Int) (m : Mark) : Scanner :=
  if s.flowLevel > 0 then s else unrollIndents column m s.indents s

def unrollIndent (s : Scanner) (column : Int) : Scanner := s.unrollIndentAt column s.mark

def topKey (s : Scanner) : SimpleKey := s.keys.headD {}

def setTopKey (s : Scanner) (k : SimpleKey) : Scanner := { s with keys := k :: s.keys.tail }

/-- Gives up the possible key of the current level. -/
def dropKey (s : Scanner) : Step :=
  if s.topKey.possible && s.topKey.required then throw .syntaxError
  else pure (s.setTopKey { s.topKey with possible := false })

/-- Notes that a key may begin here. -/
def noteKey (s : Scanner) : Step := do
  if !s.keyAllowed then return s
  let required := s.flowLevel = 0 && s.indent = s.column
  let s ← s.dropKey
  return s.setTopKey ⟨true, required, s.count, s.mark⟩

/-- Whether the possible key of the current level can still be one: it is on this line and not too far
    back. -/
def keyIsValid (s : Scanner) : Except SyntaxError (Bool × Scanner) :=
  let k := s.topKey
  if !k.possible then pure (false, s)
  else if k.mark.line < s.mark.line || k.mark.index + 1024 < s.mark.index then
    if k.required then throw .syntaxError
    else pure (false, s.setTopKey { k with possible := false })
  else pure (true, s)

/-- Goes past blanks, comments and line breaks. Tabs count as blanks where no indentation is expected. -/
def toNextToken : (fuel : Nat) → Scanner → Scanner
  | 0, s => s
  | fuel + 1, s =>
    match s.cursor.rest with
    | [] => s
    | ch :: _ =>
      if ch = ' ' || (ch = '\t' && (s.flowLevel > 0 || !s.keyAllowed)) ||
          (ch.toNat = 0xFEFF && s.column = 0) then
        toNextToken fuel { s with cursor := s.cursor.skip }
      else if ch = '#' then
        let n := (s.cursor.rest.takeWhile fun c => !isBreak c).length
        toNextToken fuel { s with cursor := s.cursor.skipMany n }
      else if isBreak ch then
        toNextToken fuel
          { s with cursor := s.cursor.skipLine.2, keyAllowed := s.keyAllowed || s.flowLevel = 0 }
      else s

def fetchStreamEnd (s : Scanner) : Step := do
  let m := s.mark
  let s := if m.column = 0 then s
    else { s with cursor := { s.cursor with mark := { m with line := m.line + 1, column := 0 } } }
  let s ← (s.unrollIndent (-1)).dropKey
  return { s with keyAllowed := false, ended := true }.push .streamEnd s.mark

/-- Characters that may stand in a tag as they are. -/
def isTagChar (c : Char) : Bool :=
  isWord c ||
    [';', '/', '?', ':', '@', '&', '=', '+', '$', ',', '.', '!', '~', '*', '\'', '(', ')', '[',
     ']'].contains c

/-- How many bytes a character takes that starts with a byte. -/
def byteCount? (b : Nat) : Option Nat :=
  if b < 0x80 then some 1
  else if 0xC0 ≤ b && b < 0xE0 then some 2
  else if 0xE0 ≤ b && b < 0xF0 then some 3
  else if 0xF0 ≤ b && b < 0xF8 then some 4
  else none

/-- The bytes of a tag, last one first, and what follows the tag. A percent sign and two digits spell a
    byte; `missing` bytes are missing of the character that was begun so. -/
def scanTagBytes (missing : Nat) (done : List UInt8) :
    List Char → Except SyntaxError (List UInt8 × List Char)
  | '%' :: a :: b :: rest =>
    match Text.hexCode? [a, b] with
    | none => throw .syntaxError
    | some byte =>
      if missing > 0 then
        if 0x80 ≤ byte && byte < 0xC0 then scanTagBytes (missing - 1) (byte.toUInt8 :: done) rest
        else throw .syntaxError
      else
        match byteCount? byte with
        | some n => scanTagBytes (n - 1) (byte.toUInt8 :: done) rest
        | none => throw .syntaxError
  | [] => if missing > 0 then throw .syntaxError else pure (done, [])
  | c :: rest =>
    if missing > 0 || c = '%' then throw .syntaxError
    else if isTagChar c then scanTagBytes 0 (c.toNat.toUInt8 :: done) rest
    else pure (done, c :: rest)

/-- The text of a tag, and what follows it. -/
def tagText (cs : List Char) : Except SyntaxError (String × List Char) := do
  let (bytes, rest) ← scanTagBytes 0 [] cs
  return (Text.ofBytes bytes.reverse, rest)

/-- A handle at the start of a text: words between two exclamation marks. -/
def takeHandle? (cs : List Char) : Option (String × List Char) :=
  match cs with
  | '!' :: rest =>
    let word := rest.takeWhile isWord
    match rest.drop word.length with
    | '!' :: rest => some ("!" ++ String.ofList word ++ "!", rest)
    | _ => none
  | _ => none

/-- A tag: in full between angle brackets, or a handle and a suffix. Gives what follows as well. -/
def splitTag (cs : List Char) : Except SyntaxError (String × String × List Char) :=
  match cs with
  | '!' :: '<' :: body => do
    match ← tagText body with
    | (text, '>' :: rest) => if text = "" then throw .syntaxError else return ("", text, rest)
    | _ => throw .syntaxError
  | _ => do
    match takeHandle? cs with
    | some (handle, body) =>
      let (suffix, rest) ← tagText body
      if suffix = "" then throw .syntaxError else return (handle, suffix, rest)
    | none =>
      let (suffix, rest) ← tagText cs.tail
      return if suffix = "" then ("", "!", rest) else ("!", suffix, rest)

/-- A number of one or two digits, and what follows it. -/
def versionNumber (cs : List Char) : Except SyntaxError (Nat × List Char) :=
  let digits := cs.takeWhile Char.isDigit
  if digits.isEmpty || digits.length > 2 then throw .syntaxError
  else
    pure (digits.foldl (fun n d => n * 10 + (d.toNat - '0'.toNat)) 0, cs.drop digits.length)

/-- The version that a directive tells, and what follows it. -/
def versionDirective (cs : List Char) : Except SyntaxError (TokenKind × List Char) := do
  let (major, rest) ← versionNumber (cs.dropWhile isBlank)
  match rest with
  | '.' :: rest =>
    let (minor, rest) ← versionNumber rest
    return (.versionDirective major minor, rest)
  | _ => throw .syntaxError

/-- The handle that a directive gives a meaning, that meaning, and what follows. -/
def tagDirective (cs : List Char) : Except SyntaxError (TokenKind × List Char) := do
  let cs := cs.dropWhile isBlank
  let (handle, rest) ← match takeHandle? cs, cs with
    | some found, _ => pure found
    | none, '!' :: rest => pure ("!", rest)
    | none, _ => throw .syntaxError
  if !(rest.head?.any isBlank) then throw .syntaxError
  let (tagPrefix, rest) ← tagText (rest.dropWhile isBlank)
  if tagPrefix = "" || !startsBlankOrEnd rest then throw .syntaxError
  return (.tagDirective handle tagPrefix, rest)

/-- A directive: a version of the language, or a meaning for a tag handle. -/
def fetchDirective (s : Scanner) : Step := do
  let s ← (s.unrollIndent (-1)).dropKey
  let line := s.cursor.rest.takeWhile fun c => !isBreak c
  let name := line.tail.takeWhile isWord
  let body := line.tail.drop name.length
  if !startsBlankOrEnd body then throw .syntaxError
  let (kind, rest) ← match String.ofList name with
    | "YAML" => versionDirective body
    | "TAG" => tagDirective body
    | _ => throw .syntaxError
  if (rest.dropWhile isBlank).head?.any (· ≠ '#') then throw .syntaxError
  return { s with keyAllowed := false }.pushSkip kind line.length

def fetchDocumentMarker (s : Scanner) (kind : TokenKind) : Step := do
  let s ← (s.unrollIndent (-1)).dropKey
  return { s with keyAllowed := false }.pushSkip kind 3

def fetchFlowStart (s : Scanner) (kind : TokenKind) : Step := do
  let s ← s.noteKey
  let s := { s with keys := {} :: s.keys, flowLevel := s.flowLevel + 1, keyAllowed := true }
  return s.pushSkip kind 1

def fetchFlowEnd (s : Scanner) (kind : TokenKind) : Step := do
  let s ← s.dropKey
  let s := if s.flowLevel > 0 then
    { s with flowLevel := s.flowLevel - 1, keys := s.keys.tail } else s
  return { s with keyAllowed := false }.pushSkip kind 1

def fetchFlowEntry (s : Scanner) : Step := do
  let s ← s.dropKey
  return { s with keyAllowed := true }.pushSkip .flowEntry 1

def fetchBlockEntry (s : Scanner) : Step := do
  if s.flowLevel = 0 && !s.keyAllowed then throw .syntaxError
  let s := s.rollIndent s.cursor.column none .blockSequenceStart s.mark
  let s ← s.dropKey
  return { s with keyAllowed := true }.pushSkip .blockEntry 1

def fetchKey (s : Scanner) : Step := do
  if s.flowLevel = 0 && !s.keyAllowed then throw .syntaxError
  let s := s.rollIndent s.cursor.column none .blockMappingStart s.mark
  let s ← s.dropKey
  return { s with keyAllowed := s.flowLevel = 0 }.pushSkip .key 1

def fetchValue (s : Scanner) : Step := do
  let (valid, s) ← s.keyIsValid
  if valid then
    let k := s.topKey
    let s := s.insertAt k.tokenNumber .key k.mark
    let s := s.rollIndent k.mark.column (some k.tokenNumber) .blockMappingStart k.mark
    let s := s.setTopKey { k with possible := false }
    return { s with keyAllowed := false }.pushSkip .value 1
  else
    if s.flowLevel = 0 && !s.keyAllowed then throw .syntaxError
    let s := s.rollIndent s.cursor.column none .blockMappingStart s.mark
    return { s with keyAllowed := s.flowLevel = 0 }.pushSkip .value 1

/-- What may follow the name of an anchor. -/
def endsName : List Char → Bool
  | [] => true
  | c :: _ => isBlank c || isBreak c || ['?', ':', ',', ']', '\x7d', '%', '@', '`'].contains c

def fetchAnchor (s : Scanner) (make : String → TokenKind) : Step := do
  let s ← s.noteKey
  let name := s.cursor.rest.tail.takeWhile isWord
  if name.isEmpty || !endsName (s.cursor.rest.drop (name.length + 1)) then throw .syntaxError
  return { s with keyAllowed := false }.pushSkip (make (String.ofList name)) (name.length + 1)

def fetchTag (s : Scanner) : Step := do
  let s ← s.noteKey
  let (handle, suffix, rest) ← splitTag s.cursor.rest
  if !startsBlankOrEnd rest then throw .syntaxError
  return { s with keyAllowed := false }.pushSkip (.tag handle suffix)
    (s.cursor.rest.length - rest.length)

def fetchBlockScalar (s : Scanner) (literal : Bool) : Step := do
  let s ← s.dropKey
  let m := s.mark
  let (text, cursor) ← scanBlock literal s.indent s.cursor.skip
  return { s with cursor := cursor, keyAllowed := true }.push (.scalar text false) m

def fetchQuoted (s : Scanner) (quote : Char) : Step := do
  let s ← s.noteKey
  let m := s.mark
  let (text, cursor) ← scanQuoted quote (s.cursor.room + 1) [] s.cursor.skip
  return { s with cursor := cursor, keyAllowed := false }.push (.scalar text false) m

def fetchPlain (s : Scanner) : Step := do
  let s ← s.noteKey
  let m := s.mark
  let (text, newLine, cursor) ←
    scanPlain (s.flowLevel > 0) (s.indent + 1).toNat (s.cursor.room + 1) [] {} s.cursor
  return { s with cursor := cursor, keyAllowed := newLine }.push (.scalar text true) m

/-- Characters that cannot start a plain scalar by themselves. -/
def isIndicator (c : Char) : Bool :=
  ['-', '?', ':', ',', '[', ']', '\x7b', '\x7d', '#', '&', '*', '!', '|', '>', '\'', '"', '%', '@',
   '`'].contains c

/-- Reads the next token. -/
def fetchNext (s : Scanner) : Step :=
  let m := s.mark
  let s := toNextToken (s.cursor.room + 1) s
  let s := s.unrollIndentAt s.column m
  let inFlow := s.flowLevel > 0
  match s.cursor.rest with
  | [] => s.fetchStreamEnd
  | ch :: rest =>
    let apart := startsBlankOrEnd rest
    if s.column = 0 && ch = '%' then s.fetchDirective
    else if s.cursor.atDocumentMarker then
      s.fetchDocumentMarker (if ch = '-' then .documentStart else .documentEnd)
    else if ch = '[' then s.fetchFlowStart .flowSequenceStart
    else if ch = '\x7b' then s.fetchFlowStart .flowMappingStart
    else if ch = ']' then s.fetchFlowEnd .flowSequenceEnd
    else if ch = '\x7d' then s.fetchFlowEnd .flowMappingEnd
    else if ch = ',' then s.fetchFlowEntry
    else if ch = '-' && apart then s.fetchBlockEntry
    else if ch = '?' && (inFlow || apart) then s.fetchKey
    else if ch = ':' && (inFlow || apart) then s.fetchValue
    else if ch = '*' then s.fetchAnchor .link
    else if ch = '&' then s.fetchAnchor .anchor
    else if ch = '!' then s.fetchTag
    else if ch = '|' && !inFlow then s.fetchBlockScalar true
    else if ch = '>' && !inFlow then s.fetchBlockScalar false
    else if ch = '\'' then s.fetchQuoted '\''
    else if ch = '"' then s.fetchQuoted '"'
    else if !(isIndicator ch || isBlank ch) || ch = '-' ||
        (!inFlow && (ch = '?' || ch = ':') && !apart) then s.fetchPlain
    else throw .syntaxError

/-- The tokens that nothing read later can change, after an error: none that a key may still be put
    before, and not the last two. -/
def settled (s : Scanner) : List Token :=
  let pending := s.keys.filterMap fun k => if k.possible then some k.tokenNumber else none
  let bound := pending.foldl min (s.count - 2)
  s.tokens.reverse.take bound

/-- Reads tokens up to the end of the text or the first error. -/
def readAll : (fuel : Nat) → Scanner → List Token
  | 0, s => s.settled
  | fuel + 1, s =>
    if s.ended then s.tokens.reverse
    else
      match s.fetchNext with
      | .ok s => readAll fuel s
      | .error _ => s.settled

end Scanner

/-- Characters that a text may hold. -/
def isAllowed (c : Char) : Bool :=
  let n := c.toNat
  n = 0x9 || n = 0xA || n = 0xD || (0x20 ≤ n && n ≤ 0x7E) || n = 0x85 || (0xA0 ≤ n && n ≤ 0xD7FF) ||
    (0xE000 ≤ n && n ≤ 0xFFFD) || 0x10000 ≤ n

/-- The tokens of a text as far as it follows the grammar; none if it holds control characters. A mark of
    the byte order at its start does not count. -/
def tokens (text : String) : List Token :=
  let cs := match text.toList with
    | c :: rest => if c.toNat = 0xFEFF then rest else c :: rest
    | [] => []
  if cs.all isAllowed then
    let start : Scanner := { cursor := { rest := cs } }
    Scanner.readAll (2 * cs.length + 4) (start.push .streamStart start.mark)
  else []

end TypeCalculus.Yaml

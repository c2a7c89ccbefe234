import TypeCalculus.Text.CaseTable

/-! Full case mapping of text, independent of language. A character may map to several, and a capital
    sigma becomes a final sigma at the end of a word. -/

namespace TypeCalculus.Text

/-- The character has case. -/
def isCased (c : Char) : Bool :=
  if c.toNat < 0x80 then c.isAlpha else casedRanges.holds c.toNat

/-- The character is passed over when the end of a word is looked for. -/
def isCaseIgnorable (c : Char) : Bool :=
  ignorableRanges.holds c.toNat

/-- The image of a code point under a run, if the run holds it. -/
def CaseRun.image? (r : CaseRun) (code : Nat) : Option Nat :=
  if r.first ≤ code && code ≤ r.last && (code - r.first) % r.step == 0 then
    some (Int.toNat (code + r.shift))
  else
    none

/-- The full mapping of one character by a table of expansions and a table of runs. -/
def mapCase (expansions : List (Nat × List Nat)) (runs : List CaseRun) (c : Char) : List Char :=
  match expansions.lookup c.toNat with
  | some codes => codes.map Char.ofNat
  | none => [(runs.findSome? (·.image? c.toNat)).elim c Char.ofNat]

/-- The upper case of a character. -/
def upperChar (c : Char) : List Char :=
  if c.toNat < 0x80 then [c.toUpper] else mapCase upperExpansions upperRuns c

/-- The lower case of a character by itself. -/
def lowerChar (c : Char) : List Char :=
  if c.toNat < 0x80 then [c.toLower] else mapCase lowerExpansions lowerRuns c

/-- Upper case, character by character. -/
def upper (s : String) : String :=
  String.ofList (s.toList.flatMap upperChar)

def capitalSigma : Char := Char.ofNat 0x3A3
def smallSigma : Char := Char.ofNat 0x3C3
def finalSigma : Char := Char.ofNat 0x3C2

/-- How many ignorable characters after a sigma are passed over in search of a cased one. -/
def sigmaReach : Nat := 30

/-- The word goes on after a sigma: a cased character follows, at most `sigmaReach` ignorable ones
    away. -/
def wordGoesOn (rest : List Char) : Bool :=
  let ignorable := rest.takeWhile isCaseIgnorable
  ignorable.length ≤ sigmaReach &&
    match rest.drop ignorable.length with
    | c :: _ => isCased c
    | [] => false

/-- Lower case of the rest of a text, where `inWord` says that a cased character stands before it with
    only cased and ignorable ones since. -/
def lowerFrom : Bool → List Char → List Char
  | _, [] => []
  | false, c :: rest =>
    if isCased c then lowerChar c ++ lowerFrom true rest else c :: lowerFrom false rest
  | true, c :: rest =>
    if c == capitalSigma then
      (if wordGoesOn rest then smallSigma else finalSigma) :: lowerFrom true rest
    else if isCased c || isCaseIgnorable c then
      lowerChar c ++ lowerFrom true rest
    else
      c :: lowerFrom false rest

/-- Lower case of a text. -/
def lower (s : String) : String :=
  String.ofList (lowerFrom false s.toList)

/-- The first character through a mapping of texts, the others as they are. -/
def mapFirst (f : String → String) (s : String) : String :=
  match s.toList with
  | [] => ""
  | c :: rest => f (String.singleton c) ++ String.ofList rest

end TypeCalculus.Text

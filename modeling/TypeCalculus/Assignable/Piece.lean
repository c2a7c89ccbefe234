import TypeCalculus.Assignable.Pattern

/-! The pattern of a whole template, piece by piece. A template takes the first choice of lengths, left to
    right, under which its pieces use up the whole text. -/

namespace TypeCalculus.Assignable

/-- A part of the pattern of a template: a text, or what a hole accepts. -/
inductive Piece (α : Type) where
  | text (text : α)
  | hole (pattern : Pattern α)

namespace Piece

/-- The next segment is a hole. -/
def startsWithHole : List (Segment Ty) → Bool
  | .hole _ :: _ => true
  | _ => false

/-- The pattern of a hole before the given segments: an unconstrained placeholder right before another
    hole takes one character. -/
def patternBefore (t : Ty) (rest : List (Segment Ty)) : Pattern String :=
  match t with
  | .infer _ .absent => if startsWithHole rest then .single else .shortest
  | t => .ofHole t

/-- Puts a text in front; a text there already goes on with it. -/
def consText (t : String) : List (Piece String) → List (Piece String)
  | .text u :: rest => .text (t ++ u) :: rest
  | rest => .text t :: rest

/-- The pieces of a template. Texts next to each other are one piece. -/
def ofSegments : List (Segment Ty) → List (Piece String)
  | [] => []
  | .text t :: rest => consText t (ofSegments rest)
  | .hole t :: rest => .hole (patternBefore t rest) :: ofSegments rest

def writePiece : Piece String → String
  | text t => String.ofList (Spelling.write t)
  | hole p => "(" ++ p.write ++ ")"

/-- The pattern of a template as it is written. -/
def write (pieces : List (Piece String)) : String :=
  "\\A" ++ String.join (pieces.map writePiece) ++ "\\z"

def read? : Piece String → Option (Piece (List Nat))
  | text t => (Spelling.codes? t).map text
  | hole p => p.read?.map hole

/-- The pieces with the codes of their texts, if all of them can be read. -/
def readAll? (pieces : List (Piece String)) : Option (List (Piece (List Nat))) := pieces.mapM read?

/-- The texts in the holes of a template, under the first choice that uses up the whole text. -/
def regions? : List (Piece (List Nat)) → List Char → Option (List String)
  | [], s => if s.isEmpty then some [] else none
  | text codes :: rest, s =>
    if Spelling.begins codes s then regions? rest (s.drop codes.length) else none
  | hole p :: rest, s =>
    (p.lengths s).findSome? fun n =>
      (regions? rest (s.drop n)).map (String.ofList (s.take n) :: ·)

end Piece

end TypeCalculus.Assignable

import TypeCalculus.Ty.Union
import TypeCalculus.Ty.Validity

/-! Templates in normal form: literal holes become text, templates in holes are inlined, texts that meet
    are joined, and a hole that is a union or `boolean` gives one template for each of its members. -/

namespace TypeCalculus.Ty

/-- The segments read so far, last one first, with text put after them. -/
def pushText (done : List (Segment Ty)) (s : String) : List (Segment Ty) :=
  if s = "" then done
  else
    match done with
    | .text t :: rest => .text (t ++ s) :: rest
    | done => .text s :: done

/-- The segments read so far with those of an inlined template put after them. -/
def pushSegments (done : List (Segment Ty)) : List (Segment Ty) → List (Segment Ty)
  | [] => done
  | .text s :: rest => pushSegments (pushText done s) rest
  | .hole t :: rest => pushSegments (.hole t :: done) rest

/-- The type of a template whose segments are all in place. -/
def closeTemplate : List (Segment Ty) → Ty
  | [] => stringLit ""
  | [.text s] => stringLit s
  | [.hole (prim .string)] => string
  | segments => template segments

private theorem sizeOf_member {ms : List Ty} {m : Ty} (h : m ∈ ms) : sizeOf m < sizeOf ms :=
  List.sizeOf_lt_of_mem h

/-- The template of the segments read so far, last one first, followed by those still to be read. -/
def templateAfter (done : List (Segment Ty)) : List (Segment Ty) → Ty
  | [] => closeTemplate done.reverse
  | .text s :: rest => templateAfter (pushText done s) rest
  | .hole (literal base s) :: rest =>
    if base = .symbol then never else templateAfter (pushText done s) rest
  | .hole (prim .null) :: rest => templateAfter (pushText done "null") rest
  | .hole (prim .undefined) :: rest => templateAfter (pushText done "undefined") rest
  | .hole (prim .boolean) :: rest =>
    unionOf [templateAfter (pushText done "false") rest, templateAfter (pushText done "true") rest]
  | .hole (prim .symbol) :: _ => never
  | .hole (template inner) :: rest => templateAfter (pushSegments done inner) rest
  | .hole (union members) :: rest =>
    unionOf (members.attach.map fun ⟨m, _⟩ =>
      if m.isAbsent then templateAfter done rest else templateAfter done (.hole m :: rest))
  | .hole t :: rest =>
    if !t.isStringLike || t.isNever then never else templateAfter (.hole t :: done) rest
termination_by segments => sizeOf segments
decreasing_by
  all_goals simp_wf
  all_goals first
    | omega
    | (rename_i h _; have := sizeOf_member h; omega)

/-- The normal form of a template. -/
def templateOf (segments : List (Segment Ty)) : Ty := templateAfter [] segments

/-- A template whose holes are checked. -/
def newTemplate (segments : List (Segment Ty)) : Except TypeError Ty :=
  match badHole? segments with
  | some hole => .error (.malformed hole .notEmbeddable)
  | none => pure (templateOf segments)

/-- What stands before, in and after the only hole of a template. -/
structure SingleHole where
  before : String := ""
  hole : Ty := absent
  after : String := ""

/-- Splits a template at its hole; of several texts on one side the last counts. -/
def singleHoleFrom (found : Nat) (acc : SingleHole) : List (Segment Ty) → Option SingleHole
  | [] => if found = 1 then some acc else none
  | .hole t :: rest => singleHoleFrom (found + 1) { acc with hole := t } rest
  | .text s :: rest =>
    if found = 0 then singleHoleFrom found { acc with before := s } rest
    else singleHoleFrom found { acc with after := s } rest

def singleHole? (segments : List (Segment Ty)) : Option SingleHole := singleHoleFrom 0 {} segments

end TypeCalculus.Ty

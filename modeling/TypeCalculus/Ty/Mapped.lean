import TypeCalculus.Ty.Template
import TypeCalculus.Text.Case

/-! The string mappings, on text and on types. A mapping of a type that is not known yet stays as it
    is. -/

namespace TypeCalculus

/-- The mapping of a text. -/
def Mapping.apply (op : Mapping) (s : String) : String :=
  match op with
  | uppercase => Text.upper s
  | lowercase => Text.lower s
  | capitalize => Text.mapFirst Text.upper s
  | uncapitalize => Text.mapFirst Text.lower s
  | unknown => s

/-- The mapping changes the start of a text only. -/
def Mapping.isLeading : Mapping → Bool
  | capitalize | uncapitalize => true
  | _ => false

namespace Ty

mutual

/-- The mapping of a type: literals map their text, unions member by member, templates their text and
    their holes. -/
def mapped (op : Mapping) : Ty → Ty
  | literal base text => if base = .symbol then never else stringLit (op.apply text)
  | union members => unionOf (mappedAll op members)
  | never => never
  | any => any
  | template segments => templateOf (mappedSegments op true segments)
  | prim .null => stringLit (op.apply "null")
  | prim .undefined => stringLit (op.apply "undefined")
  | t => mapping op t
termination_by structural t => t

def mappedAll (op : Mapping) : List Ty → List Ty
  | [] => []
  | t :: ts => t.mapped op :: mappedAll op ts
termination_by structural ts => ts

/-- Maps the segments of a template, or only the leading one. -/
def mappedSegments (op : Mapping) (leading : Bool) : List (Segment Ty) → List (Segment Ty)
  | [] => []
  | .text s :: rest =>
    (if op.isLeading && !leading then .text s else .text (op.apply s)) :: mappedSegments op false rest
  | .hole t :: rest =>
    (if op.isLeading && !leading then .hole t else .hole (t.mapped op)) ::
      mappedSegments op false rest
termination_by structural segments => segments

end

end Ty

end TypeCalculus

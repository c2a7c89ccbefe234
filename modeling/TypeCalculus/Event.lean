import TypeCalculus.Ty.Fault
import TypeCalculus.Subst

/-! What a checker reports about its work: steps of a resolution, and checks that were cut off or could not
    be made. -/

namespace TypeCalculus

/-- One reported step. -/
inductive Event where
  /-- A comparison nested deeper than the limit and was cut off. -/
  | clipped (limit : Nat) (source target : Ty)
  /-- The pattern of a template holds a code with too few digits. -/
  | unreadable (template : Ty) (pattern : String)
  | conditional (check bound : Ty) (matched : Bool) (depth : Nat)
  | expanding (name : String) (bindings : Subst)
  | declared (name : String) (params : Nat)
  | inferred (param : String) (type : Ty)
  | bindingsFailed (bindings : Subst) (error : TypeError)
  | evaluationFailed (type : Ty) (error : TypeError)

/-- A value in a report. -/
inductive Field where
  | text (s : String)
  | number (n : Nat)
  | flag (b : Bool)

namespace Field

/-- Names the failure to write a value that lacks a part, in place of the value. -/
def unwritten (key : String) (cause : String) : String × Field :=
  (key ++ "Error", .text ("PANIC=" ++ cause))

/-- A part of the value is missing. -/
def missingPart : String := "runtime error: invalid memory address or nil pointer dereference"

def ofType (key : String) : Ty → String × Field
  | .absent => unwritten key "interface conversion: interface is nil, not fmt.Stringer"
  | t => if t.hasText then (key, .text t.print) else unwritten key missingPart

def ofSubst (key : String) (s : Subst) : String × Field :=
  if s.hasText then (key, .text s.print) else unwritten key missingPart

end Field

namespace Event

/-- The event asks for attention; all others only show how an answer came about. -/
def isWarning : Event → Bool
  | clipped .. | unreadable .. => true
  | _ => false

def message : Event → String
  | clipped .. => "subtype check exceeded depth limit"
  | unreadable .. => "invalid template pattern"
  | conditional .. => "conditional"
  | expanding .. => "expanding alias"
  | declared .. => "declared alias"
  | inferred .. => "inferred type argument"
  | bindingsFailed .. => "binding evaluation failed"
  | evaluationFailed .. => "evaluation failed"

def fields : Event → List (String × Field)
  | clipped limit source target =>
    [("limit", .number limit), Field.ofType "source" source, Field.ofType "target" target]
  | unreadable template pattern =>
    [Field.ofType "template" template,
     ("error", .text ("error parsing regexp: insufficient hexadecimal digits in `" ++ pattern ++ "`"))]
  | conditional check bound matched depth =>
    [Field.ofType "check" check, Field.ofType "extends" bound, ("matched", .flag matched),
     ("depth", .number depth)]
  | expanding name bindings => [("name", .text name), Field.ofSubst "bindings" bindings]
  | declared name params => [("name", .text name), ("params", .number params)]
  | inferred param type => [("param", .text param), Field.ofType "type" type]
  | bindingsFailed bindings error =>
    [Field.ofSubst "bindings" bindings, ("error", .text error.message)]
  | evaluationFailed type error => [Field.ofType "type" type, ("error", .text error.message)]

end Event

end TypeCalculus

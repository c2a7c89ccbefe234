import TypeCalculus.Ty.Basic
import TypeCalculus.Text.Quoted
import TypeCalculus.Number.Reading
import TypeCalculus.Number.Written

/-! The text of types. Texts order the members of unions and intersections, so two types with the same
    text stand next to each other there.

    A tree may lack a part. Where the part is an operand, an element or a member, the whole then has no
    text; where it is a parameter, a result, a branch, an argument or the value of an index signature, a
    mark stands in its place. -/

namespace TypeCalculus

/-- A key that is the text of a number. -/
def isNumericKey (key : String) : Bool :=
  (Number.read? key).any fun x => Number.write x = key

/-- A key made of letters, digits, `_` and `$` that does not start with a digit. -/
def isIdentifier (key : String) : Bool :=
  let plain := fun c : Char => c = '_' || c = '$' || c.isAlpha
  match key.toList with
  | [] => false
  | c :: rest => plain c && rest.all fun c => plain c || c.isDigit

/-- The text of a property key: quoted unless it is an identifier or a number. -/
def printKey (key : String) : String :=
  if isIdentifier key || isNumericKey key then key else Text.quote key

/-- Literal text of a template, with backslashes, backticks and hole openings escaped. -/
def escapeTemplate : List Char → List Char
  | [] => []
  | '\\' :: rest => '\\' :: '\\' :: escapeTemplate rest
  | '`' :: rest => '\\' :: '`' :: escapeTemplate rest
  | '$' :: '\x7b' :: rest => '\\' :: '$' :: '\x7b' :: escapeTemplate rest
  | c :: rest => c :: escapeTemplate rest

namespace Ty

/-- The type binds loosely, and has parentheses as an operand. -/
def bindsLoosely : Ty → Bool
  | union _ | intersection _ | function .. | conditional .. | keyOf _ => true
  | array _ readonly => readonly
  | _ => false

/-- The type has parentheses as a member of a union. -/
def looseInUnion : Ty → Bool
  | function .. | conditional .. => true
  | _ => false

/-- The type has parentheses as a member of an intersection. -/
def looseInIntersection : Ty → Bool
  | union _ | function .. | conditional .. => true
  | _ => false

def parenthesized (loose : Bool) (text : String) : String :=
  if loose then "(" ++ text ++ ")" else text

/-- The text of a literal. -/
def printLiteral (base : Prim) (text : String) : String :=
  match base with
  | .string => Text.quote text
  | .bigint => text ++ "n"
  | .symbol => "unique symbol " ++ text
  | _ => text

mutual

/-- The type has a text: no operand, element or member lacks one. -/
def hasText : Ty → Bool
  | absent => false
  | template segments => segmentsHaveText segments
  | object props _ => propsHaveText props
  | array elem _ => elem.hasText
  | tuple elems => allHaveText elems
  | union members => allHaveText members
  | intersection members => allHaveText members
  | conditional check bound _ _ _ => check.hasText && bound.hasText
  | reference _ args => allHaveText args
  | keyOf target => target.hasText
  | access target index => target.hasText && index.hasText
  | _ => true
termination_by structural t => t

def allHaveText : List Ty → Bool
  | [] => true
  | t :: ts => t.hasText && allHaveText ts
termination_by structural ts => ts

def segmentsHaveText : List (Segment Ty) → Bool
  | [] => true
  | .text _ :: rest => segmentsHaveText rest
  | .hole t :: rest => t.hasText && segmentsHaveText rest
termination_by structural segments => segments

def propsHaveText : List (Property Ty) → Bool
  | [] => true
  | ⟨_, type, _, _⟩ :: rest => type.hasText && propsHaveText rest
termination_by structural props => props

end

/-- What stands in place of the text of a type that has none. -/
def mark : Ty → String
  | absent => "%!s(<nil>)"
  | _ => "%!s(PANIC=String method: runtime error: invalid memory address or nil pointer dereference)"

mutual

/-- The text of a type. -/
def print : Ty → String
  | absent => mark absent
  | any => "any"
  | unknown => "unknown"
  | void => "void"
  | never => "never"
  | prim p => p.name
  | literal base text => printLiteral base text
  | template segments => "`" ++ printSegments segments ++ "`"
  | object [] none => "\x7b\x7d"
  | object props index =>
    "\x7b " ++ "; ".intercalate (printProps props ++ printIndex index) ++ " \x7d"
  | array elem readonly =>
    (if readonly then "readonly " else "") ++ parenthesized elem.bindsLoosely elem.print ++ "[]"
  | tuple elems => "[" ++ ", ".intercalate (printAll elems) ++ "]"
  | union members => " | ".intercalate (printMembers looseInUnion members)
  | intersection members => " & ".intercalate (printMembers looseInIntersection members)
  | param name _ _ => name
  | infer name absent => "infer " ++ name
  | infer name constraint =>
    "infer " ++ name ++ " extends " ++
      (if constraint.hasText then constraint.print else constraint.mark)
  | conditional check bound yes no _ =>
    parenthesized check.bindsLoosely check.print ++ " extends " ++
      parenthesized bound.bindsLoosely bound.print ++ " ? " ++
      (if yes.hasText then yes.print else yes.mark) ++ " : " ++
      (if no.hasText then no.print else no.mark)
  | reference name [] => name
  | reference name args => name ++ "<" ++ ", ".intercalate (printAll args) ++ ">"
  | function params result =>
    "(" ++ ", ".intercalate (printParams 0 params) ++ ") => " ++
      (if result.hasText then result.print else result.mark)
  | keyOf target => "keyof " ++ parenthesized target.bindsLoosely target.print
  | access target index =>
    parenthesized target.bindsLoosely target.print ++ "[" ++ index.print ++ "]"
  | mapping op arg => op.name ++ "<" ++ (if arg.hasText then arg.print else arg.mark) ++ ">"
termination_by structural t => t

def printAll : List Ty → List String
  | [] => []
  | t :: ts => t.print :: printAll ts
termination_by structural ts => ts

def printMembers (loose : Ty → Bool) : List Ty → List String
  | [] => []
  | t :: ts => parenthesized (loose t) t.print :: printMembers loose ts
termination_by structural ts => ts

/-- Parameters of a function, named by their position. -/
def printParams (i : Nat) : List Ty → List String
  | [] => []
  | t :: ts =>
    ("arg" ++ toString i ++ ": " ++ (if t.hasText then t.print else t.mark)) :: printParams (i + 1) ts
termination_by structural ts => ts

def printSegments : List (Segment Ty) → String
  | [] => ""
  | .text s :: rest => String.ofList (escapeTemplate s.toList) ++ printSegments rest
  | .hole t :: rest => "$\x7b" ++ t.print ++ "\x7d" ++ printSegments rest
termination_by structural segments => segments

def printProps : List (Property Ty) → List String
  | [] => []
  | ⟨key, type, optional, readonly⟩ :: rest =>
    ((if readonly then "readonly " else "") ++ printKey key ++ (if optional then "?" else "") ++ ": " ++
      type.print) :: printProps rest
termination_by structural props => props

def printIndex : Option (IndexSignature Ty) → List String
  | none => []
  | some ⟨key, value⟩ =>
    ["[key: " ++ key.name ++ "]: " ++ (if value.hasText then value.print else value.mark)]
termination_by structural index => index

end

/-- The text of a type in a sentence, where a mark stands for a type without one. -/
def shown (t : Ty) : String := if t.hasText then t.print else t.mark

end Ty

end TypeCalculus

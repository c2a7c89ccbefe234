import TypeCalculus.Assignable.Piece
import TypeCalculus.Assignable.Progress
import TypeCalculus.Ty.Literal
import TypeCalculus.Ty.Mapped
import TypeCalculus.Ty.Shape

/-! When one type is assignable to another. One step of the comparison, `check`, looks at the outermost
    variants of both types and leaves comparisons of their parts to a given relation; `relate` ties the
    steps together up to a depth limit. A comparison that is cut off answers no. -/

namespace TypeCalculus.Assignable

/-- A comparison of two types. -/
abbrev Rel := Ty → Ty → Relating Bool

/-- What an unresolved type is known to be assignable to: the constraint of a parameter, either branch
    of a conditional, or the types of property keys. -/
def upperBound? : Ty → Option Ty
  | .param _ constraint _ => constraint.present?
  | .conditional _ _ yes no _ => some (Ty.unionOf [yes, no])
  | .keyOf _ => some (Ty.unionOf [.string, .number, .symbol])
  | _ => none

/-- The properties of a tuple: its positions from `i` on and its length. -/
def tupleProps (i : Nat) : List Ty → List (Property Ty)
  | [] => [⟨lengthKey, Ty.natLit i, false, false⟩]
  | t :: ts => ⟨toString i, t, false, false⟩ :: tupleProps (i + 1) ts

/-- The object shape that a type presents to an object target. Primitive types have none. -/
def apparentShape? : Ty → Option Shape
  | .object props index => some ⟨props, index⟩
  | .array elem readonly =>
    some (Shape.ofProps [⟨lengthKey, .number, false, readonly⟩] (some ⟨.number, elem⟩))
  | .tuple elems => some (Shape.ofProps (tupleProps 0 elems) (some ⟨.number, Ty.unionOf elems⟩))
  | .function .. | .reference .. => some {}
  | _ => none

/-- Reads a text as a literal of what a hole expects; nothing where it expects a string or the text does
    not fit. -/
def literalOfPrim? (region : String) (base : Prim) : Option Ty :=
  match base with
  | .number => if Text.trim region = region then (Number.read? region).map Ty.numberLit else none
  | .bigint => (readInt? region).map Ty.bigintLit
  | .boolean =>
    if region = "true" then some (Ty.boolLit true)
    else if region = "false" then some (Ty.boolLit false)
    else none
  | .null => if region = "null" then some .null else none
  | .undefined => if region = "undefined" then some .undefined else none
  | .string | .symbol => none

mutual

def literalFor? (region : String) : Ty → Option Ty
  | .prim base => literalOfPrim? region base
  | .literal base _ => literalOfPrim? region base
  | .union members => literalForAny? region members
  | _ => none
termination_by structural t => t

/-- The literal for the first member that gives one. -/
def literalForAny? (region : String) : List Ty → Option Ty
  | [] => none
  | t :: ts => (literalFor? region t).orElse fun _ => literalForAny? region ts
termination_by structural ts => ts

end

/-- The literal that a text stands for in a hole. -/
def captured (region : String) (hole : Ty) : Ty :=
  (literalFor? region hole).getD (Ty.stringLit region)

mutual

/-- The text in a hole belongs to the type of the hole. -/
def matchHole (rel : Rel) (region : String) : Ty → Relating Bool
  | .infer name .absent => do
    capture name (Ty.stringLit region)
    return true
  | .infer name constraint => do
    let t := captured region constraint
    if ← rel t constraint then
      capture name t
      return true
    else
      return false
  | .template segments => do
    let pieces := Piece.ofSegments segments
    match Piece.readAll? pieces with
    | none =>
      reportUnreadable (.template segments) (Piece.write pieces)
      return false
    | some pieces =>
      match Piece.regions? pieces region.toList with
      | some regions => matchSegments rel regions segments
      | none => return false
  | .union members => matchMember rel region members
  | t => rel (captured region t) t
termination_by structural t => t

/-- The text belongs to a member of a union hole. -/
def matchMember (rel : Rel) (region : String) : List Ty → Relating Bool
  | [] => return false
  | t :: ts => do
    if ← attempt (matchHole rel region t) then return true else matchMember rel region ts
termination_by structural ts => ts

/-- Each region belongs to the hole it was found for. -/
def matchSegments (rel : Rel) (regions : List String) : List (Segment Ty) → Relating Bool
  | [] => return true
  | .text _ :: rest => matchSegments rel regions rest
  | .hole t :: rest =>
    match regions with
    | [] => return false
    | region :: regions => do
      if ← matchHole rel region t then matchSegments rel regions rest else return false
termination_by structural segments => segments

end

/-- The text inhabits the template. -/
def matchTemplate (rel : Rel) (s : String) (segments : List (Segment Ty)) : Relating Bool :=
  matchHole rel s (.template segments)

/-- Two templates of the same layout, compared hole by hole. -/
def aligned (rel : Rel) : List (Segment Ty) → List (Segment Ty) → Relating Bool
  | [], [] => return true
  | .text s :: xs, .text t :: ys => if s = t then aligned rel xs ys else return false
  | .hole x :: xs, .hole y :: ys => do
    if ← rel x y then aligned rel xs ys else return false
  | _, _ => return false

/-- The segments without a text at their start. -/
def dropStart? (before : String) : List (Segment Ty) → Option (List (Segment Ty))
  | .text s :: rest =>
    if before.toList.isPrefixOf s.toList then
      some (.text (String.ofList (s.toList.drop before.length)) :: rest)
    else none
  | _ => none

/-- The segments without a text at their end. -/
def dropEnd? (after : String) (segments : List (Segment Ty)) : Option (List (Segment Ty)) :=
  match segments.reverse with
  | .text s :: rest =>
    if after.toList.isSuffixOf s.toList then
      some ((.text (String.ofList (s.toList.take (s.length - after.length))) :: rest).reverse)
    else none
  | _ => none

/-- The source without the texts around the only hole of the target. -/
def peeled? (source : List (Segment Ty)) (target : Ty.SingleHole) : Option (List (Segment Ty)) := do
  let source ← if target.before = "" then some source else dropStart? target.before source
  if target.after = "" then some source else dropEnd? target.after source

/-- Templates are compared hole by hole if they have as many segments; otherwise a target with a single
    hole accepts a source that starts and ends with its texts and whose rest fits the hole. -/
def templateFits (rel : Rel) (source target : List (Segment Ty)) : Relating Bool := do
  if source.length = target.length then
    if ← attempt (aligned rel source target) then return true
  match Ty.singleHole? target with
  | none => return false
  | some single =>
    match peeled? source single with
    | none => return false
    | some rest => rel (Ty.templateOf rest) single.hole

/-- A property of a target is met by a source. -/
def propFits (rel : Rel) (source : List (Property Ty)) (want : Property Ty) : Relating Bool :=
  match Shape.find? source want.key with
  | none => return want.optional
  | some got =>
    if got.optional && !want.optional then return false
    else if got.readonly && !want.readonly then return false
    else rel got.type want.type

/-- A shape meets another: every property it asks for, and its index signature. -/
def shapeFits (rel : Rel) (source target : Shape) : Relating Bool := do
  if !(← every (propFits rel source.props) target.props) then return false
  match target.index with
  | none => return true
  | some want =>
    let covered := source.props.filter fun p => want.covers p.key
    if !(← every (fun p => rel p.type want.value) covered) then return false
    match source.index with
    | none => return true
    | some got =>
      if got.key = want.key || want.key = .string then rel got.value want.value else return true

/-- Comparison of types that are neither unions, intersections, placeholders nor open. -/
def checkStructure (rel : Rel) (a b : Ty) : Relating Bool :=
  match b with
  | .void =>
    match a with
    | .prim .undefined => return true
    | _ => return false
  | .prim q =>
    match a with
    | .literal base _ => return base = q
    | .template _ | .mapping .. => return q = .string
    | _ => return false
  | .template target =>
    match a with
    | .literal .string text => matchTemplate rel text target
    | .template source => templateFits rel source target
    | _ => return false
  | .mapping op arg =>
    match a with
    | .literal .string text => if op.apply text = text then rel a arg else return false
    | _ => return false
  | .object props index =>
    match apparentShape? a with
    | some source => shapeFits rel source ⟨props, index⟩
    | none => return false
  | .array y mutableOff =>
    match a with
    | .array x readonly => if readonly && !mutableOff then return false else rel x y
    | .tuple elems => rel (Ty.unionOf elems) y
    | _ => return false
  | .tuple ys =>
    match a with
    | .tuple xs =>
      if xs.length = ys.length then every (fun (x, y) => rel x y) (xs.zip ys) else return false
    | _ => return false
  | .reference m ys =>
    match a with
    | .reference n xs =>
      if n = m && xs.length = ys.length then every (fun (x, y) => rel x y) (xs.zip ys)
      else return false
    | _ => return false
  | .function ys y =>
    match a with
    | .function xs x => do
      if xs.length > ys.length then return false
      if ← every (fun (x, y) => rel y x) (xs.zip ys) then rel x y else return false
    | _ => return false
  | _ => return false

/-- Comparison with a placeholder: it captures the other side if its constraint allows. -/
def checkInfer (rel : Rel) (name : String) (constraint other : Ty) : Relating Bool := do
  if !constraint.isAbsent then
    if !(← rel other constraint) then return false
  capture name other
  return true

/-- Comparison of an open type by its upper bound. -/
def checkBound (rel : Rel) (a b : Ty) : Relating Bool :=
  match upperBound? a with
  | some bound => rel bound b
  | none => return false

/-- Comparison where the source is no union and the target no union or intersection. -/
def checkSingle (rel : Rel) (a b : Ty) : Relating Bool :=
  match b with
  | .infer name constraint => checkInfer rel name constraint a
  | _ =>
    match a with
    | .infer name constraint => checkInfer rel name constraint b
    | .any | .unknown | .void | .never => return false
    | .param .. | .conditional .. | .keyOf _ => checkBound rel a b
    | _ => checkStructure rel a b

/-- Comparison with a union: some member accepts the source, or its upper bound fits. -/
def checkUnion (rel : Rel) (a b : Ty) (members : List Ty) : Relating Bool := do
  if (a matches .prim .boolean) && Ty.hasMember members (Ty.boolLit true) &&
      Ty.hasMember members (Ty.boolLit false) then
    return true
  if ← first (fun m => rel a m) members then return true
  checkBound rel a b

/-- One step of the comparison. -/
def check (o : Options) (rel : Rel) (a b : Ty) : Relating Bool :=
  if a.isNever || b.isAny || b.isUnknown || (a.isAny && o.anyFits) || a.identical b then return true
  else
    match a, b with
    | .union members, _ => every (fun m => rel m b) members
    | _, .union members => checkUnion rel a b members
    | .intersection members, _ => first (fun m => rel m b) members
    | _, .intersection members => every (fun m => rel a m) members
    | _, _ => checkSingle rel a b

/-- Whether `a` is assignable to `b`, where comparisons may nest `depth` levels deeper. -/
def relate (o : Options) : (depth : Nat) → Rel
  | 0, a, b => do
    if a.isAbsent || b.isAbsent then return false
    clip o.limit a b
    return false
  | depth + 1, a, b =>
    if a.isAbsent || b.isAbsent then return false else check o (relate o depth) a b

/-- A comparison from its start. -/
def run (o : Options) (a b : Ty) : Bool × Progress := relate o o.limit a b {}

/-- The depth limit where none is set. -/
def defaultLimit : Nat := 1000

/-- Whether `a` is assignable to `b` under the usual limit. -/
def assignable (a b : Ty) : Bool := (run { limit := defaultLimit } a b).1

end TypeCalculus.Assignable

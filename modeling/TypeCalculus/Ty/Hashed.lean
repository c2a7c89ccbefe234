import TypeCalculus.Ty.Basic
import TypeCalculus.Hash64

/-! Structural hashes of types. A node hashes the code of its variant, its own data and the hashes of its
    children, so identical types have equal hashes. -/

namespace TypeCalculus.Ty

/-- The hash of one of the four types without parts. -/
def sentinelHash (k : Kind) : UInt64 :=
  k.code.toUInt64 * 1099511628211 + 16777619

/-- A stream that opens with the code of a variant. -/
def opening (k : Kind) : Bytes := Bytes.nat {} k.code

mutual

/-- The hash of a type; a missing type hashes to zero. -/
def hash : Ty → UInt64
  | absent => 0
  | any => sentinelHash .any
  | unknown => sentinelHash .unknown
  | void => sentinelHash .void
  | never => sentinelHash .never
  | prim p => ((opening .primitive).nat p.code).hash
  | literal base text => (((opening .literal).nat base.code).text text).hash
  | template segments =>
    (streamSegments ((opening .template).nat segments.length) segments).hash
  | object props index =>
    (streamIndex (streamProps ((opening .object).nat props.length) props) index).hash
  | array elem readonly => (((opening .array).word elem.hash).bool readonly).hash
  | tuple elems => (streamAll ((opening .tuple).nat elems.length) elems).hash
  | union members => (streamAll ((opening .union).nat members.length) members).hash
  | intersection members => (streamAll ((opening .intersection).nat members.length) members).hash
  | param name _ _ => ((opening .param).text name).hash
  | infer name constraint => (((opening .infer).text name).word constraint.hash).hash
  | conditional check bound yes no distribute =>
    (((((((opening .conditional).word check.hash).word bound.hash).word yes.hash).word no.hash).bool
      distribute)).hash
  | reference name args => (streamAll (((opening .reference).text name).nat args.length) args).hash
  | function params result =>
    ((streamAll ((opening .function).nat params.length) params).word result.hash).hash
  | keyOf target => ((opening .keyOf).word target.hash).hash
  | access target index => (((opening .access).word target.hash).word index.hash).hash
  | mapping op arg => (((opening .mapping).nat op.code).word arg.hash).hash
termination_by structural t => t

def streamAll (s : Bytes) : List Ty → Bytes
  | [] => s
  | t :: ts => streamAll (s.word t.hash) ts
termination_by structural ts => ts

def streamSegments (s : Bytes) : List (Segment Ty) → Bytes
  | [] => s
  | .text text :: rest => streamSegments ((s.text text).word 0) rest
  | .hole t :: rest => streamSegments ((s.text "").word t.hash) rest
termination_by structural segments => segments

def streamProps (s : Bytes) : List (Property Ty) → Bytes
  | [] => s
  | ⟨key, type, optional, readonly⟩ :: rest =>
    streamProps ((((s.text key).word type.hash).bool optional).bool readonly) rest
termination_by structural props => props

def streamIndex (s : Bytes) : Option (IndexSignature Ty) → Bytes
  | none => s.int (-1)
  | some ⟨key, value⟩ => (s.nat key.code).word value.hash
termination_by structural index => index

end

end TypeCalculus.Ty

import TypeCalculus.Ty.Printed

/-! What can be wrong with a type, an argument or an evaluation, and how it is told. -/

namespace TypeCalculus

/-- Why a type is malformed. -/
inductive Fault where
  | invalidNumber (text : String)
  | invalidBoolean (text : String)
  | invalidBigint (text : String)
  | unnamedSymbol
  | noLiteralForm (base : Prim)
  | operandMissing
  | missingType
  | misplacedInfer
  | notEmbeddable
  | holeNotEmbeddable (hole : Ty)
  | indexKey (key : Prim)
  | indexUntyped
  | propertyUntyped (key : String)
  | propertyRepeated (key : String)
  | propertyIncompatible (key : String) (type value : Ty)
  | unnamedParam
  | repeatedParam (name : String)
  | unnamedDeclaration
  | unknownDeclaration (name : String)
  | tooManyArguments (most given : Nat)
  | notAnIndex (index target : Ty)
  | notConditional

namespace Fault

/-- The reason in words. -/
def message : Fault → String
  | invalidNumber text => "invalid number literal " ++ Text.quote text
  | invalidBoolean text => "invalid boolean literal " ++ Text.quote text
  | invalidBigint text => "invalid bigint literal " ++ Text.quote text
  | unnamedSymbol => "unique symbol needs a name"
  | noLiteralForm base => base.name ++ " has no literal form"
  | operandMissing => "conditional operand is nil"
  | missingType => "missing type"
  | misplacedInfer => "infer is only allowed in the extends clause of a conditional type"
  | notEmbeddable => "type cannot be embedded in a template literal"
  | holeNotEmbeddable hole => hole.shown ++ " cannot be embedded in a template literal"
  | indexKey key => "index signature key must be string or number, got " ++ key.name
  | indexUntyped => "index signature has no value type"
  | propertyUntyped key => "property " ++ Text.quote key ++ " has no type"
  | propertyRepeated key => "duplicate property " ++ Text.quote key
  | propertyIncompatible key type value =>
    "property " ++ Text.quote key ++ " of type " ++ type.shown ++
      " is not compatible with index signature " ++ value.shown
  | unnamedParam => "type parameter without a name"
  | repeatedParam name => "duplicate type parameter " ++ name
  | unnamedDeclaration => "declaration without a name"
  | unknownDeclaration name => "unknown declaration " ++ name
  | tooManyArguments most given =>
    "expected at most " ++ toString most ++ " type arguments, got " ++ toString given
  | notAnIndex index target => index.shown ++ " cannot be used to index " ++ target.shown
  | notConditional => "not a conditional type"

end Fault

/-- The kinds of failure that callers tell apart. -/
inductive Sentinel where
  | malformedType | constraintViolation | unresolvableRecursion | recursionLimitExceeded
  deriving DecidableEq, Repr

/-- Why an operation on types failed. -/
inductive TypeError where
  /-- A tree breaks a structural rule; the subject may be missing. -/
  | malformed (subject : Ty) (fault : Fault)
  /-- An argument does not satisfy the constraint of its parameter. -/
  | violation (param : String) (arg constraint : Ty)
  /-- Resolving a conditional came back to the same conditional. -/
  | cycle (check bound : Ty)
  /-- Evaluation nested deeper than the limit. -/
  | tooDeep (limit : Nat) (type : Ty)

namespace TypeError

def message : TypeError → String
  | malformed .absent fault => "malformed type: " ++ fault.message
  | malformed subject fault => "malformed type " ++ subject.shown ++ ": " ++ fault.message
  | violation param arg constraint =>
    "type argument " ++ arg.shown ++ " for " ++ param ++ " does not satisfy constraint " ++
      constraint.shown
  | cycle check bound =>
    "unresolvable recursion: " ++ check.shown ++ " extends " ++ bound.shown ++
      " is already being resolved"
  | tooDeep limit type =>
    "recursion limit " ++ toString limit ++ " exceeded while evaluating " ++ type.shown

/-- The kind of the failure. -/
def sentinel : TypeError → Sentinel
  | malformed .. => .malformedType
  | violation .. => .constraintViolation
  | cycle .. => .unresolvableRecursion
  | tooDeep .. => .recursionLimitExceeded

/-- The type cannot be resolved in bounded steps. -/
def isUnresolvable : TypeError → Bool
  | cycle .. | tooDeep .. => true
  | _ => false

end TypeError

/-- Fails for a malformed tree without naming it. -/
def malformed {α : Type} (fault : Fault) : Except TypeError α := .error (.malformed .absent fault)

end TypeCalculus

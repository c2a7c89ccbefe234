import TypeCalculus.Document.Basic
import TypeCalculus.Document.Build
import TypeCalculus.Document.Entry

/-! Documents from text. Declarations and queries are taken in order, and the first fault ends the
    reading. -/

namespace TypeCalculus.Document

open Yaml (Graph Node)

/-- What is wrong with a declaration. -/
inductive DeclarationFault where
  | type (error : BuildError)
  | untyped

def DeclarationFault.message : DeclarationFault → String
  | type error => error.message
  | untyped => "type is required"

/-- What is wrong with a query. -/
inductive QueryFault where
  | type (error : BuildError)
  | binding (name : String) (error : BuildError)
  | operandMissing
  | source (error : BuildError)
  | target (error : BuildError)
  | unnamedDeclaration
  | argument (index : Nat) (error : BuildError)
  | notOneQuestion
  | strayBindings

def QueryFault.message : QueryFault → String
  | type error => error.message
  | binding name error => "binding " ++ name ++ ": " ++ error.message
  | operandMissing => "subtype needs source and target"
  | source error => "source: " ++ error.message
  | target error => "target: " ++ error.message
  | unnamedDeclaration => "instantiate needs decl"
  | argument index error => "args[" ++ toString index ++ "]: " ++ error.message
  | notOneQuestion => "exactly one of eval, subtype or instantiate is required"
  | strayBindings => "bindings are only valid with eval"

/-- What is wrong with a document. -/
inductive Fault where
  | text (failure : Yaml.Failure)
  | unnamedDeclaration (index : Nat)
  | repeatedDeclaration (index : Nat) (name : String)
  | declaration (name : String) (fault : DeclarationFault)
  | unnamedQuery (index : Nat)
  | repeatedQuery (index : Nat) (name : String)
  | query (line : Nat) (name : String) (fault : QueryFault)

/-- What is wrong, with the path of the document in its place. -/
def Fault.message (path : String) : Fault → String
  | text failure => "parsing " ++ path ++ ": " ++ failure.message
  | unnamedDeclaration index =>
    path ++ ": declarations[" ++ toString index ++ "]: name is required"
  | repeatedDeclaration index name =>
    path ++ ": declarations[" ++ toString index ++ "]: " ++ name ++ " is declared twice"
  | declaration name fault => path ++ ": declaration " ++ name ++ ": " ++ fault.message
  | unnamedQuery index => path ++ ": queries[" ++ toString index ++ "]: name is required"
  | repeatedQuery index name =>
    path ++ ": queries[" ++ toString index ++ "]: query " ++ name ++ " is listed twice"
  | query line name fault =>
    path ++ ":" ++ toString line ++ ": query " ++ name ++ ": " ++ fault.message

/-- The fault is that a node is not a type. -/
def Fault.isMalformed : Fault → Bool
  | declaration _ (.type _) => true
  | query _ _ fault =>
    match fault with
    | .type _ | .binding .. | .source _ | .target _ | .argument .. => true
    | _ => false
  | _ => false

section Entries

/-! Types are built from the nodes of the entries. -/
variable (typeOf : Node → Except BuildError Ty)

/-- The type of a node that may be missing. -/
def optionalOf (n : Option Node) : Except BuildError Ty :=
  match n with
  | some n => typeOf n
  | none => pure .absent

def paramOf (p : ParamEntry) : Except BuildError ParamDecl :=
  return ⟨p.name, ← optionalOf typeOf p.constraint, ← optionalOf typeOf p.default⟩

def declarationOf (d : DeclarationEntry) : Except DeclarationFault Declaration := do
  let params ← (d.params.mapM (paramOf typeOf)).mapError .type
  match d.type with
  | none => throw .untyped
  | some n => return ⟨d.name, params, ← (typeOf n).mapError .type⟩

/-- The bound types, in ascending order of their names. -/
def bindingsOf (entries : List (String × Node)) : Except QueryFault Subst := do
  let sorted := entries.mergeSort fun a b => decide (a.1 ≤ b.1)
  let bound ← sorted.mapM fun (name, n) =>
    return (name, ← (typeOf n).mapError (.binding name))
  return Subst.ofList bound

def evaluationOf (q : QueryEntry) : Except QueryFault (List Question) :=
  match q.eval with
  | none => return []
  | some n =>
    return [.evaluate (← (typeOf n).mapError .type) (← bindingsOf typeOf (q.bindings.getD []))]

def comparisonOf (q : QueryEntry) : Except QueryFault (List Question) :=
  match q.subtype with
  | none => return []
  | some s => do
    match s.source, s.target with
    | some source, some target =>
      return [.subtype (← (typeOf source).mapError .source) (← (typeOf target).mapError .target)
        s.capture]
    | _, _ => throw .operandMissing

/-- Builds arguments, counted from an index. -/
def argumentsOf (index : Nat) : List Node → Except QueryFault (List Ty)
  | [] => return []
  | n :: ns => return (← (typeOf n).mapError (.argument index)) :: (← argumentsOf (index + 1) ns)

def instantiationOf (q : QueryEntry) : Except QueryFault (List Question) :=
  match q.instantiate with
  | none => return []
  | some i => do
    if i.decl = "" then throw .unnamedDeclaration
    return [.instantiate i.decl (← argumentsOf typeOf 0 i.args)]

/-- The one question of a query. -/
def questionOf (q : QueryEntry) : Except QueryFault Question := do
  match (← evaluationOf typeOf q) ++ (← comparisonOf typeOf q) ++ (← instantiationOf typeOf q) with
  | [question] =>
    if q.bindings.isSome && q.eval.isNone then throw .strayBindings
    return question
  | _ => throw .notOneQuestion

/-- Takes declarations, where `seen` holds the names so far. -/
def declarationsOf (index : Nat) (seen : List String) :
    List DeclarationEntry → Except Fault (List Declaration)
  | [] => return []
  | d :: ds => do
    if d.name = "" then throw (.unnamedDeclaration index)
    if seen.contains d.name then throw (.repeatedDeclaration index d.name)
    let declaration ← (declarationOf typeOf d).mapError (.declaration d.name)
    return declaration :: (← declarationsOf (index + 1) (d.name :: seen) ds)

/-- Takes queries, where `seen` holds the names so far. -/
def queriesOf (index : Nat) (seen : List String) : List QueryEntry → Except Fault (List Query)
  | [] => return []
  | q :: qs => do
    if q.name = "" then throw (.unnamedQuery index)
    if seen.contains q.name then throw (.repeatedQuery index q.name)
    let question ← (questionOf typeOf q).mapError (.query q.line q.name)
    return ⟨q.name, q.line, question⟩ :: (← queriesOf (index + 1) (q.name :: seen) qs)

end Entries

/-- Reads a document, where types are built in a given way. An empty text is an empty document. -/
def parseBy (typeOf : Graph → Node → Except BuildError Ty) (path text : String) : Except Fault Document := do
  let (g, entries) ← (Yaml.decode text readEntries).mapError .text
  let entries := entries.getD {}
  let declarations ← declarationsOf (typeOf g) 0 [] entries.declarations
  let queries ← queriesOf (typeOf g) 0 [] entries.queries
  return ⟨path, declarations, queries⟩

/-- Reads a document. -/
def parse (path text : String) : Except Fault Document := parseBy build path text

end TypeCalculus.Document

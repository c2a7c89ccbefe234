import TypeCalculus.Subst
import TypeCalculus.Ty.Validity

/-! Generic declarations: a name, type parameters and a body. -/

namespace TypeCalculus

/-- A type parameter of a declaration; its constraint and default may be missing. -/
structure ParamDecl where
  name : String
  constraint : Ty := .absent
  default : Ty := .absent

/-- The type that refers to a declared parameter. -/
def ParamDecl.ref (p : ParamDecl) : Ty := .param p.name p.constraint p.default

/-- A named generic alias. -/
structure Declaration where
  name : String := ""
  params : List ParamDecl := []
  body : Ty := .absent

namespace Declaration

/-- A fingerprint of the name, the parameters and the body. -/
def hash (d : Declaration) : UInt64 :=
  let start := (Bytes.text {} d.name).nat d.params.length
  let params := d.params.foldl
    (fun b p => ((b.text p.name).word p.constraint.hash).word p.default.hash) start
  (params.word d.body.hash).hash

end Declaration

/-- Checks a type that may be missing. -/
def Ty.validateOptional (t : Ty) : Except TypeError Unit :=
  if t.isAbsent then pure () else t.validate

/-- Checks the parameters of a declaration: each has a name of its own, and what is written beside it is
    valid. -/
def checkParams (seen : List String) : List ParamDecl → Except TypeError Unit
  | [] => pure ()
  | p :: ps => do
    if p.name = "" then malformed .unnamedParam
    if seen.contains p.name then malformed (.repeatedParam p.name)
    p.constraint.validateOptional
    p.default.validateOptional
    checkParams (p.name :: seen) ps

/-- Checks a declaration. -/
def Declaration.check (d : Declaration) : Except TypeError Unit := do
  if d.name = "" then malformed .unnamedDeclaration
  checkParams [] d.params
  d.body.validate

/-- Declarations in ascending order of their names. -/
structure Declarations where
  entries : List Declaration := []

namespace Declarations

def find? (ds : Declarations) (name : String) : Option Declaration :=
  ds.entries.find? (·.name = name)

def declares (ds : Declarations) (name : String) : Bool := (ds.find? name).isSome

def insertEntry (d : Declaration) : List Declaration → List Declaration
  | [] => [d]
  | e :: es =>
    if d.name < e.name then d :: e :: es
    else if d.name = e.name then d :: es
    else e :: insertEntry d es

/-- Adds a declaration; it replaces one of the same name. -/
def insert (ds : Declarations) (d : Declaration) : Declarations := ⟨insertEntry d ds.entries⟩

/-- A fingerprint of all declarations. -/
def hash (ds : Declarations) : UInt64 :=
  (ds.entries.foldl (fun b d => b.word d.hash) (Bytes.nat {} ds.entries.length)).hash

end Declarations

end TypeCalculus

import TypeCalculus.Document.Basic
import TypeCalculus.Settings.Basic

/-! Fingerprints of documents: texts that differ where results may differ. -/

namespace TypeCalculus

/-- Adds the hash of a type as a line; a missing type is an empty line. -/
def Bytes.typeLine (b : Bytes) (t : Ty) : Bytes :=
  b.line (if t.isAbsent then "" else hexText t.hash)

namespace Document

def addParam (b : Bytes) (p : ParamDecl) : Bytes :=
  ((b.line p.name).typeLine p.constraint).typeLine p.default

def addDeclaration (b : Bytes) (d : Declaration) : Bytes :=
  (d.params.foldl addParam ((b.line "decl").line d.name)).typeLine d.body

/-- Adds the parts that every question has, where those of another kind are empty. -/
def addParts (b : Bytes) (q : Query) (decl : String) (capture : Bool) (type source target : Ty) :
    Bytes :=
  let b := ((b.line "query").line q.name).line q.question.kind
  let b := (b.line decl).line (if capture then "true" else "false")
  ((b.typeLine type).typeLine source).typeLine target

def addQuery (b : Bytes) (q : Query) : Bytes :=
  match q.question with
  | .evaluate type bindings =>
    let b := addParts b q "" false type .absent .absent
    if bindings.isEmpty then b else b.line (hexText bindings.hash)
  | .subtype source target capture => addParts b q "" capture .absent source target
  | .instantiate name args =>
    args.foldl Bytes.typeLine (addParts b q name false .absent .absent .absent)
  | .other _ => addParts b q "" false .absent .absent .absent

/-- A fingerprint of the declarations, the queries and the limits they are answered under. -/
def fingerprint (doc : Document) (s : Settings) : String :=
  let limits := (Bytes.line {} (toString s.maxDepth)).line s.templateTimeout.print
  hexText (doc.queries.foldl addQuery (doc.declarations.foldl addDeclaration limits)).hash

/-- What results are stored by. Names declared before the document count as well. -/
def resultKey (doc : Document) (s : Settings) (declared : Declarations) : String :=
  doc.fingerprint s ++ "." ++ hexText declared.hash

end Document

end TypeCalculus

import TypeCalculus.Document.Basic
import TypeCalculus.Ty.Fault

/-! Results of queries and the listing they are shown in. -/

namespace TypeCalculus

/-- Why a query has no answer. -/
inductive QueryError where
  | type (error : TypeError)
  | unknownKind (kind : String)
  /-- What an earlier run told. -/
  | stored (text : String)

def QueryError.message : QueryError → String
  | type error => error.message
  | unknownKind kind => "unknown query kind " ++ Text.quote kind
  | stored text => text

/-- The result of a query. -/
structure Result where
  name : String
  kind : String
  output : String := ""
  /-- The type that an evaluation came to. -/
  type : Ty := .absent
  error : Option QueryError := none
  /-- The result comes from the store. -/
  cached : Bool := false

namespace Result

/-- The line of a result, where `mark` dresses an error. -/
def line (mark : String → String) (r : Result) : String :=
  r.name ++ ": " ++
    (match r.error with
     | some e => mark ("error: " ++ e.message)
     | none => r.output) ++ "\n"

/-- The results one by line. -/
def listing (results : List Result) : String := String.join (results.map (line id))

/-- A text in red. -/
def red (s : String) : String := "\x1b[31m" ++ s ++ "\x1b[0m"

/-- The results one by line, with errors in red. -/
def colouredListing (results : List Result) : String := String.join (results.map (line red))

/-- Some query has no answer. -/
def someFailed (results : List Result) : Bool := results.any (·.error.isSome)

end Result

end TypeCalculus

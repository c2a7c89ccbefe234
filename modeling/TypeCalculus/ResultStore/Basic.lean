/-! Stored results of queries, by the fingerprint of a document and the name of a query. -/

namespace TypeCalculus

/-- A stored result; the error is empty where the query succeeded. -/
structure Record where
  document : String
  query : String
  kind : String := ""
  output : String := ""
  error : String := ""
  run : String := ""
  created : Int := 0
  deriving DecidableEq, Repr

/-- Results, at most one for each document and query. -/
structure ResultStore where
  records : List Record := []

namespace ResultStore

def empty : ResultStore := {}

/-- The record is the one of a document and a query. -/
def isOf (document query : String) (r : Record) : Bool := r.document == document && r.query == query

def lookup (s : ResultStore) (document query : String) : Option Record :=
  s.records.find? (isOf document query)

/-- Stores a record; it replaces one of the same document and query. -/
def save (s : ResultStore) (r : Record) : ResultStore :=
  ⟨s.records.filter (fun q => !isOf r.document r.query q) ++ [r]⟩

/-- Ascending by query, and by document where queries are equal. -/
def precedes (a b : Record) : Bool :=
  a.query < b.query || (a.query == b.query && decide (a.document ≤ b.document))

/-- What one run stored, in the order of queries. -/
def ofRun (s : ResultStore) (run : String) : List Record :=
  (s.records.filter (·.run == run)).mergeSort precedes

/-- Drops the results of a document and counts them. -/
def forget (s : ResultStore) (document : String) : Nat × ResultStore :=
  ((s.records.filter (·.document == document)).length,
   ⟨s.records.filter fun r => !(r.document == document)⟩)

end ResultStore

end TypeCalculus

import TypeCalculus.Runner.Basic

/-! What a runner counts. Only what has been counted at all is listed. -/

namespace TypeCalculus

/-- A count with the labels that tell it apart from others of its name. -/
structure Metric where
  name : String
  labels : List (String × String)
  value : Nat

namespace Runner

/-- The counts of lookups by what they found. -/
def lookupMetrics (name : String) (labels : List (String × String)) (l : Lookups) : List Metric :=
  [⟨name, labels ++ [("result", "hit")], l.hits⟩, ⟨name, labels ++ [("result", "miss")], l.misses⟩]

/-- The counts of a runner. -/
def metrics (r : Runner) : List Metric :=
  let queries := r.tally.map fun ((kind, ok), n) =>
    (⟨"typeval_queries_total", [("kind", kind), ("outcome", if ok then "ok" else "error")], n⟩ : Metric)
  let memory := [Operation.subtype, .evaluate].flatMap fun op =>
    lookupMetrics "typeval_checker_cache_lookups_total" [("op", op.name)] (r.checker.lookups op)
  let stored := lookupMetrics "typeval_store_lookups_total" [] r.storeLookups
  (queries ++ memory ++ stored).filter (·.value > 0)

end Runner

end TypeCalculus

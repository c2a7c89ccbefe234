import TypeCalculus.Checker.Basic
import TypeCalculus.Journal.Entry
import TypeCalculus.ResultStore.Basic
import TypeCalculus.Runner.Fingerprint
import TypeCalculus.Runner.Result

/-! A runner registers the declarations of documents and answers their queries. All documents share one
    checker, so a later document may declare a name anew. With a store, an answer that was stored for
    the same document under the same declarations is given again. -/

namespace TypeCalculus

/-- Why a document could not be run. -/
inductive RunError where
  | declaration (path name : String) (error : TypeError)
  | cancelled

def RunError.message : RunError → String
  | declaration path name error => path ++ ": declaration " ++ name ++ ": " ++ error.message
  | cancelled => "context canceled"

/-- How often queries of each kind were answered, and how often not. -/
abbrev Tally := List ((String × Bool) × Nat)

/-- Counts one more. -/
def Tally.add (key : String × Bool) : Tally → Tally
  | [] => [(key, 1)]
  | (k, n) :: rest => if k = key then (k, n + 1) :: rest else (k, n) :: Tally.add key rest

/-- A runner. -/
structure Runner where
  settings : Settings
  checker : Checker
  /-- The name of the run, which stored results and the journal tell. -/
  run : String := ""
  /-- The time that stored results tell. -/
  now : Int := 0
  tally : Tally := []
  storeLookups : Lookups := {}
  /-- Entries of the journal, the latest first. -/
  journal : List Journal.Entry := []

namespace Runner

def new (settings : Settings) (run : String) : Runner :=
  { settings, run, checker := Checker.new settings.maxDepth settings.cacheSize }

/-- Adds an entry with the name of the run. -/
def record (r : Runner) (e : Journal.Entry) : Runner :=
  let named := if r.run = "" then e.fields else ("run", .text r.run) :: e.fields
  { r with journal := { e with fields := named } :: r.journal }

/-- Takes a checker back after its work, with the events it reported. -/
def resume (r : Runner) (c : Checker) : Runner :=
  { c.events.foldr (fun e r => r.record (.ofEvent e)) r with checker := { c with events := [] } }

/-- Registers declarations in order, up to the first that is rejected. -/
def declareAll (path : String) : List Declaration → Runner → Except RunError Unit × Runner
  | [], r => (.ok (), r)
  | d :: ds, r =>
    match r.checker.declare d with
    | (.ok (), c) => declareAll path ds (r.resume c)
    | (.error e, c) => (.error (.declaration path d.name e), r.resume c)

/-- Registers the declarations of a document. -/
def load (r : Runner) (doc : Document) : Except RunError Unit × Runner :=
  match declareAll doc.path doc.declarations r with
  | (.error e, r) => (.error e, r)
  | (.ok (), r) =>
    (.ok (), r.record
      { level := .debug, message := "loaded document",
        fields := [("path", .text doc.path), ("declarations", .number doc.declarations.length),
          ("queries", .number doc.queries.length)] })

def verdict (b : Bool) : String := if b then "true" else "false"

/-- What a checker answers to a question: text, and the type it came to, if any. -/
def answer (c : Checker) : Question → Except QueryError (String × Ty) × Checker
  | .evaluate type bindings =>
    let (outcome, c) := c.evaluate type bindings
    ((outcome.map fun t => (t.print, t)).mapError .type, c)
  | .subtype source target capture =>
    if capture then
      match c.capturing source target with
      | (none, c) => (.ok (verdict false, .absent), c)
      | (some s, c) =>
        (.ok (verdict true ++ (if s.isEmpty then "" else " " ++ s.print), .absent), c)
    else
      let (ok, c) := c.isSubtype source target
      (.ok (verdict ok, .absent), c)
  | .instantiate name args =>
    let (outcome, c) := c.instantiateDeclaration name args
    ((outcome.map fun t => (t.print, t)).mapError .type, c)
  | .other kind => (.error (.unknownKind kind), c)

/-- Answers a query without a store. -/
def ask (r : Runner) (q : Query) : Result × Runner :=
  match answer r.checker q.question with
  | (.ok (output, type), c) =>
    ({ name := q.name, kind := q.question.kind, output, type }, r.resume c)
  | (.error e, c) => ({ name := q.name, kind := q.question.kind, error := some e }, r.resume c)

/-- Answers a query and counts it. -/
def askCounted (r : Runner) (q : Query) : Result × Runner :=
  let (result, r) := r.ask q
  let r := match result.error with
    | none => r
    | some e => r.record
      { level := .debug, message := "query failed",
        fields := [("query", .text q.name), ("error", .text e.message)] }
  (result, { r with tally := r.tally.add (result.kind, result.error.isNone) })

/-- The result that a record holds. -/
def recalled (q : Query) (r : Record) : Result :=
  { name := q.name
    kind := q.question.kind
    output := r.output
    error := if r.error = "" then none else some (.stored r.error)
    cached := true }

/-- The record of a result. -/
def recordOf (r : Runner) (key : String) (q : Query) (result : Result) : Record :=
  { document := key
    query := q.name
    kind := result.kind
    output := result.output
    error := (result.error.map QueryError.message).getD ""
    run := r.run
    created := r.now }

def countLookup (r : Runner) (hit : Bool) : Runner :=
  { r with storeLookups :=
    if hit then { r.storeLookups with hits := r.storeLookups.hits + 1 }
    else { r.storeLookups with misses := r.storeLookups.misses + 1 } }

/-- Answers a query, from the store if it can. -/
def answerQuery (r : Runner) (store : Option ResultStore) (key : String) (q : Query) :
    Result × Runner × Option ResultStore :=
  match store with
  | none =>
    let (result, r) := r.askCounted q
    (result, r, none)
  | some s =>
    match s.lookup key q.name with
    | some record => (recalled q record, r.countLookup true, some s)
    | none =>
      let (result, r) := (r.countLookup false).askCounted q
      (result, r, some (s.save (r.recordOf key q result)))

/-- Answers queries in order. -/
def answerAll (key : String) : List Query → Runner → Option ResultStore →
    List Result × Runner × Option ResultStore
  | [], r, store => ([], r, store)
  | q :: qs, r, store =>
    let (result, r, store) := r.answerQuery store key q
    let (results, r, store) := answerAll key qs r store
    (result :: results, r, store)

/-- Runs a document. A run that is cancelled from the start fails at its first query. -/
def runDocument (r : Runner) (store : Option ResultStore) (cancelled : Bool) (doc : Document) :
    Except RunError (List Result) × Runner × Option ResultStore :=
  match r.load doc with
  | (.error e, r) => (.error e, r, store)
  | (.ok (), r) =>
    if cancelled && !doc.queries.isEmpty then (.error .cancelled, r, store)
    else
      let (results, r, store) :=
        answerAll (doc.resultKey r.settings r.checker.decls) doc.queries r store
      (.ok results, r, store)

end Runner

end TypeCalculus

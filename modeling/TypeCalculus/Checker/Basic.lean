import TypeCalculus.Checker.Adaptive
import TypeCalculus.Evaluate.Reduce

/-! A checker answers questions about types against the declarations it holds. Answers are remembered by
    the hashes of the operands, and a remembered answer counts only if its operands are identical to those
    asked for. Every operation takes the checker to its next state. -/

namespace TypeCalculus

/-- The operations whose answers are remembered. -/
inductive Operation where
  | subtype | evaluate
  deriving DecidableEq, Repr

def Operation.name : Operation → String
  | subtype => "subtype"
  | evaluate => "evaluate"

/-- What an answer is remembered by. -/
structure MemoKey where
  operation : Operation
  first : UInt64
  second : UInt64
  deriving DecidableEq

/-- A remembered answer with the operands it belongs to. -/
structure MemoEntry where
  first : Ty
  second : Ty
  verdict : Bool := false
  result : Ty := .absent

/-- How often remembered answers were found and missed. -/
structure Lookups where
  hits : Nat := 0
  misses : Nat := 0

/-- A checker. -/
structure Checker where
  limit : Nat := Assignable.defaultLimit
  memo : Option (Adaptive MemoKey MemoEntry)
  decls : Declarations := {}
  subtypeLookups : Lookups := {}
  evaluateLookups : Lookups := {}
  /-- Events, the latest first. -/
  events : List Event := []

namespace Checker

/-- The size of the memory where none is set. -/
def defaultCacheSize : Nat := 4096

/-- A new checker. A limit that is not positive and a cache size of zero stand for the usual ones; a
    negative cache size switches remembering off. -/
def new (limit cacheSize : Int) : Checker :=
  { limit := if limit ≤ 0 then Assignable.defaultLimit else limit.toNat
    memo :=
      if cacheSize < 0 then none
      else some { size := if cacheSize = 0 then defaultCacheSize else cacheSize.toNat } }

def lookups (c : Checker) : Operation → Lookups
  | .subtype => c.subtypeLookups
  | .evaluate => c.evaluateLookups

/-- Counts a lookup. -/
def count (c : Checker) (op : Operation) (hit : Bool) : Checker :=
  let next (l : Lookups) : Lookups :=
    if hit then { l with hits := l.hits + 1 } else { l with misses := l.misses + 1 }
  match op with
  | .subtype => { c with subtypeLookups := next c.subtypeLookups }
  | .evaluate => { c with evaluateLookups := next c.evaluateLookups }

/-- Looks an answer up. -/
def remembered (c : Checker) (key : MemoKey) (a b : Ty) : Option MemoEntry × Checker :=
  match c.memo with
  | none => (none, c)
  | some memo =>
    let (found, memo) := memo.get key
    let c := { c with memo := some memo }
    match found.filter fun e => e.first.identical a && e.second.identical b with
    | some e => (some e, c.count key.operation true)
    | none => (none, c.count key.operation false)

/-- Remembers an answer. -/
def remember (c : Checker) (key : MemoKey) (e : MemoEntry) : Checker :=
  { c with memo := c.memo.map (·.put key e) }

def report (c : Checker) (e : Event) : Checker := { c with events := e :: c.events }

/-- What evaluations of this checker go by. -/
def env (c : Checker) : Evaluate.Env := { limit := c.limit, decls := c.decls }

/-- Registers a declaration. It replaces one of the same name, and all answers are forgotten. -/
def declare (c : Checker) (d : Declaration) : Except TypeError Unit × Checker :=
  match d.check with
  | .error e => (.error e, c)
  | .ok () =>
    let c := { c with decls := c.decls.insert d, memo := c.memo.map Adaptive.purge }
    (.ok (), c.report (.declared d.name d.params.length))

/-- Whether `a` is assignable to `b`. -/
def isSubtype (c : Checker) (a b : Ty) : Bool × Checker :=
  if a.isAbsent || b.isAbsent then (false, c)
  else
    let key : MemoKey := ⟨.subtype, a.hash, b.hash⟩
    match c.remembered key a b with
    | (some e, c) => (e.verdict, c)
    | (none, c) =>
      let (ok, p) := Assignable.run { limit := c.limit } a b
      let c := { c with events := p.events ++ c.events }
      (ok, c.remember key { first := a, second := b, verdict := ok })

/-- Whether `a` is assignable to `b`, and then what the placeholders captured. -/
def capturing (c : Checker) (a b : Ty) : Option Subst × Checker :=
  let (ok, p) := Assignable.run { limit := c.limit } a b
  let c := { c with events := p.events ++ c.events }
  (if ok then some p.captures else none, c)

/-- Runs an evaluation from its start and keeps its events. -/
def evaluating {α : Type} (c : Checker) (step : Evaluate.Evaluating α) :
    Except TypeError α × Checker :=
  let (outcome, r) := step.run {}
  (outcome, { c with events := r.events ++ c.events })

/-- Evaluates a type under bindings, with nothing remembered. -/
def evaluateFresh (env : Evaluate.Env) (t : Ty) (bindings : Subst) : Evaluate.Evaluating Ty := do
  let closed ← Evaluate.reporting (.bindingsFailed bindings)
    (Evaluate.closeBindings env bindings bindings.entries)
  Evaluate.reporting (.evaluationFailed t) (Evaluate.reduce env env.limit (t.substitute closed))

/-- Substitutes bindings in a type and evaluates it. -/
def evaluate (c : Checker) (t : Ty) (bindings : Subst) : Except TypeError Ty × Checker :=
  match t.validate with
  | .error e => (.error e, c)
  | .ok () =>
    let key : MemoKey := ⟨.evaluate, t.hash, bindings.hash⟩
    match c.remembered key t bindings.toTy with
    | (some e, c) => (.ok e.result, c)
    | (none, c) =>
      match c.evaluating (evaluateFresh c.env t bindings) with
      | (.ok out, c) =>
        (.ok out, c.remember key { first := t, second := bindings.toTy, result := out })
      | (.error e, c) => (.error e, c)

/-- Evaluates a conditional. -/
def resolve (c : Checker) (t : Ty) (bindings : Subst) : Except TypeError Ty × Checker :=
  if t.isConditional then c.evaluate t bindings
  else (.error (.malformed t .notConditional), c)

/-- Checks and evaluates arguments; missing ones stay missing. -/
def reduceArgs (env : Evaluate.Env) : List Ty → Evaluate.Evaluating (List Ty)
  | [] => return []
  | t :: ts => do
    if t.isAbsent then
      return .absent :: (← reduceArgs env ts)
    else
      Evaluate.ofExcept t.validate
      let t ← Evaluate.reduce env env.limit t
      return t :: (← reduceArgs env ts)

/-- Binds arguments to parameters. -/
def instantiate (c : Checker) (params : List ParamDecl) (args : List Ty)
    (sites : List Evaluate.InferenceSite) : Except TypeError Subst × Checker :=
  match checkParams [] params with
  | .error e => (.error e, c)
  | .ok () =>
    c.evaluating do
      let args ← reduceArgs c.env args
      Evaluate.instantiate c.env (Evaluate.reduce c.env c.limit) params args sites

/-- Evaluates a declared name applied to arguments. -/
def instantiateDeclaration (c : Checker) (name : String) (args : List Ty) :
    Except TypeError Ty × Checker :=
  if c.decls.declares name then c.evaluate (.reference name args) {}
  else (.error (.malformed .absent (.unknownDeclaration name)), c)

end Checker

end TypeCalculus

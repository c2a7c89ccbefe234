import TypeCalculus.Assignable.Relation
import TypeCalculus.Declaration

/-! The state of one evaluation: how deep it is nested and which conditionals are being resolved. The
    state outlives a failure, so that what was open is closed again whatever the outcome. -/

namespace TypeCalculus.Evaluate

/-- What does not change during an evaluation. -/
structure Env where
  /-- How deep resolutions may nest. -/
  limit : Nat
  decls : Declarations
  /-- A conditional that is met again while it is being resolved is refused. -/
  guarded : Bool := true

/-- A conditional that is being resolved, with its hash. -/
structure Open where
  conditional : Ty
  hash : UInt64

/-- The state of an evaluation. -/
structure Resolution where
  depth : Nat := 0
  /-- The conditionals being resolved, the innermost first. -/
  stack : List Open := []
  /-- The hashes of the conditionals on the stack, each once. -/
  active : List UInt64 := []
  /-- Events, the latest first. -/
  events : List Event := []

namespace Resolution

/-- Opens a conditional, unless an identical one is open. -/
def push? (r : Resolution) (c : Ty) : Option Resolution :=
  let h := c.hash
  if r.active.contains h then
    if r.stack.any (·.conditional.identical c) then none
    else some { r with stack := ⟨c, h⟩ :: r.stack }
  else
    some { r with stack := ⟨c, h⟩ :: r.stack, active := h :: r.active }

/-- Closes the innermost conditional. Its hash stays active while another open one has it. -/
def pop (r : Resolution) : Resolution :=
  match r.stack with
  | [] => r
  | top :: rest =>
    if rest.any (·.hash == top.hash) then { r with stack := rest }
    else { r with stack := rest, active := r.active.erase top.hash }

def enter (r : Resolution) : Resolution := { r with depth := r.depth + 1 }

def leave (r : Resolution) : Resolution := { r with depth := r.depth - 1 }

end Resolution

/-- A step of an evaluation. -/
abbrev Evaluating := ExceptT TypeError (StateM Resolution)

def report (e : Event) : Evaluating Unit :=
  modify fun r => { r with events := e :: r.events }

/-- Runs a step and changes the state afterwards, also when the step fails. -/
def ending {α : Type} (step : Evaluating α) (after : Resolution → Resolution) : Evaluating α :=
  ExceptT.mk fun r =>
    let (outcome, r) := step.run r
    (outcome, after r)

/-- Runs a step and reports its failure. -/
def reporting {α : Type} (event : TypeError → Event) (step : Evaluating α) : Evaluating α :=
  ExceptT.mk fun r =>
    match step.run r with
    | (.error e, r) => (.error e, { r with events := event e :: r.events })
    | (.ok a, r) => (.ok a, r)

/-- Runs a step one level deeper. -/
def nested {α : Type} (step : Evaluating α) : Evaluating α := do
  modify Resolution.enter
  ending step Resolution.leave

/-- Runs a step while a conditional is open. -/
def holding {α : Type} (env : Env) (c check bound : Ty) (step : Evaluating α) : Evaluating α := do
  let r ← get
  match r.push? c with
  | some opened =>
    set opened
    ending step Resolution.pop
  | none =>
    if env.guarded then throw (.cycle check bound)
    else
      set { r with stack := ⟨c, c.hash⟩ :: r.stack }
      ending step Resolution.pop

/-- Compares two types in a comparison of its own and reports its events. -/
def compare (o : Assignable.Options) (a b : Ty) : Evaluating (Bool × Subst) := do
  let (ok, p) := Assignable.run o a b
  modify fun r => { r with events := p.events ++ r.events }
  return (ok, p.captures)

/-- Turns an outcome into a step. -/
def ofExcept {α : Type} : Except TypeError α → Evaluating α
  | .ok a => pure a
  | .error e => throw e

end TypeCalculus.Evaluate

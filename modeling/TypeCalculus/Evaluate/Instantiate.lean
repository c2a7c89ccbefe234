import TypeCalculus.Evaluate.Resolution
import TypeCalculus.Substitute

/-! Binding type arguments to parameters. An argument has to satisfy the constraint of its parameter; a
    missing one takes the default, else what the inference sites tell, else the constraint, else
    `unknown`. Evaluation itself is a parameter of these steps. -/

namespace TypeCalculus.Evaluate

/-- A use of type parameters with the argument passed there. -/
structure InferenceSite where
  usage : Ty
  arg : Ty

/-- The parameters replaced by placeholders of the same name. -/
def paramsToInfer (t : Ty) (names : List String) : Ty :=
  t.substituteOnce (Subst.ofList (names.map fun n => (n, .infer n .absent)))

/-- Checks an argument against the constraint of its parameter. What still holds placeholders or free
    parameters is checked once it is bound. -/
def checkConstraint (env : Env) (self : Ty → Evaluating Ty) (p : ParamDecl) (arg : Ty)
    (bindings : Subst) : Evaluating Unit := do
  if p.constraint.isAbsent || arg.containsInfer || arg.hasFreeParams then return
  let constraint ← self (p.constraint.substituteOnce bindings)
  if constraint.hasFreeParams then return
  let (ok, _) ← compare { limit := env.limit, anyFits := true } arg constraint
  if !ok then throw (.violation p.name arg constraint)

/-- The types that the inference sites give for a parameter, where the unbound parameters stand as
    placeholders. -/
def candidates (env : Env) (name : String) (unbound : List String) (bindings : Subst) :
    List InferenceSite → Evaluating (List Ty)
  | [] => return []
  | site :: sites => do
    if site.usage.isAbsent || site.arg.isAbsent then candidates env name unbound bindings sites
    else
      let usage := paramsToInfer (site.usage.substituteOnce bindings) unbound
      let (ok, captures) ← compare { limit := env.limit } site.arg usage
      let rest ← candidates env name unbound bindings sites
      match ok, captures.find? name with
      | true, some t => return t :: rest
      | _, _ => return rest

/-- The type inferred for a parameter, if some site tells one. -/
def inferred? (env : Env) (name : String) (params : List ParamDecl) (sites : List InferenceSite)
    (bindings : Subst) : Evaluating (Option Ty) := do
  let unbound := (params.map (·.name)).filter fun n => !bindings.binds n
  match ← candidates env name unbound bindings sites with
  | [] => return none
  | found =>
    let t := Ty.unionOf found
    report (.inferred name t)
    return some t

/-- The binding of one parameter. -/
def bindingOf (env : Env) (self : Ty → Evaluating Ty) (params : List ParamDecl)
    (sites : List InferenceSite) (bindings : Subst) (p : ParamDecl) (arg : Ty) : Evaluating Ty := do
  if !arg.isAbsent then
    checkConstraint env self p arg bindings
    return arg
  if !p.default.isAbsent then
    return ← self (p.default.substituteOnce bindings)
  match ← inferred? env p.name params sites bindings with
  | some t =>
    checkConstraint env self p t bindings
    return t
  | none =>
    if p.constraint.isAbsent then return .unknown
    self (p.constraint.substituteOnce bindings)

/-- Binds the parameters one after the other; missing arguments stand at the end or are absent. -/
def bindAll (env : Env) (self : Ty → Evaluating Ty) (params : List ParamDecl)
    (sites : List InferenceSite) (bindings : Subst) :
    List ParamDecl → List Ty → Evaluating Subst
  | [], _ => return bindings
  | p :: ps, args => do
    let t ← bindingOf env self params sites bindings p (args.headD .absent)
    bindAll env self params sites (bindings.insert p.name t) ps args.tail

/-- Binds arguments to parameters. -/
def instantiate (env : Env) (self : Ty → Evaluating Ty) (params : List ParamDecl) (args : List Ty)
    (sites : List InferenceSite) : Evaluating Subst :=
  if args.length > params.length then
    throw (.malformed .absent (.tooManyArguments params.length args.length))
  else
    bindAll env self params sites {} params args

end TypeCalculus.Evaluate

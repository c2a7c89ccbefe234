import TypeCalculus.Evaluate.Keys
import TypeCalculus.Evaluate.Instantiate

/-! Evaluation of types: conditionals are resolved, declared names expanded, and `keyof`, indexed access
    and string mappings computed wherever their operands are known. One step, `reduceStep`, leaves the
    parts to a given evaluation; `reduce` ties the steps together up to a depth limit. -/

namespace TypeCalculus.Evaluate

/-- The tree holds something that evaluation would change. -/
def isReducible (env : Env) (t : Ty) : Bool :=
  t.occurs fun
    | .conditional .. | .keyOf _ | .access .. | .mapping .. => true
    | .reference name _ => env.decls.declares name
    | _ => false

/-- The captures of the placeholders of a bound; a placeholder that captured nothing is `never`. -/
def capturesOf (names : List String) (captures : Subst) : Subst :=
  Subst.ofList (names.map fun n => (n, (captures.find? n).getD .never))

/-- Resolves a conditional whose operands are evaluated. It stays while they have free parameters. -/
def resolve (env : Env) (self : Ty → Evaluating Ty) (check bound yes no : Ty) (distribute : Bool) :
    Evaluating Ty := do
  if check.hasFreeParams || bound.hasFreeParams then
    return .conditional check bound yes no (check.isParam && distribute)
  let names := bound.inferNames
  if check.isAny then
    let yes ← self (yes.substituteOnce (Subst.ofList (names.map fun n => (n, .unknown))))
    let no ← self no
    return Ty.unionOf [yes, no]
  let (matched, captures) ← compare { limit := env.limit } check bound
  report (.conditional check bound matched (← get).depth)
  if matched then self (yes.substituteOnce (capturesOf names captures)) else self no

/-- Expands a declared name; the arguments of other names are evaluated only. -/
def expand (env : Env) (self : Ty → Evaluating Ty) (name : String) (args : List Ty) :
    Evaluating Ty := do
  let args ← args.mapM self
  match env.decls.find? name with
  | none => return .reference name args
  | some decl =>
    let bindings ← instantiate env self decl.params args []
    report (.expanding name bindings)
    self (decl.body.substituteOnce bindings)

/-- One step of an evaluation, where `self` evaluates parts and results. -/
def reduceStep (env : Env) (self : Ty → Evaluating Ty) (t : Ty) : Evaluating Ty :=
  match t with
  | .conditional check bound yes no distribute =>
    holding env t check bound do
      let check ← self check
      let bound ← self bound
      resolve env self check bound yes no distribute
  | .reference name args => expand env self name args
  | .keyOf target => return (← self target).keysOf
  | .access target index => do
    let target ← self target
    let index ← self index
    ofExcept (Ty.indexed target index)
  | .mapping op arg => return (← self arg).mapped op
  | t => t.rebuild self

/-- Evaluates a type, where resolutions may nest `room` levels deeper. -/
def reduce (env : Env) : (room : Nat) → Ty → Evaluating Ty
  | 0, t => if isReducible env t then throw (.tooDeep env.limit t) else pure t
  | room + 1, t =>
    if isReducible env t then nested (reduceStep env (reduce env room) t) else pure t

/-- Substitutes bindings in each other and evaluates them, in ascending order of their names. -/
def closeBindings (env : Env) (s : Subst) : List (String × Ty) → Evaluating Subst
  | [] => return {}
  | (name, t) :: rest => do
    if t.isAbsent then closeBindings env s rest
    else
      let t ← reduce env env.limit (t.substitute s)
      return (← closeBindings env s rest).insert name t

end TypeCalculus.Evaluate

import TypeCalculus.Ty.Rebuild
import TypeCalculus.Subst

/-! Substitution of bound parameters. A chained substitution goes on into the replacements and leaves a
    parameter in place while it is being replaced; a simultaneous one takes replacements as they are.
    Names that a conditional declares in its bound are not replaced in its true branch, and a
    distributive conditional whose parameter is bound to a union is split into one for each member.

    The recursion follows bindings and enters a conditional once more for each member that it splits over.
    Bindings may be cyclic, and then a chained substitution need not come to an end. -/

namespace TypeCalculus

namespace Substitute

/-- The alternatives over which a distributive conditional splits when its parameter becomes a type. -/
def alternatives? : Ty → Option (List Ty)
  | .union members => some members
  | .prim .boolean => some Ty.booleans
  | .never => some []
  | _ => none

/-- The alternatives of a conditional that checks a bound parameter, if it splits. The parameter is
    replaced by `self`. -/
def splits? (self : Subst → List String → Ty → Option Ty) (s : Subst) (opened : List String)
    (check : Ty) (distribute : Bool) : Option (Option (String × List Ty)) :=
  match check with
  | .param name _ _ =>
    let isOpen := opened.contains name || ((s.find? name).getD .absent).isAbsent
    if distribute && !isOpen then do
      let replaced ← self s opened check
      return (alternatives? replaced).map fun ms => (name, ms)
    else
      return none
  | _ => return none

/-- One step of a substitution, where `self` substitutes in parts and replacements. The parameters being
    replaced are `opened`. -/
def step (chain : Bool) (self : Subst → List String → Ty → Option Ty) (s : Subst)
    (opened : List String) (t : Ty) : Option Ty :=
  match t with
  | .param name _ _ =>
    match s.find? name with
    | none | some .absent => some t
    | some replacement =>
      if opened.contains name then some t
      else if chain then self s (name :: opened) replacement
      else some replacement
  | .conditional check bound yes no distribute => do
    match ← splits? self s opened check distribute with
    | some (name, members) =>
      return Ty.unionOf (← members.mapM fun m => self (s.insert name m) opened t)
    | none =>
      let check' ← self s opened check
      let bound' ← self s opened bound
      let no' ← self s opened no
      let yes' ← self (s.without bound.inferNames) opened yes
      return .conditional check' bound' yes' no' (check'.isParam && distribute)
  | t => t.rebuild (self s opened)

section Extend
variable {self self' : Subst → List String → Ty → Option Ty}

theorem splits?_extend {s : Subst} {opened : List String} {check : Ty}
    (h : ∀ u, self s opened check = some u → self' s opened check = some u) (distribute : Bool)
    (u : Option (String × List Ty)) (hu : splits? self s opened check distribute = some u) :
    splits? self' s opened check distribute = some u := by
  unfold splits? at hu ⊢
  split at hu
  · dsimp only at hu ⊢
    split at hu
    · rename_i hd
      rw [if_pos hd]
      exact Ty.bind_extend h (fun _ _ hr => hr) u hu
    · rename_i hd
      rwa [if_neg hd]
  · exact hu

variable (h : ∀ s opened t u, self s opened t = some u → self' s opened t = some u)
include h

/-- A step has the results that it has with a substitution that ends in fewer cases. -/
theorem step_extend (chain : Bool) (s : Subst) (opened : List String) (t u : Ty)
    (hu : step chain self s opened t = some u) : step chain self' s opened t = some u := by
  unfold step at hu ⊢
  split at hu
  · split at hu
    · exact hu
    · exact hu
    · split
      · rename_i ho
        rwa [if_pos ho] at hu
      · rename_i ho
        rw [if_neg ho] at hu
        cases chain with
        | true => exact h _ _ _ u hu
        | false => exact hu
  · rename_i check bound yes no distribute
    refine Ty.bind_extend (splits?_extend (h s opened check) distribute) (fun split v hv => ?_) u hu
    split at hv
    · exact Ty.bind_extend (Ty.mapM_extend (fun m => h _ _ _) _) (fun _ _ hr => hr) v hv
    · exact Ty.bind_extend (h s opened check) (fun _ => Ty.bind_extend (h s opened bound) fun _ =>
        Ty.bind_extend (h s opened no) fun _ => Ty.bind_extend (h _ opened yes) fun _ _ hr => hr) v hv
  · exact Ty.rebuild_extend (h s opened) _ u hu

end Extend

end Substitute

/-- Substitution, wherever it comes to an end. -/
def Subst.run (chain : Bool) (s : Subst) (opened : List String) (t : Ty) : Option Ty :=
  Substitute.step chain (fun s => s |>.run chain) s opened t
partial_fixpoint monotonicity fun self self' h s opened t => by
  have mono : ∀ s opened t u, self s opened t = some u → self' s opened t = some u := by
    intro s opened t u hu
    have less := h s opened t
    generalize self s opened t = x, self' s opened t = y at less hu
    cases less with
    | bot => cases hu
    | refl => exact hu
  have whole := Substitute.step_extend mono chain s opened t
  dsimp only
  generalize Substitute.step chain self s opened t = x, Substitute.step chain self' s opened t = y at whole
  cases x with
  | none => exact .bot
  | some u => exact whole u rfl ▸ .refl

namespace Substitute

export Subst (run)

end Substitute

namespace Ty

/-- The tree with bound parameters replaced, and parameters of the replacements in turn. A substitution
    that does not come to an end gives nothing; the tree itself stands for its result here. -/
def substitute (t : Ty) (s : Subst) : Ty :=
  if t.mentions s then (Substitute.run true s [] t).getD t else t

/-- The tree with bound parameters replaced at once; replacements are taken as they are. -/
def substituteOnce (t : Ty) (s : Subst) : Ty :=
  if t.mentions s then (Substitute.run false s [] t).getD t else t

/-- The tree with one parameter replaced. -/
def replaceParam (t : Ty) (name : String) (replacement : Ty) : Ty :=
  t.substituteOnce (Subst.ofList [(name, replacement)])

end Ty

end TypeCalculus

import TypeCalculus.Proofs.Ty.Template
import TypeCalculus.Proofs.Ty.Validity
import TypeCalculus.Ty.Object

/-! Checks and checked constructors fail for malformed trees only, and constructors give types. -/

namespace TypeCalculus

/-- The check fails for malformed trees only, if at all. -/
def Checks {α : Type} (x : Except TypeError α) : Prop := ∀ e, x = .error e → e.sentinel = .malformedType

section Checks
variable {α β : Type}

theorem checks_ok {a : α} : Checks (.ok a) := nofun

theorem checks_malformed (subject : Ty) (fault : Fault) : Checks (.error (.malformed subject fault) : Except TypeError α) := by
  rintro e ⟨⟩
  rfl

theorem Checks.bind {x : Except TypeError α} {f : α → Except TypeError β} (hx : Checks x) (hf : ∀ a, Checks (f a)) :
    Checks (x >>= f) := by
  cases x with
  | error e =>
    rintro e' ⟨⟩
    exact hx e rfl
  | ok a => exact hf a

/-- One check after another. -/
theorem Checks.next {x : Except TypeError Unit} {y : Except TypeError α} (hx : Checks x) (hy : Checks y) :
    Checks (x >>= fun _ => y) :=
  hx.bind fun _ => hy

end Checks

namespace Ty

mutual

theorem checks_validateIn (inBound : Bool) : (t : Ty) → Checks (t.validateIn inBound)
  | absent => by
    rw [validateIn]
    exact checks_malformed _ _
  | infer name constraint => by
    have rest := checks_validateIn false constraint
    unfold validateIn
    split
    · exact checks_malformed _ _
    · split
      · exact checks_ok
      · exact rest
  | conditional check bound yes no _ => by
    rw [validateIn]
    exact .next (checks_validateIn inBound check) (.next (checks_validateIn inBound yes)
      (.next (checks_validateIn inBound no) (checks_validateIn true bound)))
  | template segments => by
    rw [validateIn]
    split
    · exact checks_malformed _ _
    · exact checks_validateSegments inBound segments
  | object props index => by
    have rest := Checks.next (checks_validateProps inBound props) (checks_validateIndex inBound index)
    unfold validateIn
    dsimp only
    repeat' split
    all_goals first | exact rest | exact checks_malformed _ _
  | param name constraint default => by
    have bound := checks_validateIn false constraint
    have standard := checks_validateIn false default
    unfold validateIn
    dsimp only
    split
    · exact checks_malformed _ _
    · split
      · split
        · exact checks_ok
        · exact standard
      · refine bound.next ?_
        split
        · exact checks_ok
        · exact standard
  | array elem _ | keyOf elem | mapping _ elem => by
    rw [validateIn]
    exact checks_validateIn inBound elem
  | tuple ts | union ts | intersection ts | reference _ ts => by
    rw [validateIn]
    exact checks_validateAll inBound ts
  | function params result => by
    rw [validateIn]
    exact .next (checks_validateAll inBound params) (checks_validateIn inBound result)
  | access target index => by
    rw [validateIn]
    exact .next (checks_validateIn inBound target) (checks_validateIn inBound index)
  | any | unknown | void | never | prim _ | literal .. => checks_ok

theorem checks_validateAll (inBound : Bool) : (ts : List Ty) → Checks (validateAll inBound ts)
  | [] => checks_ok
  | t :: ts => .next (checks_validateIn inBound t) (checks_validateAll inBound ts)

theorem checks_validateSegments (inBound : Bool) : (segments : List (Segment Ty)) → Checks (validateSegments inBound segments)
  | [] => checks_ok
  | .text _ :: rest => checks_validateSegments inBound rest
  | .hole t :: rest => .next (checks_validateIn inBound t) (checks_validateSegments inBound rest)

theorem checks_validateProps (inBound : Bool) : (props : List (Property Ty)) → Checks (validateProps inBound props)
  | [] => checks_ok
  | ⟨_, type, _, _⟩ :: rest => .next (checks_validateIn inBound type) (checks_validateProps inBound rest)

theorem checks_validateIndex (inBound : Bool) : (index : Option (IndexSignature Ty)) → Checks (validateIndex inBound index)
  | none => checks_ok
  | some ⟨_, value⟩ => checks_validateIn inBound value

end

/-! ### Constructors -/

theorem checks_readLiteral (base : Prim) (text : String) : Checks (readLiteral base text) := by
  unfold readLiteral
  repeat' split
  all_goals first | exact checks_ok | exact checks_malformed _ _

theorem checks_newTemplate (segments : List (Segment Ty)) : Checks (newTemplate segments) := by
  unfold newTemplate
  split
  · exact checks_malformed _ _
  · exact checks_ok

theorem checks_checkProps (seen : List String) (props : List (Property Ty)) : Checks (checkProps seen props) := by
  induction props generalizing seen with
  | nil => exact checks_ok
  | cons p props ih =>
    rw [checkProps]
    split
    · exact checks_malformed _ _
    · split
      · exact checks_malformed _ _
      · exact ih _

theorem checks_checkIndex (index : Option (IndexSignature Ty)) : Checks (checkIndex index) := by
  unfold checkIndex
  repeat' split
  all_goals first | exact checks_ok | exact checks_malformed _ _

theorem checks_newObject (props : List (Property Ty)) (index : Option (IndexSignature Ty)) : Checks (newObject props index) := by
  refine .next (checks_checkProps [] props) (.next (checks_checkIndex index) ?_)
  dsimp only
  repeat' split
  all_goals first | exact checks_ok | exact checks_malformed _ _

theorem checks_newConditional (check bound yes no : Ty) : Checks (newConditional check bound yes no) := by
  have operands : Checks (do
      check.validate
      yes.validate
      no.validate
      bound.validateBound
      return conditional check bound yes no check.isParam) :=
    .next (checks_validateIn false check) (.next (checks_validateIn false yes) (.next (checks_validateIn false no)
      (.next (checks_validateIn true bound) checks_ok)))
  unfold newConditional
  dsimp only
  split
  · exact checks_malformed _ _
  · exact operands

theorem readLiteral_ne_absent {base : Prim} {text : String} {t : Ty} (h : readLiteral base text = .ok t) : t ≠ absent := by
  unfold readLiteral at h
  repeat' split at h
  all_goals cases h
  all_goals exact nofun

theorem newTemplate_ne_absent {segments : List (Segment Ty)} {t : Ty} (h : newTemplate segments = .ok t) : t ≠ absent := by
  unfold newTemplate at h
  split at h
  · cases h
  · cases h
    exact templateOf_ne_absent segments

theorem newObject_ne_absent {props : List (Property Ty)} {index : Option (IndexSignature Ty)} {t : Ty}
    (h : newObject props index = .ok t) : t ≠ absent := by
  let R := Results.except TypeError
  have shape : R.All (· ≠ absent) (pure (Shape.ofProps props index).toTy) := R.pure nofun
  have all : R.All (· ≠ absent) (newObject props index) := by
    refine Results.except_after fun _ => Results.except_after fun _ => ?_
    dsimp only
    split
    · exact shape
    · split
      · split
        · rintro t ⟨⟩
        · exact shape
      · exact shape
  exact all t h

theorem newConditional_ne_absent {check bound yes no t : Ty} (h : newConditional check bound yes no = .ok t) : t ≠ absent := by
  unfold newConditional at h
  dsimp only at h
  split at h
  · cases h
  · simp only [andThen_eq_ok] at h
    obtain ⟨-, -, -, -, h⟩ := h
    cases h
    nofun

end Ty
end TypeCalculus

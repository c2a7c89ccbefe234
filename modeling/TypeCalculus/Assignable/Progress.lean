import TypeCalculus.Event
import TypeCalculus.Ty.Union

/-! The state of one comparison of types: what the placeholders have captured, and whether the comparison
    was cut off by the depth limit. -/

namespace TypeCalculus.Assignable

/-- How far a comparison has come. -/
structure Progress where
  captures : Subst := {}
  clipped : Bool := false
  /-- Events, the latest first. -/
  events : List Event := []

/-- A step of a comparison. -/
abbrev Relating := StateM Progress

/-- What does not change during a comparison. -/
structure Options where
  /-- How deep comparisons may nest. -/
  limit : Nat
  /-- `any` flows into every target, as explicit arguments of a generic may. -/
  anyFits : Bool := false

/-- Captures a type under a name; captures of the same name are united. -/
def capture (name : String) (t : Ty) : Relating Unit :=
  modify fun p =>
    let t := match p.captures.find? name with
      | some previous => Ty.unionOf [previous, t]
      | none => t
    { p with captures := p.captures.insert name t }

/-- Notes that a comparison was cut off; only the first time is reported. -/
def clip (limit : Nat) (source target : Ty) : Relating Unit :=
  modify fun p =>
    if p.clipped then p
    else { p with clipped := true, events := .clipped limit source target :: p.events }

/-- Reports that a template has no pattern that can be read. -/
def reportUnreadable (template : Ty) (pattern : String) : Relating Unit :=
  modify fun p => { p with events := .unreadable template pattern :: p.events }

/-- Runs a check and takes its captures back when it fails. -/
def attempt (check : Relating Bool) : Relating Bool := do
  let before := (← get).captures
  let ok ← check
  if !ok then modify fun p => { p with captures := before }
  return ok

/-- Every element passes; the check stops at the first that does not. -/
def every {α : Type} (check : α → Relating Bool) : List α → Relating Bool
  | [] => pure true
  | x :: xs => do
    if ← check x then every check xs else pure false

/-- Some element passes; captures of elements that fail are taken back. -/
def first {α : Type} (check : α → Relating Bool) : List α → Relating Bool
  | [] => pure false
  | x :: xs => do
    if ← attempt (check x) then pure true else first check xs

end TypeCalculus.Assignable

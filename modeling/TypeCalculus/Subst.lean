import TypeCalculus.Ty.Printed
import TypeCalculus.Ty.Hashed
import TypeCalculus.Ty.Walk

/-! Bindings of type parameters, kept in ascending order of their names. A name may be bound to a missing
    type; it is then bound and has no replacement. -/

namespace TypeCalculus

/-- Names with the types bound to them, ascending. -/
structure Subst where
  entries : List (String × Ty) := []

namespace Subst

def empty : Subst := {}

def isEmpty (s : Subst) : Bool := s.entries.isEmpty

def names (s : Subst) : List String := s.entries.map (·.1)

def find? (s : Subst) (name : String) : Option Ty := s.entries.lookup name

/-- The name is bound, to a type or to none. -/
def binds (s : Subst) (name : String) : Bool := (s.find? name).isSome

/-- Puts an entry in its place, where it replaces one of the same name. -/
def insertEntry (name : String) (t : Ty) : List (String × Ty) → List (String × Ty)
  | [] => [(name, t)]
  | (n, u) :: rest =>
    if name < n then (name, t) :: (n, u) :: rest
    else if name = n then (name, t) :: rest
    else (n, u) :: insertEntry name t rest

def insert (s : Subst) (name : String) (t : Ty) : Subst := ⟨insertEntry name t s.entries⟩

def ofList (entries : List (String × Ty)) : Subst :=
  entries.foldl (fun s (n, t) => s.insert n t) empty

/-- The bindings of both, where the second wins. -/
def merge (s other : Subst) : Subst :=
  other.entries.foldl (fun s (n, t) => s.insert n t) s

/-- The bindings of all names but the given ones. -/
def without (s : Subst) (names : List String) : Subst :=
  ⟨s.entries.filter fun (n, _) => !names.contains n⟩

/-- The bindings have a text: every name is bound to a type that has one. -/
def hasText (s : Subst) : Bool := s.entries.all fun (_, t) => t.hasText

def print (s : Subst) : String :=
  "\x7b" ++ ", ".intercalate (s.entries.map fun (n, t) => n ++ " := " ++ t.print) ++ "\x7d"

def hash (s : Subst) : UInt64 :=
  (s.entries.foldl (fun b (n, t) => (b.text n).word t.hash) (Bytes.nat {} s.entries.length)).hash

/-- The bindings as one type: a tuple of names and types, or nothing if there are none. -/
def toTy (s : Subst) : Ty :=
  if s.isEmpty then .absent
  else .tuple (s.entries.flatMap fun (n, t) => [Ty.stringLit n, t])

end Subst

/-- The tree refers to a parameter that is bound. -/
def Ty.mentions (t : Ty) (s : Subst) : Bool :=
  t.occurs fun
    | .param name _ _ => s.binds name
    | _ => false

end TypeCalculus

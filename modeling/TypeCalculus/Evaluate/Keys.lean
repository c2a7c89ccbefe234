import TypeCalculus.Ty.Intersection

/-! Property keys of a type, and the type behind a key. -/

namespace TypeCalculus.Ty

/-- The literal of a property key: a number where the key is the text of one. -/
def keyLiteral (key : String) : Ty :=
  match Number.read? key with
  | some x => if Number.write x = key then numberLit x else stringLit key
  | none => stringLit key

/-- Everything that can be a property key. -/
def anyKey : Ty := unionOf [string, number, symbol]

/-- The keys that an index signature allows. -/
def indexKeys : Option (IndexSignature Ty) → List Ty
  | none => []
  | some i => if i.key = .string then [number, string] else [number]

/-- The positions of a tuple from `i` on, as keys. -/
def positionKeys (i : Nat) : List Ty → List Ty
  | [] => []
  | _ :: ts => stringLit (toString i) :: positionKeys (i + 1) ts

mutual

/-- The union of the keys of a type; where they are not known yet, the operator stays. -/
def keysOf : Ty → Ty
  | object props index => unionOf (props.map (fun p => keyLiteral p.key) ++ indexKeys index)
  | array .. => unionOf [number, stringLit lengthKey]
  | tuple elems => unionOf (positionKeys 0 elems ++ [number, stringLit lengthKey])
  | union members => meetOf (keysOfAll members)
  | intersection members => unionOf (keysOfAll members)
  | any | never => anyKey
  | unknown | void => never
  | prim _ | literal .. | template _ | function .. | reference .. => never
  | t => keyOf t
termination_by structural t => t

def keysOfAll : List Ty → List Ty
  | [] => []
  | t :: ts => t.keysOf :: keysOfAll ts
termination_by structural ts => ts

end

/-- The index cannot be used on the target. -/
def noSuchIndex (target index : Ty) : Except TypeError Ty :=
  .error (.malformed (access target index) (.notAnIndex index target))

/-- The index is a number. -/
def isNumeric (index : Ty) : Bool := index.baseOf? == some .number

/-- The type behind an index of an object shape. -/
def indexShape (props : List (Property Ty)) (signature : Option (IndexSignature Ty)) (index : Ty) :
    Except TypeError Ty :=
  let miss := noSuchIndex (object props signature) index
  let byLiteral (text : String) : Except TypeError Ty :=
    match Shape.find? props text with
    | some p => pure (if p.optional then unionOf [p.type, undefined] else p.type)
    | none =>
      match signature with
      | some i => if i.covers text then pure i.value else miss
      | none => miss
  match index with
  | literal .string text => byLiteral text
  | literal .number text => byLiteral text
  | _ =>
    match signature with
    | some i =>
      if index.identical (prim i.key) || (index.isNumeric && i.key = .string) then pure i.value
      else miss
    | none => miss

/-- The type behind an index of a tuple. -/
def indexTuple (elems : List Ty) (index : Ty) : Except TypeError Ty :=
  match index with
  | literal base text =>
    if base = .string && text = lengthKey then pure (natLit elems.length)
    else
      match readInt? text with
      | some i =>
        if i < 0 then noSuchIndex (tuple elems) index
        else
          match elems[i.toNat]? with
          | some t => pure t
          | none => noSuchIndex (tuple elems) index
      | none => noSuchIndex (tuple elems) index
  | _ => if index.isNumeric then pure (unionOf elems) else noSuchIndex (tuple elems) index

/-- The type behind an index of an array. -/
def indexArray (elem : Ty) (readonly : Bool) (index : Ty) : Except TypeError Ty :=
  if index.isNumeric then pure elem
  else if index.identical (stringLit lengthKey) then pure number
  else noSuchIndex (array elem readonly) index

/-- The type behind an index, where both are known; otherwise the operator stays. Unions are indexed
    member by member, and an intersection by those members that have the index. -/
def indexed (target index : Ty) : Except TypeError Ty :=
  if !target.isConcrete || !index.isConcrete then pure (access target index)
  else if target.isAny then pure any
  else
    match target, index with
    | target, union members => do
      return unionOf (← members.attach.mapM fun ⟨m, _⟩ => indexed target m)
    | union members, index => do
      return unionOf (← members.attach.mapM fun ⟨m, _⟩ => indexed m index)
    | _, never => pure never
    | object props signature, index => indexShape props signature index
    | array elem readonly, index => indexArray elem readonly index
    | tuple elems, index => indexTuple elems index
    | intersection members, index =>
      match members.attach.filterMap fun ⟨m, _⟩ => (indexed m index).toOption with
      | [] => noSuchIndex (intersection members) index
      | found => pure (meetOf found)
    | target, index => noSuchIndex target index
termination_by target.size + index.size
decreasing_by
  all_goals
    rename_i hm
    have := size_le_of_mem hm
    simp only [size]
    omega

end TypeCalculus.Ty

import TypeCalculus.Declaration

/-! Type documents: declarations, and questions to ask about types once they are registered. -/

namespace TypeCalculus

/-- A question about types. -/
inductive Question where
  /-- What a type comes to under bindings. -/
  | evaluate (type : Ty) (bindings : Subst)
  /-- Whether the source is assignable to the target; with `capture`, also what placeholders stand for. -/
  | subtype (source target : Ty) (capture : Bool)
  /-- What a declared name comes to when it is applied to arguments. -/
  | instantiate (name : String) (args : List Ty)
  /-- A question of a kind that nothing answers. -/
  | other (kind : String)

namespace Question

/-- The word for the kind of question. -/
def kind : Question → String
  | evaluate .. => "eval"
  | subtype .. => "subtype"
  | instantiate .. => "instantiate"
  | other kind => kind

/-- A question of a kind, with nothing to ask about. -/
def ofKind (kind : String) : Question :=
  match kind with
  | "eval" => evaluate .absent {}
  | "subtype" => subtype .absent .absent false
  | "instantiate" => instantiate "" []
  | kind => other kind

end Question

/-- A question with the name its answer is listed under and the line it is written on. -/
structure Query where
  name : String
  line : Nat := 0
  question : Question

/-- A document; its path says where it was read. -/
structure Document where
  path : String
  declarations : List Declaration := []
  queries : List Query := []

end TypeCalculus

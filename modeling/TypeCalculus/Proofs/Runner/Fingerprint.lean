import TypeCalculus.Proofs.Hash.Declarations
import TypeCalculus.Proofs.Hash.Lines
import TypeCalculus.Runner.Fingerprint

/-! What a fingerprint tells of a document: the limit and the queries. The lines of a document are read from the
    front. How many parameters a declaration has and how many arguments a query is not written, but lines
    of hashes are never taken for the word that opens the next declaration or query. -/

namespace TypeCalculus

/-! ### Lines of hashes -/

/-- What stands on the line of a type. -/
def typeText (t : Ty) : String := if t.isAbsent then "" else hexText t.hash

def IsHashText (s : String) : Prop := s = "" ∨ ∃ w, s = hexText w

theorem isHashText_typeText (t : Ty) : IsHashText (typeText t) := by
  unfold typeText
  split
  · exact Or.inl rfl
  · exact Or.inr ⟨_, rfl⟩

theorem IsHashText.nulFree {s : String} (h : IsHashText s) : NulFree s := by
  rcases h with rfl | ⟨w, rfl⟩
  · decide
  · exact nulFree_hexText w

theorem not_isHashText {s : String} {c : Char} (hc : ∀ d < 16, Nat.digitChar d ≠ c) (h : c ∈ s.toList) :
    ¬IsHashText s := by
  rintro (rfl | ⟨w, rfl⟩)
  · cases h
  · exact not_mem_hexText hc w h

theorem not_isHashText_decl : ¬IsHashText "decl" := not_isHashText (c := 'l') (by decide) (by decide)
theorem not_isHashText_query : ¬IsHashText "query" := not_isHashText (c := 'q') (by decide) (by decide)

/-- The lines do not begin with that of a hash. -/
def Delimited (lines : List String) : Prop := ∀ s ∈ lines.head?, ¬IsHashText s

theorem delimited_nil : Delimited [] := nofun

theorem delimited_cons {s : String} {lines : List String} (h : ¬IsHashText s) : Delimited (s :: lines) :=
  fun _ ht => Option.some.inj ht ▸ h

/-- Lines of hashes are read up to the first other line. -/
theorem hashes_cancel {xs ys x y : List String} (hxs : ∀ s ∈ xs, IsHashText s) (hys : ∀ s ∈ ys, IsHashText s)
    (hx : Delimited x) (hy : Delimited y) (h : xs ++ x = ys ++ y) : xs = ys ∧ x = y := by
  induction xs generalizing ys with
  | nil =>
    cases ys with
    | nil => exact ⟨rfl, h⟩
    | cons s ys => exact absurd (hys s List.mem_cons_self) (hx s (by rw [show x = _ from h]; rfl))
  | cons s xs ih =>
    cases ys with
    | nil => exact absurd (hxs s List.mem_cons_self) (hy s (by rw [← show _ = y from h]; rfl))
    | cons t ys =>
      obtain ⟨rfl, hr⟩ := List.cons.inj h
      obtain ⟨rfl, hxy⟩ := ih (fun s hs => hxs s (List.mem_cons_of_mem _ hs))
        (fun s hs => hys s (List.mem_cons_of_mem _ hs)) hr
      exact ⟨rfl, hxy⟩

/-! ### The lines of a document -/

def Question.lines : Question → List String
  | evaluate type bindings =>
    "" :: "false" :: typeText type :: "" :: "" :: (if bindings.isEmpty then [] else [hexText bindings.hash])
  | subtype source target capture =>
    "" :: (if capture then "true" else "false") :: "" :: typeText source :: typeText target :: []
  | instantiate name args => name :: "false" :: "" :: "" :: "" :: args.map typeText
  | other _ => ["", "false", "", "", ""]

namespace Document

def paramLines (p : ParamDecl) : List String := [p.name, typeText p.constraint, typeText p.default]

def declarationLines (d : Declaration) : List String :=
  "decl" :: d.name :: (d.params.flatMap paramLines ++ [typeText d.body])

def queryLines (q : Query) : List String := "query" :: q.name :: q.question.kind :: q.question.lines

/-- The lines that the fingerprint of a document sums up. -/
def lines (doc : Document) (s : Settings) : List String :=
  toString s.maxDepth :: s.templateTimeout.print ::
    (doc.declarations.flatMap declarationLines ++ doc.queries.flatMap queryLines)

def stream (doc : Document) (s : Settings) : Bytes :=
  doc.queries.foldl addQuery (doc.declarations.foldl addDeclaration
    ((Bytes.line {} (toString s.maxDepth)).line s.templateTimeout.print))

theorem fingerprint_stream (doc : Document) (s : Settings) : doc.fingerprint s = hexText (doc.stream s).hash := rfl

theorem toList_typeLine (b : Bytes) (t : Ty) : (b.typeLine t).toList = b.toList ++ lineBytes (typeText t) :=
  Bytes.toList_line b _

theorem toList_addParam (b : Bytes) (p : ParamDecl) :
    (addParam b p).toList = b.toList ++ (paramLines p).flatMap lineBytes := by
  simp [addParam, toList_typeLine, paramLines]

theorem toList_addDeclaration (b : Bytes) (d : Declaration) :
    (addDeclaration b d).toList = b.toList ++ (declarationLines d).flatMap lineBytes := by
  rw [addDeclaration, toList_typeLine, toList_foldl toList_addParam]
  simp [declarationLines, List.flatMap_assoc]

theorem typeText_absent : typeText .absent = "" := rfl

theorem toList_addQuery (b : Bytes) (q : Query) :
    (addQuery b q).toList = b.toList ++ (queryLines q).flatMap lineBytes := by
  obtain ⟨name, line, question⟩ := q
  cases question with
  | evaluate type bindings =>
    by_cases he : bindings.isEmpty = true
    · simp [addQuery, addParts, toList_typeLine, queryLines, Question.lines, typeText_absent, he]
    · simp [addQuery, addParts, toList_typeLine, queryLines, Question.lines, typeText_absent, he]
  | subtype source target capture =>
    simp [addQuery, addParts, toList_typeLine, queryLines, Question.lines, typeText_absent]
  | instantiate decl args =>
    simp only [addQuery]
    rw [toList_foldl toList_typeLine]
    simp [addParts, toList_typeLine, queryLines, Question.lines, typeText_absent, List.flatMap_map]
  | other kind => simp [addQuery, addParts, toList_typeLine, queryLines, Question.lines, typeText_absent]

theorem toList_stream (doc : Document) (s : Settings) : (doc.stream s).toList = (doc.lines s).flatMap lineBytes := by
  rw [stream, toList_foldl toList_addQuery, toList_foldl toList_addDeclaration]
  simp [lines, List.flatMap_assoc]

/-! ### Reading the lines -/

theorem delimited_queries (qs : List Query) : Delimited (qs.flatMap queryLines) := by
  cases qs with
  | nil => exact delimited_nil
  | cons q qs => exact delimited_cons not_isHashText_query

theorem delimited_declarations (ds : List Declaration) (qs : List Query) :
    Delimited (ds.flatMap declarationLines ++ qs.flatMap queryLines) := by
  cases ds with
  | nil => exact delimited_queries qs
  | cons d ds => exact delimited_cons not_isHashText_decl

/-- The parameters and the body of a declaration are read up to the next declaration or query. A parameter is
    followed by a line of a hash, a body is not. -/
theorem params_cancel {ps qs : List ParamDecl} {s t : String} {x y : List String} (hx : Delimited x)
    (hy : Delimited y) (h : ps.flatMap paramLines ++ s :: x = qs.flatMap paramLines ++ t :: y) : x = y := by
  induction ps generalizing qs with
  | nil =>
    cases qs with
    | nil => exact (List.cons.inj h).2
    | cons q qs =>
      have rest := (List.cons.inj h).2
      exact absurd (isHashText_typeText q.constraint) (hx _ (by rw [rest]; rfl))
  | cons p ps ih =>
    cases qs with
    | nil =>
      have rest := (List.cons.inj h).2
      exact absurd (isHashText_typeText p.constraint) (hy _ (by rw [← rest]; rfl))
    | cons q qs =>
      obtain ⟨-, h⟩ := List.cons.inj h
      obtain ⟨-, h⟩ := List.cons.inj h
      obtain ⟨-, h⟩ := List.cons.inj h
      exact ih h

theorem declarations_cancel {ds es : List Declaration} {qs rs : List Query}
    (h : ds.flatMap declarationLines ++ qs.flatMap queryLines = es.flatMap declarationLines ++ rs.flatMap queryLines) :
    qs.flatMap queryLines = rs.flatMap queryLines := by
  have word : "decl" ≠ "query" := by decide
  induction ds generalizing es with
  | nil =>
    cases es with
    | nil => exact h
    | cons e es =>
      cases qs with
      | nil => cases h
      | cons q qs => exact absurd (List.cons.inj h).1.symm word
  | cons d ds ih =>
    cases es with
    | nil =>
      cases rs with
      | nil => cases h
      | cons r rs => exact absurd (List.cons.inj h).1 word
    | cons e es =>
      simp only [List.flatMap_cons, declarationLines, List.cons_append, List.append_assoc, List.nil_append,
        List.cons.injEq, true_and] at h
      exact ih (params_cancel (delimited_declarations ds qs) (delimited_declarations es rs) h.2)

end Document

/-- A question that lines tell; nothing is told of a question of another kind. -/
def Question.Known (H : Bytes → Prop) (α : Ty.Annotation) : Question → Prop
  | evaluate type bindings => type.Known H α ∧ bindings.Known H α
  | subtype source target _ => source.Known H α ∧ target.Known H α
  | instantiate _ args => ∀ t ∈ args, t.Known H α
  | other _ => False

section Collisionless
variable {H : Bytes → Prop} (C : Collisionless H) {α : Ty.Annotation}
include C

theorem typeText_inj {t u : Ty} (ht : t.Known H α) (hu : u.Known H α) (h : typeText t = typeText u) : t = u := by
  have missing : ∀ {t : Ty}, t.isAbsent = true → t = .absent := fun {t} ht => by
    cases t with
    | absent => rfl
    | _ => cases ht
  unfold typeText at h
  split at h
  · rename_i hta
    split at h
    · rename_i hua
      rw [missing hta, missing hua]
    · exact absurd h.symm (hexText_ne_empty _)
  · split at h
    · exact absurd h (hexText_ne_empty _)
    · exact Ty.eq_of_hash C ht hu (hexText_inj h)

theorem typeTexts_inj {ts us : List Ty} (ht : ∀ t ∈ ts, t.Known H α) (hu : ∀ u ∈ us, u.Known H α)
    (h : ts.map typeText = us.map typeText) : ts = us := by
  induction ts generalizing us with
  | nil => exact (List.map_eq_nil_iff.1 h.symm).symm
  | cons t ts ih =>
    cases us with
    | nil => cases h
    | cons u us =>
      obtain ⟨hh, hr⟩ := List.cons.inj h
      rw [typeText_inj C (ht t List.mem_cons_self) (hu u List.mem_cons_self) hh,
        ih (fun t m => ht t (List.mem_cons_of_mem _ m)) (fun u m => hu u (List.mem_cons_of_mem _ m)) hr]

/-- The line of bindings tells them; where there are none, there is no line. -/
theorem bindings_inj {s s' : Subst} (hs : s.Known H α) (hs' : s'.Known H α)
    (h : (if s.isEmpty then [] else [hexText s.hash]) = (if s'.isEmpty then [] else [hexText s'.hash])) : s = s' := by
  have none : ∀ {s : Subst}, s.isEmpty = true → s = .empty := fun {s} h => by
    obtain ⟨es⟩ := s
    cases es with
    | nil => rfl
    | cons => cases h
  split at h
  · rename_i he
    split at h
    · rename_i he'
      rw [none he, none he']
    · cases h
  · split at h
    · cases h
    · exact Subst.eq_of_hash C hs hs' (hexText_inj (List.singleton_inj.1 h))

theorem Question.lines_cancel {a b : Question} {x y : List String} (ha : a.Known H α) (hb : b.Known H α)
    (hx : Delimited x) (hy : Delimited y) (hk : a.kind = b.kind) (h : a.lines ++ x = b.lines ++ y) :
    a = b ∧ x = y := by
  have hashLine : ∀ {s : Subst}, ∀ l ∈ (if s.isEmpty then [] else [hexText s.hash]), IsHashText l := by
    intro s l hl
    split at hl
    · cases hl
    · exact Or.inr ⟨_, List.mem_singleton.1 hl⟩
  have hashLines : ∀ {ts : List Ty}, ∀ l ∈ ts.map typeText, IsHashText l := by
    intro ts l hl
    obtain ⟨t, -, rfl⟩ := List.mem_map.1 hl
    exact isHashText_typeText t
  cases a with
  | evaluate t s =>
    cases b with
    | evaluate u s' =>
      simp only [lines, List.cons_append, List.cons.injEq, true_and] at h
      obtain ⟨ht, h⟩ := h
      obtain ⟨hs, hxy⟩ := hashes_cancel hashLine hashLine hx hy h
      rw [typeText_inj C ha.1 hb.1 ht, bindings_inj C ha.2 hb.2 hs]
      exact ⟨rfl, hxy⟩
    | subtype | instantiate => simp [kind] at hk
    | other => exact hb.elim
  | subtype s t c =>
    cases b with
    | subtype s' t' c' =>
      simp only [lines, List.cons_append, List.nil_append, List.cons.injEq, true_and] at h
      obtain ⟨hc, hs, ht, hxy⟩ := h
      have capture : c = c' := by
        cases c <;> cases c' <;> first | rfl | exact absurd hc (by decide)
      rw [typeText_inj C ha.1 hb.1 hs, typeText_inj C ha.2 hb.2 ht, capture]
      exact ⟨rfl, hxy⟩
    | evaluate | instantiate => simp [kind] at hk
    | other => exact hb.elim
  | instantiate n ts =>
    cases b with
    | instantiate m us =>
      simp only [lines, List.cons_append, List.cons.injEq, true_and] at h
      obtain ⟨rfl, h⟩ := h
      obtain ⟨ht, hxy⟩ := hashes_cancel hashLines hashLines hx hy h
      rw [typeTexts_inj C ha hb ht]
      exact ⟨rfl, hxy⟩
    | evaluate | subtype => simp [kind] at hk
    | other => exact hb.elim
  | other => exact ha.elim

namespace Document

theorem queries_inj {qs rs : List Query} (hq : ∀ q ∈ qs, q.question.Known H α) (hr : ∀ r ∈ rs, r.question.Known H α)
    (h : qs.flatMap queryLines = rs.flatMap queryLines) :
    qs.map (fun q => (q.name, q.question)) = rs.map fun r => (r.name, r.question) := by
  induction qs generalizing rs with
  | nil =>
    cases rs with
    | nil => rfl
    | cons r rs => cases h
  | cons q qs ih =>
    cases rs with
    | nil => cases h
    | cons r rs =>
      simp only [List.flatMap_cons, queryLines, List.cons_append, List.cons.injEq, true_and] at h
      obtain ⟨hn, hk, h⟩ := h
      obtain ⟨hqr, h⟩ := Question.lines_cancel C (hq q List.mem_cons_self) (hr r List.mem_cons_self)
        (delimited_queries qs) (delimited_queries rs) hk h
      rw [List.map_cons, List.map_cons, hn, hqr, ih (fun q m => hq q (List.mem_cons_of_mem _ m))
        (fun r m => hr r (List.mem_cons_of_mem _ m)) h]

end Document
end Collisionless

namespace Document

/-- No name that stands on a line holds a zero character. -/
structure Legible (doc : Document) : Prop where
  declarations : ∀ d ∈ doc.declarations, NulFree d.name
  params : ∀ d ∈ doc.declarations, ∀ p ∈ d.params, NulFree p.name
  queries : ∀ q ∈ doc.queries, NulFree q.name
  instantiated : ∀ q ∈ doc.queries, ∀ name args, q.question = .instantiate name args → NulFree name

theorem nulFree_question {H : Bytes → Prop} {α : Ty.Annotation} {q : Question} (hk : q.Known H α)
    (hn : ∀ name args, q = .instantiate name args → NulFree name) : ∀ s ∈ q.kind :: q.lines, NulFree s := by
  intro s hs
  have hash : ∀ t, NulFree (typeText t) := fun t => (isHashText_typeText t).nulFree
  cases q with
  | evaluate t b =>
    simp only [Question.kind, Question.lines, List.mem_cons] at hs
    rcases hs with rfl | rfl | rfl | rfl | rfl | rfl | hs
    all_goals first | exact hash t | decide | skip
    split at hs
    · cases hs
    · exact List.mem_singleton.1 hs ▸ nulFree_hexText _
  | subtype a b capture =>
    simp only [Question.kind, Question.lines, List.mem_cons, List.not_mem_nil, or_false] at hs
    rcases hs with rfl | rfl | rfl | rfl | rfl | rfl
    all_goals first | exact hash a | exact hash b | decide | (split <;> decide)
  | instantiate name args =>
    simp only [Question.kind, Question.lines, List.mem_cons] at hs
    rcases hs with rfl | rfl | rfl | rfl | rfl | rfl | hs
    all_goals first | exact hn _ _ rfl | decide | skip
    obtain ⟨t, -, rfl⟩ := List.mem_map.1 hs
    exact hash t
  | other => exact hk.elim

theorem Legible.lines {doc : Document} (h : doc.Legible) {H : Bytes → Prop} {α : Ty.Annotation}
    (hk : ∀ q ∈ doc.queries, q.question.Known H α) (s : Settings) : ∀ l ∈ doc.lines s, NulFree l := by
  have hash : ∀ t, NulFree (typeText t) := fun t => (isHashText_typeText t).nulFree
  intro l hl
  simp only [Document.lines, List.mem_cons, List.mem_append, List.mem_flatMap] at hl
  rcases hl with rfl | rfl | ⟨d, hd, hl⟩ | ⟨q, hq, hl⟩
  · exact nulFree_int _
  · exact nulFree_duration _
  · simp only [declarationLines, List.mem_cons, List.mem_append, List.mem_flatMap, List.not_mem_nil, or_false] at hl
    rcases hl with rfl | rfl | ⟨p, hp, hl⟩ | rfl
    · decide
    · exact h.declarations d hd
    · simp only [paramLines, List.mem_cons, List.not_mem_nil, or_false] at hl
      rcases hl with rfl | rfl | rfl
      · exact h.params d hd p hp
      · exact hash _
      · exact hash _
    · exact hash _
  · rcases List.mem_cons.1 hl with rfl | hl
    · decide
    rcases List.mem_cons.1 hl with rfl | hl
    · exact h.queries q hq
    · exact nulFree_question (hk q hq) (h.instantiated q hq) l hl

/-- Documents with equal fingerprints ask the same questions by the same names, under the same limit. -/
theorem eq_of_fingerprint {H : Bytes → Prop} (C : Collisionless H) {α : Ty.Annotation} {doc doc' : Document}
    {s s' : Settings} (hH : H (doc.stream s)) (hH' : H (doc'.stream s')) (hl : doc.Legible) (hl' : doc'.Legible)
    (hk : ∀ q ∈ doc.queries, q.question.Known H α) (hk' : ∀ q ∈ doc'.queries, q.question.Known H α)
    (h : (doc.stream s).hash = (doc'.stream s').hash) :
    s.maxDepth = s'.maxDepth ∧
      doc.queries.map (fun q => (q.name, q.question)) = doc'.queries.map fun q => (q.name, q.question) := by
  have bytes := congrArg Bytes.toList (C.apart _ _ hH hH' h)
  rw [toList_stream, toList_stream] at bytes
  have same := lines_inj (hl.lines hk s) (hl'.lines hk' s') bytes
  obtain ⟨hd, same⟩ := List.cons.inj same
  obtain ⟨-, same⟩ := List.cons.inj same
  exact ⟨int_toString_inj hd, queries_inj C hk hk' (declarations_cancel same)⟩

-- A name that holds zero characters stands for several lines: `n` is a question about `number` in the first document
-- and one about `string` in the second.
example :
    let lines (name : String) (t : Ty) (next : String) :=
      name ++ "\x00eval\x00\x00false\x00" ++ typeText t ++ "\x00\x00\x00query\x00" ++ next
    let ask (name : String) (t : Ty) : Query := ⟨name, 0, .evaluate t {}⟩
    (Document.mk "" [] [ask (lines "n" .string "z") .boolean, ask "n" .number]).fingerprint .usual =
      (Document.mk "" [] [ask "n" .string, ask (lines "z" .boolean "n") .number]).fingerprint .usual := by
  decide +kernel

end Document

end TypeCalculus

import TypeCalculus.Proofs.Document.NormalForm
import TypeCalculus.Proofs.Document.Outcome
import TypeCalculus.Proofs.Substitute
import TypeCalculus.Document.Parse

/-! What reading a document ensures of it, whatever the text. -/

namespace TypeCalculus

def Declaration.types (d : Declaration) : List Ty := d.body :: d.params.flatMap fun p => [p.constraint, p.default]

def Question.types : Question → List Ty
  | evaluate type bindings => type :: bindings.entries.map (·.2)
  | subtype source target _ => [source, target]
  | instantiate _ args => args
  | other _ => []

namespace Document
open Yaml (Node Graph)
open Ty (Normal)

def types (doc : Document) : List Ty :=
  doc.declarations.flatMap Declaration.types ++ doc.queries.flatMap (·.question.types)

/-- What reading a document ensures: its types are in normal form, its queries have names of their own, and each
    is of a kind that is answered. -/
structure Posed (doc : Document) : Prop where
  normal : ∀ t ∈ doc.types, Normal t
  distinct : (doc.queries.map (·.name)).Nodup
  kinds : ∀ q ∈ doc.queries, ∀ kind, q.question ≠ .other kind

/-! ### Results of reading -/

section Reads
variable {ε ε' α β : Type} {P : α → Prop} {Q : β → Prop}

/-- Every result satisfies the property. -/
abbrev Reads (P : α → Prop) (x : Except ε α) : Prop := (Results.except ε).All P x

theorem Reads.pure {a : α} (h : P a) : Reads P (Pure.pure a : Except ε α) := (Results.except ε).pure h

theorem Reads.bind {x : Except ε α} {f : α → Except ε β} (hx : Reads P x) (hf : ∀ a, P a → Reads Q (f a)) :
    Reads Q (x >>= f) :=
  (Results.except ε).bind hx hf

theorem Reads.after {x : Except ε α} {f : α → Except ε β} (h : ∀ a, Reads Q (f a)) : Reads Q (x >>= f) :=
  Results.except_after h

theorem Reads.mapM {f : β → Except ε α} {xs : List β} (h : ∀ x ∈ xs, Reads P (f x)) :
    Reads (fun ys => ∀ y ∈ ys, P y) (xs.mapM f) :=
  (Results.except ε).mapM h

theorem Reads.mapError {x : Except ε α} {f : ε → ε'} (h : Reads P x) : Reads P (x.mapError f) := by
  intro a ha
  cases x with
  | error => cases ha
  | ok b => exact Except.ok.inj ha ▸ h b rfl

theorem reads_throw (e : ε) (f : α → Except ε β) : Reads Q (throw e >>= f) := by
  intro b h
  cases h

end Reads

section Parse
variable {typeOf : Node → Except BuildError Ty} (normal : ∀ n, Reads Normal (typeOf n))
include normal

theorem normal_paramOf (p : ParamEntry) :
    Reads (fun d : ParamDecl => Normal d.constraint ∧ Normal d.default) (paramOf typeOf p) := by
  have optional : ∀ n, Reads Normal (optionalOf typeOf n) := by
    intro n
    cases n with
    | none => exact Reads.pure Ty.normal_absent
    | some n => exact normal _
  refine Reads.bind (optional _) fun c hc => ?_
  exact Reads.bind (optional _) fun d hd => Reads.pure ⟨hc, hd⟩

theorem normal_declarationOf (d : DeclarationEntry) :
    Reads (fun d : Declaration => ∀ t ∈ d.types, Normal t) (declarationOf typeOf d) := by
  refine Reads.bind
    (Reads.mapError (Reads.mapM fun p _ => normal_paramOf normal p)) fun ps hps => ?_
  split
  · exact nofun
  · refine Reads.bind (Reads.mapError (normal _)) fun body hb => ?_
    refine Reads.pure fun t ht => ?_
    rcases List.mem_cons.1 ht with rfl | ht
    · exact hb
    · obtain ⟨p, hp, ht⟩ := List.mem_flatMap.1 ht
      rcases List.mem_cons.1 ht with rfl | ht
      · exact (hps p hp).1
      · exact List.mem_singleton.1 ht ▸ (hps p hp).2

theorem normal_declarationsOf (index : Nat) (seen : List String) (ds : List DeclarationEntry) :
    Reads (fun ds : List Declaration => ∀ d ∈ ds, ∀ t ∈ d.types, Normal t)
      (declarationsOf typeOf index seen ds) := by
  induction ds generalizing index seen with
  | nil => exact Reads.pure nofun
  | cons d ds ih =>
    unfold declarationsOf
    dsimp only
    split
    · exact reads_throw _ _
    split
    · exact reads_throw _ _
    refine Reads.bind (Reads.mapError (normal_declarationOf normal d)) fun e he => ?_
    refine Reads.bind (ih _ _) fun es hes => Reads.pure ?_
    exact List.forall_mem_cons.2 ⟨he, hes⟩

/-- A question about types in normal form, of a kind that is answered. -/
def Poses (q : Question) : Prop := (∀ t ∈ q.types, Normal t) ∧ ∀ kind, q ≠ .other kind

theorem normal_bindingsOf (entries : List (String × Node)) :
    Reads (fun s : Subst => s.Forall Normal) (bindingsOf typeOf entries) := by
  have bound : Reads (fun es : List (String × Ty) => ∀ e ∈ es, Normal e.2)
      ((entries.mergeSort fun a b => decide (a.1 ≤ b.1)).mapM fun e => do
        return (e.1, ← (typeOf e.2).mapError (QueryFault.binding e.1))) := by
    refine Reads.mapM fun e _ => ?_
    exact Reads.bind (Reads.mapError (normal _)) fun t ht =>
      Reads.pure ht
  exact Reads.bind bound fun es hes => Reads.pure (Subst.forall_ofList hes)

theorem poses_evaluationOf (q : QueryEntry) :
    Reads (fun qs => ∀ q ∈ qs, Poses q) (evaluationOf typeOf q) := by
  unfold evaluationOf
  split
  · exact Reads.pure nofun
  · refine Reads.bind (Reads.mapError (normal _)) fun t ht => ?_
    refine Reads.bind (normal_bindingsOf normal _) fun s hs => Reads.pure ?_
    refine List.forall_mem_singleton.2 ⟨fun u hu => ?_, nofun⟩
    rcases List.mem_cons.1 hu with rfl | hu
    · exact ht
    · obtain ⟨e, he, rfl⟩ := List.mem_map.1 hu
      exact hs e he

theorem poses_comparisonOf (q : QueryEntry) :
    Reads (fun qs => ∀ q ∈ qs, Poses q) (comparisonOf typeOf q) := by
  unfold comparisonOf
  split
  · exact Reads.pure nofun
  · split
    · refine Reads.bind (Reads.mapError (normal _)) fun s hs => ?_
      refine Reads.bind (Reads.mapError (normal _)) fun t ht => ?_
      refine Reads.pure (List.forall_mem_singleton.2 ⟨fun u hu => ?_, nofun⟩)
      rcases List.mem_cons.1 hu with rfl | hu
      · exact hs
      · exact List.mem_singleton.1 hu ▸ ht
    · exact nofun

theorem normal_argumentsOf (index : Nat) (ns : List Node) :
    Reads (fun ts => ∀ t ∈ ts, Normal t) (argumentsOf typeOf index ns) := by
  induction ns generalizing index with
  | nil => exact Reads.pure nofun
  | cons n ns ih =>
    refine Reads.bind (Reads.mapError (normal _)) fun t ht => ?_
    refine Reads.bind (ih _) fun ts hts => Reads.pure ?_
    exact List.forall_mem_cons.2 ⟨ht, hts⟩

theorem poses_instantiationOf (q : QueryEntry) :
    Reads (fun qs => ∀ q ∈ qs, Poses q) (instantiationOf typeOf q) := by
  unfold instantiationOf
  split
  · exact Reads.pure nofun
  · dsimp only
    split
    · exact reads_throw _ _
    · refine Reads.bind (normal_argumentsOf normal 0 _) fun ts hts => ?_
      exact Reads.pure (List.forall_mem_singleton.2 ⟨hts, nofun⟩)

theorem poses_questionOf (q : QueryEntry) : Reads Poses (questionOf typeOf q) := by
  refine Reads.bind (poses_evaluationOf normal q) fun as ha => ?_
  refine Reads.bind (poses_comparisonOf normal q) fun bs hb => ?_
  refine Reads.bind (poses_instantiationOf normal q) fun cs hc => ?_
  dsimp only
  split
  · rename_i question hq
    have poses : Poses question := by
      have hm : question ∈ as ++ bs ++ cs := hq ▸ List.mem_cons_self
      rcases List.mem_append.1 hm with hm | hm
      · rcases List.mem_append.1 hm with hm | hm
        · exact ha _ hm
        · exact hb _ hm
      · exact hc _ hm
    split
    · exact reads_throw _ _
    · exact Reads.pure poses
  · exact nofun

/-- Queries pose questions under names that are new and differ. -/
structure Distinct (seen : List String) (qs : List Query) : Prop where
  poses : ∀ q ∈ qs, Poses q.question
  new : ∀ q ∈ qs, q.name ∉ seen
  nodup : (qs.map (·.name)).Nodup

theorem distinct_queriesOf (index : Nat) (seen : List String) (qs : List QueryEntry) :
    Reads (Distinct seen) (queriesOf typeOf index seen qs) := by
  induction qs generalizing index seen with
  | nil => exact Reads.pure ⟨nofun, nofun, List.nodup_nil⟩
  | cons q qs ih =>
    unfold queriesOf
    dsimp only
    split
    · exact reads_throw _ _
    split
    · exact reads_throw _ _
    rename_i hs
    have hs : q.name ∉ seen := by simpa using hs
    refine Reads.bind (Reads.mapError (poses_questionOf normal q)) fun question hq => ?_
    refine Reads.bind (ih _ _) fun rs hrs => Reads.pure ?_
    refine ⟨List.forall_mem_cons.2 ⟨hq, hrs.poses⟩, List.forall_mem_cons.2 ⟨hs, fun r hr => ?_⟩, ?_⟩
    · exact fun hm => hrs.new r hr (List.mem_cons_of_mem _ hm)
    · refine List.nodup_cons.2 ⟨fun hm => ?_, hrs.nodup⟩
      obtain ⟨r, hr, he⟩ := List.mem_map.1 hm
      exact hrs.new r hr (he ▸ List.mem_cons_self)

end Parse

/-- What is read from a text is well posed. -/
theorem posed_of_parse {path text : String} {doc : Document} (h : parse path text = .ok doc) : doc.Posed := by
  have all : Reads Posed (parse path text) := by
    refine Reads.after fun p => ?_
    have normal : ∀ n, Reads Normal (build p.1 n) := fun _ _ h => normal_build h
    refine Reads.bind (normal_declarationsOf normal 0 [] _) fun ds hds => ?_
    refine Reads.bind (distinct_queriesOf normal 0 [] _) fun qs hqs => Reads.pure ?_
    refine ⟨fun t ht => ?_, hqs.nodup, fun q hq => (hqs.poses q hq).2⟩
    rcases List.mem_append.1 ht with ht | ht
    · obtain ⟨d, hd, ht⟩ := List.mem_flatMap.1 ht
      exact hds d hd t ht
    · obtain ⟨q, hq, ht⟩ := List.mem_flatMap.1 ht
      exact (hqs.poses q hq).1 t ht
  exact all doc h

/-! ### Within an allowance

What is read where building stops after some nested steps is read as well where it goes on, so a document can be read by
evaluation. -/

/-- The type of a node that nests no deeper than the allowance. -/
def within (steps : Nat) (g : Graph) (n : Node) : Except BuildError Ty :=
  settle n (buildWithin g steps n).run

/-- The second has every result of the first. -/
def Confirms {ε α : Type} (x y : Except ε α) : Prop := ∀ a, x = .ok a → y = .ok a

theorem confirms_within (steps : Nat) (g : Graph) (n : Node) : Confirms (within steps g n) (build g n) := by
  intro t h
  rw [build, outcome_of_within (settle_eq_ok h)]
  rfl

section Confirms
variable {ε ε' α β : Type}

theorem Confirms.refl (x : Except ε α) : Confirms x x := fun _ h => h

theorem Confirms.bind {x y : Except ε α} {f f' : α → Except ε β} (hx : Confirms x y) (hf : ∀ a, Confirms (f a) (f' a)) :
    Confirms (x >>= f) (y >>= f') := by
  intro b h
  cases x with
  | error => cases h
  | ok a =>
    rw [hx a rfl]
    exact hf a b h

theorem confirms_throw (e : ε) (f : α → Except ε β) (y : Except ε β) : Confirms (throw e >>= f) y := by
  intro b h
  cases h

theorem Confirms.mapError {x y : Except ε α} (h : Confirms x y) (f : ε → ε') : Confirms (x.mapError f) (y.mapError f) := by
  intro a ha
  cases x with
  | error => cases ha
  | ok b =>
    rw [h b rfl]
    exact ha

theorem Confirms.mapM {f f' : α → Except ε β} (h : ∀ a, Confirms (f a) (f' a)) (xs : List α) :
    Confirms (xs.mapM f) (xs.mapM f') := by
  induction xs with
  | nil => exact .refl _
  | cons x xs ih =>
    rw [List.mapM_cons, List.mapM_cons]
    exact (h x).bind fun _ => ih.bind fun _ => .refl _

variable {typeOf typeOf' : Node → Except BuildError Ty} (h : ∀ n, Confirms (typeOf n) (typeOf' n))
include h

theorem confirms_declarationOf (d : DeclarationEntry) : Confirms (declarationOf typeOf d) (declarationOf typeOf' d) := by
  have optional : ∀ n, Confirms (optionalOf typeOf n) (optionalOf typeOf' n) := by
    intro n
    cases n with
    | none => exact .refl _
    | some n => exact h n
  have param : ∀ p, Confirms (paramOf typeOf p) (paramOf typeOf' p) := fun p =>
    (optional _).bind fun _ => (optional _).bind fun _ => .refl _
  refine ((Confirms.mapM param _).mapError _).bind fun _ => ?_
  split
  · exact .refl _
  · exact ((h _).mapError _).bind fun _ => .refl _

theorem confirms_declarationsOf (index : Nat) (seen : List String) (ds : List DeclarationEntry) :
    Confirms (declarationsOf typeOf index seen ds) (declarationsOf typeOf' index seen ds) := by
  induction ds generalizing index seen with
  | nil => exact .refl _
  | cons d ds ih =>
    unfold declarationsOf
    dsimp only
    split
    · exact confirms_throw _ _ _
    split
    · exact confirms_throw _ _ _
    exact ((confirms_declarationOf h d).mapError _).bind fun _ => (ih _ _).bind fun _ => .refl _

theorem confirms_argumentsOf (index : Nat) (ns : List Node) :
    Confirms (argumentsOf typeOf index ns) (argumentsOf typeOf' index ns) := by
  induction ns generalizing index with
  | nil => exact .refl _
  | cons n ns ih => exact ((h n).mapError _).bind fun _ => (ih _).bind fun _ => .refl _

theorem confirms_questionOf (q : QueryEntry) : Confirms (questionOf typeOf q) (questionOf typeOf' q) := by
  have bindings : ∀ entries, Confirms (bindingsOf typeOf entries) (bindingsOf typeOf' entries) := fun entries =>
    (Confirms.mapM (fun _ => ((h _).mapError _).bind fun _ => .refl _) _).bind fun _ => .refl _
  have evaluation : Confirms (evaluationOf typeOf q) (evaluationOf typeOf' q) := by
    unfold evaluationOf
    split
    · exact .refl _
    · exact ((h _).mapError _).bind fun _ => (bindings _).bind fun _ => .refl _
  have comparison : Confirms (comparisonOf typeOf q) (comparisonOf typeOf' q) := by
    unfold comparisonOf
    split
    · exact .refl _
    · split
      · exact ((h _).mapError _).bind fun _ => ((h _).mapError _).bind fun _ => .refl _
      · exact .refl _
  have instantiation : Confirms (instantiationOf typeOf q) (instantiationOf typeOf' q) := by
    unfold instantiationOf
    split
    · exact .refl _
    · dsimp only
      split
      · exact confirms_throw _ _ _
      · exact (confirms_argumentsOf h 0 _).bind fun _ => .refl _
  exact evaluation.bind fun _ => comparison.bind fun _ => instantiation.bind fun _ => .refl _

theorem confirms_queriesOf (index : Nat) (seen : List String) (qs : List QueryEntry) :
    Confirms (queriesOf typeOf index seen qs) (queriesOf typeOf' index seen qs) := by
  induction qs generalizing index seen with
  | nil => exact .refl _
  | cons q qs ih =>
    unfold queriesOf
    dsimp only
    split
    · exact confirms_throw _ _ _
    split
    · exact confirms_throw _ _ _
    exact ((confirms_questionOf h q).mapError _).bind fun _ => (ih _ _).bind fun _ => .refl _

end Confirms

theorem parse_of_within {steps : Nat} {path text : String} {doc : Document}
    (h : parseBy (within steps) path text = .ok doc) : parse path text = .ok doc := by
  refine Confirms.bind (.refl _) (fun p => ?_) doc h
  have types := confirms_within steps p.1
  exact (confirms_declarationsOf types 0 [] _).bind fun _ => (confirms_queriesOf types 0 [] _).bind fun _ => .refl _

end Document

end TypeCalculus

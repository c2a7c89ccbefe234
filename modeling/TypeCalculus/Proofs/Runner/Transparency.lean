import Mathlib.Data.List.Nodup
import TypeCalculus.Proofs.Evaluate.NormalForm
import TypeCalculus.Proofs.Runner.Answers

/-! A store does not show. Whatever documents are run, by however many runners that share a store, each run shows
    what it would show without the store, as long as parameters of one name are annotated alike and no name on a line
    of a fingerprint holds a zero character. The key that results are stored by then tells the limit, the
    declarations and the questions, hence the answers. -/

namespace TypeCalculus

/-! ### What is shown -/

structure Shown where
  name : String
  kind : String
  output : String
  error : Option String
  deriving DecidableEq

def Result.shown (r : Result) : Shown := ⟨r.name, r.kind, r.output, r.error.map QueryError.message⟩

/-- A document whose declarations and questions are told by hashes and lines. -/
structure Document.Known (H : Bytes → Prop) (α : Ty.Annotation) (doc : Document) : Prop where
  declarations : ∀ d ∈ doc.declarations, d.Known H α
  questions : ∀ q ∈ doc.queries, q.question.Known H α
  legible : doc.Legible
  distinct : (doc.queries.map (·.name)).Nodup

/-- A document that is run: what its results depend on, and what they are stored by. -/
structure Run where
  doc : Document
  settings : Settings
  declared : Declarations

namespace Run

def key (k : Run) : String := k.doc.resultKey k.settings k.declared

/-- A checker that has the limit and the declarations of the run and remembers nothing. -/
def checker (k : Run) : Checker := { Checker.new k.settings.maxDepth (-1) with decls := k.declared }

/-- What is shown of a query that is answered afresh. -/
def shown (k : Run) (q : Query) : Shown :=
  match (Runner.answer k.checker q.question).1 with
  | .ok (output, _) => ⟨q.name, q.question.kind, output, none⟩
  | .error e => ⟨q.name, q.question.kind, "", some e.message⟩

/-- What is hashed for the key of a run is among the streams, and not too much is declared. -/
structure Framed (H : Bytes → Prop) (k : Run) : Prop where
  document : H (k.doc.stream k.settings)
  declared : H k.declared.stream
  size : k.declared.entries.length < UInt64.size

/-- A run whose key tells what its results depend on. -/
structure Known (H : Bytes → Prop) (α : Ty.Annotation) (k : Run) : Prop where
  framed : k.Framed H
  doc : k.doc.Known H α
  declared : ∀ d ∈ k.declared.entries, d.Known H α

/-- Queries of one name are the same question in all runs with one key, and are shown alike. -/
theorem shown_of_key {H : Bytes → Prop} (C : Collisionless H) {α : Ty.Annotation} {k k' : Run} (hk : k.Known H α)
    (hk' : k'.Known H α) (h : k.key = k'.key) {q q' : Query} (hq : q ∈ k.doc.queries) (hq' : q' ∈ k'.doc.queries)
    (hn : q.name = q'.name) : q.question = q'.question ∧ k.shown q = k'.shown q' := by
  unfold key Document.resultKey at h
  rw [Document.fingerprint_stream, Document.fingerprint_stream] at h
  obtain ⟨hd, hs⟩ := dotted_inj h
  obtain ⟨depth, queries⟩ := Document.eq_of_fingerprint C hk.framed.document hk'.framed.document hk.doc.legible
    hk'.doc.legible hk.doc.questions hk'.doc.questions hd
  have declared := Declarations.eq_of_hash C ⟨hk.framed.declared, hk.framed.size, hk.declared⟩
    ⟨hk'.framed.declared, hk'.framed.size, hk'.declared⟩ hs
  have question : q.question = q'.question := by
    have hm : (q.name, q.question) ∈ k'.doc.queries.map fun q => (q.name, q.question) :=
      queries ▸ List.mem_map_of_mem hq
    obtain ⟨q'', hq'', he⟩ := List.mem_map.1 hm
    obtain ⟨hname, hquestion⟩ := Prod.mk.inj he
    rw [← hquestion, List.inj_on_of_nodup_map hk'.doc.distinct hq'' hq' (hname.trans hn)]
  have checker : k.checker = k'.checker := by
    unfold Run.checker
    rw [depth, declared]
  refine ⟨question, ?_⟩
  unfold shown
  rw [question, checker, hn]

end Run

/-! ### Runners -/

theorem Question.Known.annotated {H : Bytes → Prop} {α : Ty.Annotation} {q : Question} (h : q.Known H α) :
    Runner.AnnotatedQuestion α q := by
  intro t ht
  cases q with
  | evaluate u s =>
    rcases List.mem_cons.1 ht with rfl | ht
    · exact h.1.annotated
    · obtain ⟨e, he, rfl⟩ := List.mem_map.1 ht
      exact (h.2.types e he).annotated
  | subtype a b capture =>
    rcases List.mem_cons.1 ht with rfl | ht
    · exact h.1.annotated
    · exact List.mem_singleton.1 ht ▸ h.2.annotated
  | instantiate name args => exact (h t ht).annotated
  | other => exact h.elim

namespace Runner

@[simp]
theorem record_settings (r : Runner) (e : Journal.Entry) : (r.record e).settings = r.settings := rfl

@[simp]
theorem record_checker (r : Runner) (e : Journal.Entry) : (r.record e).checker = r.checker := rfl

@[simp]
theorem resume_settings (r : Runner) (c : Checker) : (r.resume c).settings = r.settings := by
  unfold resume
  dsimp only
  induction c.events with
  | nil => rfl
  | cons e es ih => simpa using ih

@[simp]
theorem resume_checker (r : Runner) (c : Checker) : (r.resume c).checker = { c with events := [] } := rfl

def runOf (r : Runner) (doc : Document) : Run := ⟨doc, r.settings, r.checker.decls⟩

/-- A runner between runs: its checker has the limit that the settings tell, answers as if it remembered nothing,
    and holds declarations that their hash tells. -/
structure Tidy (H : Bytes → Prop) (α : Ty.Annotation) (r : Runner) : Prop where
  uniform : r.checker.Uniform α
  limit : r.checker.limit = (Checker.new r.settings.maxDepth (-1)).limit
  declared : ∀ d ∈ r.checker.decls.entries, d.Known H α

/-- `r'` is as tidy as `r`, and its runs are runs of `r`. -/
structure Follows (H : Bytes → Prop) (α : Ty.Annotation) (r r' : Runner) : Prop where
  tidy : r'.Tidy H α
  settings : r'.settings = r.settings
  decls : r'.checker.decls = r.checker.decls

section Answering
variable {H : Bytes → Prop} {α : Ty.Annotation} {r : Runner}

theorem Follows.refl (hr : r.Tidy H α) : Follows H α r r := ⟨hr, rfl, rfl⟩

theorem Follows.trans {r' r'' : Runner} (h : Follows H α r r') (h' : Follows H α r' r'') : Follows H α r r'' :=
  ⟨h'.tidy, h'.settings.trans h.settings, h'.decls.trans h.decls⟩

theorem Follows.runOf {r' : Runner} (h : Follows H α r r') (doc : Document) : r'.runOf doc = r.runOf doc := by
  unfold Runner.runOf
  rw [h.settings, h.decls]

theorem Follows.of_eq {r' r'' : Runner} (h : Follows H α r r') (hs : r''.settings = r'.settings)
    (hc : r''.checker = r'.checker) : Follows H α r r'' := by
  refine h.trans ⟨⟨?_, ?_, ?_⟩, hs, congrArg Checker.decls hc⟩
  · rw [hc]
    exact h.tidy.uniform
  · rw [hc, hs]
    exact h.tidy.limit
  · rw [hc]
    exact h.tidy.declared

theorem follows_resume (hr : r.Tidy H α) {c : Checker} (hs : Checker.Steady r.checker c) (hc : c.Uniform α) :
    Follows H α r (r.resume c) := by
  have keeps : Checker.Keeps c (r.resume c).checker := Checker.keeps_events c []
  refine ⟨⟨hc.of_keeps keeps, ?_, ?_⟩, resume_settings r c, keeps.decls.trans hs.decls⟩
  · rw [resume_settings, ← hr.limit]
    exact keeps.limit.trans hs.limit
  · rw [keeps.decls, hs.decls]
    exact hr.declared

/-- A query that is asked is shown as it is answered afresh. -/
theorem ask_shown (hr : r.Tidy H α) {q : Query} (hq : AnnotatedQuestion α q.question) (doc : Document) :
    (r.ask q).1.shown = (r.runOf doc).shown q ∧ Follows H α r (r.ask q).2 := by
  have steady : Checker.Steady (r.runOf doc).checker r.checker := ⟨hr.limit, rfl⟩
  have fresh : (answer r.checker q.question).1 = (answer (r.runOf doc).checker q.question).1 :=
    (answer_of_uniform hr.uniform hq).trans (answer_of_steady steady q.question)
  obtain ⟨kept, uniform⟩ := answer_keeps hr.uniform hq
  unfold ask Run.shown
  rw [← fresh]
  split
  · rename_i output type c h
    rw [h] at kept uniform ⊢
    exact ⟨rfl, follows_resume hr kept uniform⟩
  · rename_i e c h
    rw [h] at kept uniform ⊢
    exact ⟨rfl, follows_resume hr kept uniform⟩

theorem askCounted_shown (hr : r.Tidy H α) {q : Query} (hq : AnnotatedQuestion α q.question) (doc : Document) :
    (r.askCounted q).1.shown = (r.runOf doc).shown q ∧ Follows H α r (r.askCounted q).2 := by
  obtain ⟨shown, follows⟩ := ask_shown hr hq doc
  refine ⟨shown, ?_⟩
  unfold askCounted
  dsimp only
  split
  · exact follows.of_eq rfl rfl
  · exact follows.of_eq rfl rfl

end Answering

end Runner

/-! ### Records -/

namespace ResultStore

theorem lookup_eq_some {s : ResultStore} {document query : String} {x : Record} (h : s.lookup document query = some x) :
    x ∈ s.records ∧ x.document = document ∧ x.query = query := by
  have hof := List.find?_some h
  simp only [isOf, Bool.and_eq_true, beq_iff_eq] at hof
  exact ⟨List.mem_of_find?_eq_some h, hof⟩

theorem mem_save {s : ResultStore} {x y : Record} (h : y ∈ (s.save x).records) : y = x ∨ y ∈ s.records := by
  rcases List.mem_append.1 h with h | h
  · exact Or.inr (List.mem_filter.1 h).1
  · exact Or.inl (List.mem_singleton.1 h)

/-- Every record is recalled as a query is shown by a run that the key of the record tells. -/
def Stems (H : Bytes → Prop) (α : Ty.Annotation) (s : ResultStore) : Prop :=
  ∀ x ∈ s.records, ∃ k : Run, k.Known H α ∧ ∃ q ∈ k.doc.queries, x.document = k.key ∧ x.query = q.name ∧
    (Runner.recalled q x).shown = k.shown q

end ResultStore

theorem Run.shown_error (k : Run) (q : Query) : (k.shown q).error ≠ some "" := by
  unfold shown
  split
  · exact nofun
  · rename_i e h
    intro he
    exact Runner.message_ne_empty h (Option.some.inj he)

theorem Run.shown_eq (k : Run) (q : Query) :
    k.shown q = ⟨q.name, q.question.kind, (k.shown q).output, (k.shown q).error⟩ := by
  unfold shown
  split <;> rfl

namespace Runner

section Answering
variable {H : Bytes → Prop} {α : Ty.Annotation} {r : Runner}

/-- An error is told from none by its text. -/
theorem storedError_message {error : Option String} (h : error ≠ some "") :
    (if error.getD "" = "" then none else some (QueryError.stored (error.getD ""))).map QueryError.message = error := by
  cases error with
  | none => rfl
  | some text =>
    have told : text ≠ "" := fun he => h (congrArg some he)
    rw [Option.getD_some, if_neg told]
    rfl

theorem recalled_recordOf {k : Run} {q : Query} {result : Result} (h : result.shown = k.shown q) (key : String) :
    (recalled q (r.recordOf key q result)).shown = k.shown q := by
  have output : result.output = (k.shown q).output := congrArg Shown.output h
  have error : result.error.map QueryError.message = (k.shown q).error := congrArg Shown.error h
  rw [k.shown_eq q, Result.shown, recalled, recordOf]
  dsimp only
  rw [error, output, storedError_message (k.shown_error q)]

def StoreStems (H : Bytes → Prop) (α : Ty.Annotation) (store : Option ResultStore) : Prop :=
  ∀ s, store = some s → s.Stems H α

/-- Whether a query is recalled or asked, it is shown as it is answered afresh. -/
theorem answerQuery_shown (C : Collisionless H) (hr : r.Tidy H α) {store : Option ResultStore}
    (hs : StoreStems H α store) {doc : Document} (hk : (r.runOf doc).Known H α) {q : Query} (hq : q ∈ doc.queries) :
    (r.answerQuery store (r.runOf doc).key q).1.shown = (r.runOf doc).shown q ∧
      Follows H α r (r.answerQuery store (r.runOf doc).key q).2.1 ∧
      StoreStems H α (r.answerQuery store (r.runOf doc).key q).2.2 := by
  have annotated := (hk.doc.questions q hq).annotated
  cases store with
  | none =>
    obtain ⟨shown, follows⟩ := askCounted_shown hr annotated doc
    exact ⟨shown, follows, nofun⟩
  | some s =>
    unfold answerQuery
    dsimp only
    split
    · -- The record was stored by a run with the same key, which asked the same question.
      rename_i x hx
      obtain ⟨hm, hd, hn⟩ := ResultStore.lookup_eq_some hx
      obtain ⟨k, known, q', hq', hd', hn', told⟩ := hs s rfl x hm
      obtain ⟨question, same⟩ := Run.shown_of_key C hk known (hd.symm.trans hd') hq hq' (hn.symm.trans hn')
      have recalledAlike : (recalled q x).shown = (recalled q' x).shown := by
        simp only [recalled, Result.shown, question, ← hn, hn']
      refine ⟨?_, (Follows.refl hr).of_eq rfl rfl, hs⟩
      rw [recalledAlike, told, same]
    · have counted : Follows H α r (r.countLookup false) := (Follows.refl hr).of_eq rfl rfl
      obtain ⟨shown, follows⟩ := askCounted_shown counted.tidy annotated doc
      rw [counted.runOf doc] at shown
      refine ⟨shown, counted.trans follows, ?_⟩
      rintro s' ⟨⟩ x hx
      rcases ResultStore.mem_save hx with rfl | hx
      · exact ⟨r.runOf doc, hk, q, hq, rfl, rfl, recalled_recordOf shown _⟩
      · exact hs s rfl x hx

/-- All queries of a document are shown as they are answered afresh. -/
theorem answerAll_shown (C : Collisionless H) {doc : Document} {qs : List Query} (hq : qs ⊆ doc.queries)
    (hr : r.Tidy H α) {store : Option ResultStore} (hs : StoreStems H α store) (hk : (r.runOf doc).Known H α) :
    (answerAll (r.runOf doc).key qs r store).1.map Result.shown = qs.map (r.runOf doc).shown ∧
      Follows H α r (answerAll (r.runOf doc).key qs r store).2.1 ∧
      StoreStems H α (answerAll (r.runOf doc).key qs r store).2.2 := by
  induction qs generalizing r store with
  | nil => exact ⟨rfl, Follows.refl hr, hs⟩
  | cons q qs ih =>
    obtain ⟨shown, follows, stems⟩ := answerQuery_shown C hr hs hk (hq List.mem_cons_self)
    have run := follows.runOf doc
    have known : ((r.answerQuery store (r.runOf doc).key q).2.1.runOf doc).Known H α := by
      rw [run]
      exact hk
    obtain ⟨rest, follows', stems'⟩ := ih (List.cons_subset.1 hq).2 follows.tidy stems known
    rw [run] at rest follows' stems'
    unfold answerAll
    exact ⟨by simp only [List.map_cons, shown, rest], follows.trans follows', stems'⟩

end Answering

end Runner

/-! ### Loading -/

namespace Runner

structure Alike (r r' : Runner) : Prop where
  settings : r.settings = r'.settings
  decls : r.checker.decls = r'.checker.decls

theorem declare_alike {c c' : Checker} (h : c.decls = c'.decls) (d : Declaration) :
    (c.declare d).1 = (c'.declare d).1 ∧ (c.declare d).2.decls = (c'.declare d).2.decls := by
  unfold Checker.declare
  split
  · exact ⟨rfl, h⟩
  · exact ⟨rfl, congrArg (Declarations.insert · d) h⟩

theorem declareAll_alike {r r' : Runner} (h : Alike r r') (path : String) (ds : List Declaration) :
    (declareAll path ds r).1 = (declareAll path ds r').1 ∧ Alike (declareAll path ds r).2 (declareAll path ds r').2 := by
  induction ds generalizing r r' with
  | nil => exact ⟨rfl, h⟩
  | cons d ds ih =>
    obtain ⟨outcome, decls⟩ := declare_alike h.decls d
    have settings : ∀ c c', (r.resume c).settings = (r'.resume c').settings := by
      intro c c'
      rw [resume_settings, resume_settings, h.settings]
    unfold declareAll
    cases hd : r.checker.declare d with
    | mk x c =>
      cases hd' : r'.checker.declare d with
      | mk x' c' =>
        rw [hd, hd'] at outcome decls
        obtain rfl : x = x' := outcome
        cases x with
        | error e => exact ⟨rfl, settings c c', decls⟩
        | ok _ => exact ih ⟨settings c c', decls⟩

theorem load_alike {r r' : Runner} (h : Alike r r') (doc : Document) :
    (r.load doc).1 = (r'.load doc).1 ∧ Alike (r.load doc).2 (r'.load doc).2 := by
  obtain ⟨outcome, alike⟩ := declareAll_alike h doc.path doc.declarations
  unfold load
  cases hd : declareAll doc.path doc.declarations r with
  | mk x s =>
    cases hd' : declareAll doc.path doc.declarations r' with
    | mk x' s' =>
      rw [hd, hd'] at outcome alike
      obtain rfl : x = x' := outcome
      cases x with
      | error e => exact ⟨rfl, alike⟩
      | ok _ => exact ⟨rfl, alike.settings, alike.decls⟩

section Loading
variable {H : Bytes → Prop} {α : Ty.Annotation} {r : Runner}

theorem tidy_declare (hr : r.Tidy H α) {d : Declaration} (hd : d.Known H α) :
    (r.resume (r.checker.declare d).2).Tidy H α := by
  have keeps : Checker.Keeps (r.checker.declare d).2 (r.resume (r.checker.declare d).2).checker :=
    Checker.keeps_events _ []
  have limit : (r.checker.declare d).2.limit = r.checker.limit := by
    rcases Checker.declare_cases r.checker d with ⟨e, h⟩ | ⟨-, h, -, -⟩
    · rw [h]
    · exact h
  refine ⟨(hr.uniform.declare d).of_keeps keeps, ?_, fun e he => ?_⟩
  · rw [resume_settings, ← hr.limit]
    exact keeps.limit.trans limit
  · rw [keeps.decls] at he
    rcases Checker.declare_cases r.checker d with ⟨err, h⟩ | ⟨-, -, h, -⟩
    · rw [h] at he
      exact hr.declared e he
    · rw [h] at he
      rcases Declarations.mem_insert he with rfl | he
      · exact hd
      · exact hr.declared e he

theorem tidy_declareAll (hr : r.Tidy H α) (path : String) {ds : List Declaration} (hd : ∀ d ∈ ds, d.Known H α) :
    (declareAll path ds r).2.Tidy H α := by
  induction ds generalizing r with
  | nil => exact hr
  | cons d ds ih =>
    have tidy := tidy_declare hr (hd d List.mem_cons_self)
    unfold declareAll
    split
    · rename_i c h
      rw [h] at tidy
      exact ih tidy fun e he => hd e (List.mem_cons_of_mem _ he)
    · rename_i e c h
      rw [h] at tidy
      exact tidy

theorem tidy_load (hr : r.Tidy H α) {doc : Document} (hd : ∀ d ∈ doc.declarations, d.Known H α) :
    (r.load doc).2.Tidy H α := by
  have tidy := tidy_declareAll hr doc.path hd
  unfold load
  split
  · rename_i e s h
    rw [h] at tidy
    exact tidy
  · rename_i s h
    rw [h] at tidy
    exact ⟨tidy.uniform, tidy.limit, tidy.declared⟩

end Loading

/-- The run that results of a document are stored by, if its declarations are accepted. -/
def loaded? (r : Runner) (doc : Document) : Option Run :=
  match r.load doc with
  | (.ok (), r) => some (r.runOf doc)
  | (.error _, _) => none

theorem runDocument_of_ok {r s : Runner} {doc : Document} (h : r.load doc = (.ok (), s)) (store : Option ResultStore) :
    r.runDocument store false doc = (.ok (answerAll (s.runOf doc).key doc.queries s store).1,
      (answerAll (s.runOf doc).key doc.queries s store).2) := by
  rw [runDocument, h]
  rfl

theorem runDocument_of_error {r s : Runner} {doc : Document} {e : RunError} (h : r.load doc = (.error e, s))
    (store : Option ResultStore) : r.runDocument store false doc = (.error e, s, store) := by
  rw [runDocument, h]

def report (outcome : Except RunError (List Result)) : Except String (List Shown) :=
  (outcome.map (·.map Result.shown)).mapError RunError.message

/-- Runners that are alike show the same of a document, whatever their stores hold, and stay alike. -/
theorem runDocument_shown {H : Bytes → Prop} (C : Collisionless H) {α : Ty.Annotation} {r r' : Runner}
    (hr : r.Tidy H α) (hr' : r'.Tidy H α) (h : Alike r r') {store store' : Option ResultStore}
    (hs : StoreStems H α store) (hs' : StoreStems H α store') {doc : Document}
    (hd : doc.Known H α) (hk : ∀ k, r'.loaded? doc = some k → k.Framed H) :
    report (r.runDocument store false doc).1 = report (r'.runDocument store' false doc).1 ∧
      (r.runDocument store false doc).2.1.Tidy H α ∧ (r'.runDocument store' false doc).2.1.Tidy H α ∧
      Alike (r.runDocument store false doc).2.1 (r'.runDocument store' false doc).2.1 ∧
      StoreStems H α (r.runDocument store false doc).2.2 ∧ StoreStems H α (r'.runDocument store' false doc).2.2 := by
  obtain ⟨outcome, alike⟩ := load_alike h doc
  have tidy := tidy_load hr hd.declarations
  have tidy' := tidy_load hr' hd.declarations
  unfold loaded? at hk
  cases hl : r.load doc with
  | mk x s =>
    cases hl' : r'.load doc with
    | mk x' s' =>
      rw [hl, hl'] at outcome alike
      rw [hl] at tidy
      rw [hl'] at tidy' hk
      obtain rfl : x = x' := outcome
      cases x with
      | error e =>
        rw [runDocument_of_error hl, runDocument_of_error hl']
        exact ⟨rfl, tidy, tidy', alike, hs, hs'⟩
      | ok _ =>
        have run : s.runOf doc = s'.runOf doc := by
          unfold runOf
          rw [alike.settings, alike.decls]
        have known' : (s'.runOf doc).Known H α := ⟨hk _ rfl, hd, tidy'.declared⟩
        have known : (s.runOf doc).Known H α := by
          rw [run]
          exact known'
        obtain ⟨shown, follows, stems⟩ := answerAll_shown C (List.Subset.refl _) tidy hs known
        obtain ⟨shown', follows', stems'⟩ := answerAll_shown C (List.Subset.refl _) tidy' hs' known'
        rw [runDocument_of_ok hl, runDocument_of_ok hl']
        refine ⟨?_, follows.tidy, follows'.tidy, ⟨?_, ?_⟩, stems, stems'⟩
        · have same := shown.trans ((congrArg (fun k : Run => doc.queries.map k.shown) run).trans shown'.symm)
          simp only [report, Except.map, Except.mapError, same]
        · exact follows.settings.trans (alike.settings.trans follows'.settings.symm)
        · exact follows.decls.trans (alike.decls.trans follows'.decls.symm)

end Runner

end TypeCalculus

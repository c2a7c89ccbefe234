import TypeCalculus.Proofs.Runner.History

/-! What a rejected declaration leaves behind. Declarations are registered one by one, and the first that is rejected ends
    the load; those before it stay. So a failed load leaves what loading the part before the rejected declaration leaves
    (`declareAll_rejected`), and no later call shows a difference (`World.rejected_load_as_cut_off`): what a runner shows
    never depends on its journal, its clock or the events of its checker (`Runner.Same`, `World.answers_same`). -/

namespace TypeCalculus

/-! ### Events do not show -/

namespace Checker

/-- The checker without the events that it reported. -/
def hushed (c : Checker) : Checker := { c with events := [] }

theorem remembered_hushed (c : Checker) (key : MemoKey) (a b : Ty) :
    c.hushed.remembered key a b = ((c.remembered key a b).1, (c.remembered key a b).2.hushed) := by
  unfold remembered
  rw [show c.hushed.memo = c.memo from rfl]
  cases c.memo with
  | none => rfl
  | some memo =>
    dsimp only
    split
    · unfold count
      cases key.operation <;> rfl
    · unfold count
      cases key.operation <;> rfl

theorem isSubtype_hushed (c : Checker) (a b : Ty) :
    (c.hushed.isSubtype a b).1 = (c.isSubtype a b).1 ∧ (c.hushed.isSubtype a b).2.hushed = (c.isSubtype a b).2.hushed := by
  unfold isSubtype
  dsimp only
  split
  · exact ⟨rfl, rfl⟩
  · rw [remembered_hushed]
    rcases c.remembered ⟨.subtype, a.hash, b.hash⟩ a b with ⟨_ | e, c⟩
    · exact ⟨rfl, rfl⟩
    · exact ⟨rfl, rfl⟩

theorem evaluate_hushed (c : Checker) (t : Ty) (s : Subst) :
    (c.hushed.evaluate t s).1 = (c.evaluate t s).1 ∧ (c.hushed.evaluate t s).2.hushed = (c.evaluate t s).2.hushed := by
  unfold evaluate
  split
  · exact ⟨rfl, rfl⟩
  · dsimp only
    rw [remembered_hushed]
    rcases c.remembered ⟨.evaluate, t.hash, s.hash⟩ t s.toTy with ⟨_ | e, c⟩
    · simp only [evaluating, show c.hushed.env = c.env from rfl]
      rcases (evaluateFresh c.env t s).run {} with ⟨_ | u, r⟩
      · exact ⟨rfl, rfl⟩
      · exact ⟨rfl, rfl⟩
    · exact ⟨rfl, rfl⟩

end Checker

namespace Runner

theorem answer_hushed (c : Checker) (q : Question) :
    (answer c.hushed q).1 = (answer c q).1 ∧ (answer c.hushed q).2.hushed = (answer c q).2.hushed := by
  cases q with
  | evaluate t s =>
    obtain ⟨outcome, after⟩ := c.evaluate_hushed t s
    simp only [answer, outcome, after, and_self]
  | subtype a b capture =>
    cases capture with
    | true =>
      simp only [answer, if_true, Checker.capturing]
      rw [show c.hushed.limit = c.limit from rfl]
      split <;> rename_i h <;> split at h <;> cases h <;> simp_all [Checker.hushed]
    | false =>
      obtain ⟨outcome, after⟩ := c.isSubtype_hushed a b
      simp only [answer, Bool.false_eq_true, if_false, outcome, after, and_self]
  | instantiate name args =>
    simp only [answer, Checker.instantiateDeclaration]
    rw [show c.hushed.decls = c.decls from rfl]
    split
    · obtain ⟨outcome, after⟩ := c.evaluate_hushed (.reference name args) {}
      simp only [outcome, after, and_self]
    · exact ⟨rfl, rfl⟩
  | other kind => exact ⟨rfl, rfl⟩

theorem answer_same {c c' : Checker} (h : c.hushed = c'.hushed) (q : Question) :
    (answer c q).1 = (answer c' q).1 ∧ (answer c q).2.hushed = (answer c' q).2.hushed := by
  rw [← (answer_hushed c q).1, ← (answer_hushed c q).2, ← (answer_hushed c' q).1, ← (answer_hushed c' q).2, h]
  exact ⟨rfl, rfl⟩

theorem declare_hushed (c : Checker) (d : Declaration) :
    (c.hushed.declare d).1 = (c.declare d).1 ∧ (c.hushed.declare d).2.hushed = (c.declare d).2.hushed := by
  unfold Checker.declare
  split
  · exact ⟨rfl, rfl⟩
  · exact ⟨rfl, rfl⟩

theorem declare_same {c c' : Checker} (h : c.hushed = c'.hushed) (d : Declaration) :
    (c.declare d).1 = (c'.declare d).1 ∧ (c.declare d).2.hushed = (c'.declare d).2.hushed := by
  rw [← (declare_hushed c d).1, ← (declare_hushed c d).2, ← (declare_hushed c' d).1, ← (declare_hushed c' d).2, h]
  exact ⟨rfl, rfl⟩

/-! ### Journals and clocks do not show -/

/-- The runners differ at most in their journals, in their clocks and in the events that their checkers reported. -/
structure Same (r r' : Runner) : Prop where
  settings : r.settings = r'.settings
  checker : r.checker.hushed = r'.checker.hushed
  run : r.run = r'.run
  tally : r.tally = r'.tally
  storeLookups : r.storeLookups = r'.storeLookups

theorem Same.refl (r : Runner) : Same r r := ⟨rfl, rfl, rfl, rfl, rfl⟩

theorem Same.trans {r r' r'' : Runner} (h : Same r r') (h' : Same r' r'') : Same r r'' :=
  ⟨h.settings.trans h'.settings, h.checker.trans h'.checker, h.run.trans h'.run, h.tally.trans h'.tally,
    h.storeLookups.trans h'.storeLookups⟩

theorem Same.decls {r r' : Runner} (h : Same r r') : r.checker.decls = r'.checker.decls :=
  congrArg (·.decls) h.checker

theorem resume_eq (r : Runner) (c : Checker) :
    ∃ journal, r.resume c = { r with journal := journal, checker := c.hushed } := by
  have recorded : ∀ events : List Event, ∃ journal,
      events.foldr (fun e r => r.record (.ofEvent e)) r = { r with journal := journal } := by
    intro events
    induction events with
    | nil => exact ⟨r.journal, rfl⟩
    | cons e events ih =>
      obtain ⟨journal, h⟩ := ih
      rw [List.foldr_cons, h]
      exact ⟨_, rfl⟩
  obtain ⟨journal, h⟩ := recorded c.events
  refine ⟨journal, ?_⟩
  unfold resume
  rw [h]
  rfl

theorem resume_now (r : Runner) (c : Checker) : (r.resume c).now = r.now := by
  obtain ⟨journal, h⟩ := r.resume_eq c
  rw [h]

section Same
variable {r r' : Runner} (h : Same r r')
include h

theorem Same.resume {c c' : Checker} (hc : c.hushed = c'.hushed) : Same (r.resume c) (r'.resume c') := by
  obtain ⟨journal, he⟩ := r.resume_eq c
  obtain ⟨journal', he'⟩ := r'.resume_eq c'
  rw [he, he']
  exact ⟨h.settings, congrArg Checker.hushed hc, h.run, h.tally, h.storeLookups⟩

theorem Same.record (e e' : Journal.Entry) : Same (r.record e) (r'.record e') :=
  ⟨h.settings, h.checker, h.run, h.tally, h.storeLookups⟩

theorem Same.counted (key : String × Bool) :
    Same { r with tally := r.tally.add key } { r' with tally := r'.tally.add key } :=
  ⟨h.settings, h.checker, h.run, congrArg (Tally.add key) h.tally, h.storeLookups⟩

theorem Same.countLookup (hit : Bool) : Same (r.countLookup hit) (r'.countLookup hit) :=
  ⟨h.settings, h.checker, h.run, h.tally, by unfold Runner.countLookup; rw [h.storeLookups]⟩

theorem ask_same (q : Query) : (r.ask q).1 = (r'.ask q).1 ∧ Same (r.ask q).2 (r'.ask q).2 := by
  obtain ⟨outcome, after⟩ := answer_same h.checker q.question
  unfold ask
  rcases ha : answer r.checker q.question with ⟨x, c⟩
  rcases ha' : answer r'.checker q.question with ⟨x', c'⟩
  rw [ha, ha'] at outcome after
  obtain rfl : x = x' := outcome
  cases x with
  | ok a => exact ⟨rfl, h.resume after⟩
  | error e => exact ⟨rfl, h.resume after⟩

theorem askCounted_same (q : Query) :
    (r.askCounted q).1 = (r'.askCounted q).1 ∧ Same (r.askCounted q).2 (r'.askCounted q).2 := by
  obtain ⟨outcome, after⟩ := ask_same h q
  unfold askCounted
  rcases hq : r.ask q with ⟨result, s⟩
  rcases hq' : r'.ask q with ⟨result', s'⟩
  rw [hq, hq'] at outcome after
  obtain rfl : result = result' := outcome
  dsimp only at after ⊢
  cases result.error with
  | none => exact ⟨rfl, after.counted _⟩
  | some e => exact ⟨rfl, (after.record _ _).counted _⟩

end Same

theorem askCounted_now (r : Runner) (q : Query) : (r.askCounted q).2.now = r.now := by
  have asked : (r.ask q).2.now = r.now := by
    unfold ask
    split
    · exact resume_now _ _
    · exact resume_now _ _
  unfold askCounted
  dsimp only
  split
  · exact asked
  · exact asked

/-- At one time, runners that are the same answer alike and store alike. -/
theorem answerQuery_same {r r' : Runner} (h : Same r r') (hn : r.now = r'.now) (store : Option ResultStore) (key : String)
    (q : Query) :
    (r.answerQuery store key q).1 = (r'.answerQuery store key q).1 ∧
      (r.answerQuery store key q).2.2 = (r'.answerQuery store key q).2.2 ∧
      Same (r.answerQuery store key q).2.1 (r'.answerQuery store key q).2.1 ∧
      (r.answerQuery store key q).2.1.now = (r'.answerQuery store key q).2.1.now := by
  unfold answerQuery
  cases store with
  | none =>
    obtain ⟨result, same⟩ := askCounted_same h q
    exact ⟨result, rfl, same, by dsimp only; rw [askCounted_now, askCounted_now, hn]⟩
  | some s =>
    dsimp only
    split
    · exact ⟨rfl, rfl, h.countLookup true, hn⟩
    · obtain ⟨result, same⟩ := askCounted_same (h.countLookup false) q
      have now : ((r.countLookup false).askCounted q).2.now = ((r'.countLookup false).askCounted q).2.now := by
        rw [askCounted_now, askCounted_now]
        exact hn
      refine ⟨result, ?_, same, now⟩
      dsimp only
      rw [recordOf, recordOf, result, same.run, now]

theorem answerAll_same (key : String) (qs : List Query) {r r' : Runner} (h : Same r r') (hn : r.now = r'.now)
    (store : Option ResultStore) :
    (answerAll key qs r store).1 = (answerAll key qs r' store).1 ∧
      (answerAll key qs r store).2.2 = (answerAll key qs r' store).2.2 ∧
      Same (answerAll key qs r store).2.1 (answerAll key qs r' store).2.1 := by
  induction qs generalizing r r' store with
  | nil => exact ⟨rfl, rfl, h⟩
  | cons q qs ih =>
    obtain ⟨result, stored, same, now⟩ := answerQuery_same h hn store key q
    obtain ⟨results, stored', same'⟩ := ih same now (r.answerQuery store key q).2.2
    unfold answerAll
    dsimp only
    rw [← stored, result, results, stored']
    exact ⟨rfl, rfl, same'⟩

theorem declareAll_same (path : String) (ds : List Declaration) {r r' : Runner} (h : Same r r') :
    (declareAll path ds r).1 = (declareAll path ds r').1 ∧ Same (declareAll path ds r).2 (declareAll path ds r').2 := by
  induction ds generalizing r r' with
  | nil => exact ⟨rfl, h⟩
  | cons d ds ih =>
    obtain ⟨outcome, after⟩ := declare_same h.checker d
    unfold declareAll
    rcases hd : r.checker.declare d with ⟨x, c⟩
    rcases hd' : r'.checker.declare d with ⟨x', c'⟩
    rw [hd, hd'] at outcome after
    obtain rfl : x = x' := outcome
    cases x with
    | error e => exact ⟨rfl, h.resume after⟩
    | ok _ => exact ih (h.resume after)

theorem load_same {r r' : Runner} (h : Same r r') (doc : Document) :
    (r.load doc).1 = (r'.load doc).1 ∧ Same (r.load doc).2 (r'.load doc).2 := by
  obtain ⟨outcome, after⟩ := declareAll_same doc.path doc.declarations h
  unfold load
  rcases hd : declareAll doc.path doc.declarations r with ⟨x, s⟩
  rcases hd' : declareAll doc.path doc.declarations r' with ⟨x', s'⟩
  rw [hd, hd'] at outcome after
  obtain rfl : x = x' := outcome
  cases x with
  | error e => exact ⟨rfl, after⟩
  | ok _ => exact ⟨rfl, after.record _ _⟩

theorem declareAll_now (path : String) (ds : List Declaration) (r : Runner) : (declareAll path ds r).2.now = r.now := by
  induction ds generalizing r with
  | nil => rfl
  | cons d ds ih =>
    unfold declareAll
    split
    · rw [ih, resume_now]
    · exact resume_now _ _

theorem load_now (r : Runner) (doc : Document) : (r.load doc).2.now = r.now := by
  have declared := declareAll_now doc.path doc.declarations r
  unfold load
  split
  · rename_i h
    rwa [h] at declared
  · rename_i h
    rwa [h] at declared

/-- At one time, runners that are the same show the same of a document and store alike. -/
theorem runDocument_same {r r' : Runner} (h : Same r r') (hn : r.now = r'.now) (store : Option ResultStore)
    (cancelled : Bool) (doc : Document) :
    (r.runDocument store cancelled doc).1 = (r'.runDocument store cancelled doc).1 ∧
      (r.runDocument store cancelled doc).2.2 = (r'.runDocument store cancelled doc).2.2 ∧
      Same (r.runDocument store cancelled doc).2.1 (r'.runDocument store cancelled doc).2.1 := by
  obtain ⟨outcome, after⟩ := load_same h doc
  have now := load_now r doc
  have now' := load_now r' doc
  unfold runDocument
  rcases hl : r.load doc with ⟨x, s⟩
  rcases hl' : r'.load doc with ⟨x', s'⟩
  rw [hl, hl'] at outcome after
  rw [hl] at now
  rw [hl'] at now'
  obtain rfl : x = x' := outcome
  cases x with
  | error e => exact ⟨rfl, rfl, after⟩
  | ok _ =>
    dsimp only at after now now' ⊢
    split
    · exact ⟨rfl, rfl, after⟩
    · have key : doc.resultKey s.settings s.checker.decls = doc.resultKey s'.settings s'.checker.decls := by
        rw [after.settings, after.decls]
      obtain ⟨results, stored, same⟩ := answerAll_same (doc.resultKey s'.settings s'.checker.decls) doc.queries after
        (now.trans (hn.trans now'.symm)) store
      rw [key, results, stored]
      exact ⟨rfl, rfl, same⟩

end Runner

/-! ### Calls -/

/-- What is asked of runners: an act, or a query on its own, which passes the store by and is not counted. -/
inductive Call where
  | act (act : Act)
  | query (runner : Nat) (query : Query)

namespace World

/-- What a call shows, and the world after it. -/
def call (w : World) : Call → Option (Except String (List Shown)) × World
  | .act a => w.step a
  | .query i q =>
    match w.runners[i]? with
    | none => (none, w)
    | some r =>
      let (result, r) := r.ask q
      (some (.ok [result.shown]), { w with runners := w.runners.set i r })

/-- What calls show one after another. -/
def answers (w : World) : List Call → List (Option (Except String (List Shown)))
  | [] => []
  | c :: calls => (w.call c).1 :: (w.call c).2.answers calls

section Lists
variable {α β : Type} {R : α → β → Prop} {xs : List α} {ys : List β} (h : List.Forall₂ R xs ys)
include h

theorem forall₂_getElem? (i : Nat) :
    xs[i]? = none ∧ ys[i]? = none ∨ ∃ x y, xs[i]? = some x ∧ ys[i]? = some y ∧ R x y := by
  induction h generalizing i with
  | nil => exact .inl ⟨rfl, rfl⟩
  | @cons x y _ _ hxy _ ih =>
    cases i with
    | zero => exact .inr ⟨x, y, rfl, rfl, hxy⟩
    | succ i => exact ih i

theorem forall₂_set (i : Nat) {x : α} {y : β} (hxy : R x y) : List.Forall₂ R (xs.set i x) (ys.set i y) := by
  induction h generalizing i with
  | nil => exact .nil
  | cons hab hrest ih =>
    cases i with
    | zero => exact .cons hxy hrest
    | succ i => exact .cons hab (ih i)

end Lists

/-- The runners are the same one by one, and the store is one. -/
structure Same (w w' : World) : Prop where
  runners : List.Forall₂ Runner.Same w.runners w'.runners
  store : w.store = w'.store

theorem Same.set {w w' : World} (h : Same w w') (i : Nat) {r r' : Runner} (hr : Runner.Same r r')
    {store store' : Option ResultStore} (hs : store = store') :
    Same ⟨w.runners.set i r, store⟩ ⟨w'.runners.set i r', store'⟩ :=
  ⟨forall₂_set h.runners i hr, hs⟩

/-- An act shows the same in worlds that are the same, and they still are after it. -/
theorem step_same {w w' : World} (h : Same w w') (a : Act) :
    (w.step a).1 = (w'.step a).1 ∧ Same (w.step a).2 (w'.step a).2 := by
  unfold step
  cases a with
  | new settings run => exact ⟨rfl, List.rel_append h.runners (.cons (Runner.Same.refl _) .nil), h.store⟩
  | run i now doc =>
    dsimp only
    rcases forall₂_getElem? h.runners i with ⟨hi, hi'⟩ | ⟨r, r', hi, hi', same⟩
    · rw [hi, hi']
      exact ⟨rfl, h⟩
    · rw [hi, hi', h.store]
      dsimp only
      have clocked : Runner.Same { r with now := now } { r' with now := now } :=
        ⟨same.settings, same.checker, same.run, same.tally, same.storeLookups⟩
      obtain ⟨outcome, stored, after⟩ := Runner.runDocument_same clocked rfl w'.store false doc
      exact ⟨by rw [outcome], h.set i after stored⟩

/-- A call shows the same in worlds that are the same, and they still are after it. -/
theorem call_same {w w' : World} (h : Same w w') (c : Call) :
    (w.call c).1 = (w'.call c).1 ∧ Same (w.call c).2 (w'.call c).2 := by
  cases c with
  | act a => exact step_same h a
  | query i q =>
    unfold call
    dsimp only
    rcases forall₂_getElem? h.runners i with ⟨hi, hi'⟩ | ⟨r, r', hi, hi', same⟩
    · rw [hi, hi']
      exact ⟨rfl, h⟩
    · rw [hi, hi']
      obtain ⟨result, after⟩ := Runner.ask_same same q
      exact ⟨by dsimp only; rw [result], h.set i after h.store⟩

/-- Worlds that are the same show the same of all calls. -/
theorem answers_same (calls : List Call) {w w' : World} (h : Same w w') : w.answers calls = w'.answers calls := by
  induction calls generalizing w w' with
  | nil => rfl
  | cons c calls ih =>
    obtain ⟨shown, after⟩ := call_same h c
    rw [answers, answers, shown, ih after]

end World

/-! ### Rejected declarations -/

namespace Runner

/-- Declarations are registered up to the first that is rejected. -/
theorem declareAll_rejected {path : String} {ds : List Declaration} {r s : Runner} {e : RunError}
    (h : declareAll path ds r = (.error e, s)) :
    ∃ pre d post fault, ds = pre ++ d :: post ∧ (∀ x ∈ pre, x.check = .ok ()) ∧ d.check = .error fault ∧
      e = .declaration path d.name fault ∧ (declareAll path pre r).1 = .ok () ∧ Same s (declareAll path pre r).2 := by
  induction ds generalizing r with
  | nil => cases h
  | cons d ds ih =>
    rw [declareAll] at h
    cases hd : d.check with
    | error fault =>
      have declared : r.checker.declare d = (.error fault, r.checker) := by
        unfold Checker.declare
        rw [hd]
      rw [declared] at h
      obtain ⟨he, rfl⟩ := Prod.mk.inj h
      refine ⟨[], d, ds, fault, rfl, nofun, hd, (Except.error.inj he).symm, rfl, ?_⟩
      obtain ⟨journal, hj⟩ := r.resume_eq r.checker
      rw [hj]
      exact ⟨rfl, rfl, rfl, rfl, rfl⟩
    | ok _ =>
      have declared : (r.checker.declare d).1 = .ok () := by
        unfold Checker.declare
        rw [hd]
      rcases hc : r.checker.declare d with ⟨x, c⟩
      rw [hc] at h declared
      obtain rfl : x = .ok () := declared
      obtain ⟨pre, d', post, fault, rfl, hp, hf, he, hok, same⟩ := ih h
      refine ⟨d :: pre, d', post, fault, rfl, List.forall_mem_cons.2 ⟨hd, hp⟩, hf, he, ?_, ?_⟩
      · rw [declareAll, hc]
        exact hok
      · rw [declareAll, hc]
        exact same

theorem declareAll_decls {path : String} {ds : List Declaration} {r : Runner} (h : (declareAll path ds r).1 = .ok ()) :
    (declareAll path ds r).2.checker.decls = ds.foldl Declarations.insert r.checker.decls := by
  induction ds generalizing r with
  | nil => rfl
  | cons d ds ih =>
    rw [declareAll] at h ⊢
    rcases Checker.declare_cases r.checker d with ⟨e, hd⟩ | ⟨hd, -, decls, -⟩
    · rw [hd] at h
      cases h
    · rcases hc : r.checker.declare d with ⟨x, c⟩
      rw [hc] at h hd decls
      obtain rfl : x = .ok () := hd
      rw [List.foldl_cons, ← decls]
      exact ih h

end Runner

theorem Declarations.find?_insert_of_ne (ds : Declarations) {d : Declaration} {name : String} (h : name ≠ d.name) :
    (ds.insert d).find? name = ds.find? name := by
  have entries : ∀ es : List Declaration, (insertEntry d es).find? (·.name = name) = es.find? (·.name = name) := by
    intro es
    induction es with
    | nil => simp [insertEntry, Ne.symm h]
    | cons e es ih =>
      unfold insertEntry
      split
      · simp [Ne.symm h]
      · split
        · rename_i he
          simp [Ne.symm h, he ▸ Ne.symm h]
        · simp only [List.find?_cons, ih]
  exact entries ds.entries

theorem Declarations.find?_insertAll {ds : List Declaration} {name : String} (h : ∀ d ∈ ds, d.name ≠ name) :
    ∀ start : Declarations, (ds.foldl insert start).find? name = start.find? name := by
  induction ds with
  | nil => exact fun _ => rfl
  | cons d ds ih =>
    intro start
    rw [List.foldl_cons, ih (fun x hx => h x (List.mem_cons_of_mem _ hx)),
      find?_insert_of_ne _ (Ne.symm (h d List.mem_cons_self))]

/-- The document that only declares, and nothing but the given declarations. -/
def Document.declaring (doc : Document) (ds : List Declaration) : Document := ⟨doc.path, ds, []⟩

/-- Declarations that are all registered make a load that is recorded and does nothing else. -/
theorem Runner.load_declaring {doc : Document} {ds : List Declaration} {r : Runner}
    (h : (declareAll doc.path ds r).1 = .ok ()) :
    ∃ entry, r.load (doc.declaring ds) = (.ok (), (declareAll doc.path ds r).2.record entry) := by
  unfold load Document.declaring
  dsimp only
  rcases hd : declareAll doc.path ds r with ⟨x, s⟩
  rw [hd] at h
  obtain rfl : x = .ok () := h
  exact ⟨_, rfl⟩

theorem Runner.declareAll_of_load {doc : Document} {r s : Runner} {e : RunError} (h : r.load doc = (.error e, s)) :
    declareAll doc.path doc.declarations r = (.error e, s) := by
  unfold load at h
  split at h
  · rename_i hd
    rw [hd]
    exact h
  · cases h

/-- A run puts its runner and the store in the place of those before it. -/
theorem World.step_run {w : World} {i : Nat} {now : Int} {doc : Document} {r : Runner} (hr : w.runners[i]? = some r) :
    (w.step (.run i now doc)).2 = ⟨w.runners.set i ({ r with now }.runDocument w.store false doc).2.1,
      ({ r with now }.runDocument w.store false doc).2.2⟩ := by
  unfold step
  dsimp only
  rw [hr]

/-- A load that fails leaves what loading the declarations before the rejected one leaves, and no later call of any runner
    shows a difference. Only the names that are declared before the rejected one are declared anew. Where the first
    declaration is the rejected one, the load leaves no trace. -/
theorem World.rejected_load_as_cut_off (w : World) (i : Nat) (now : Int) (doc : Document) {r s : Runner} {e : RunError}
    (hr : w.runners[i]? = some r) (h : { r with now }.load doc = (.error e, s)) :
    ∃ pre d post fault, doc.declarations = pre ++ d :: post ∧ (∀ x ∈ pre, x.check = .ok ()) ∧ d.check = .error fault ∧
      e = .declaration doc.path d.name fault ∧
      (∀ store cancelled, { r with now }.runDocument store cancelled doc = (.error e, s, store)) ∧
      s.checker.decls = pre.foldl Declarations.insert r.checker.decls ∧
      (∀ name, (∀ x ∈ pre, x.name ≠ name) → s.checker.decls.find? name = r.checker.decls.find? name) ∧
      (∀ calls, (w.step (.run i now doc)).2.answers calls = (w.step (.run i now (doc.declaring pre))).2.answers calls) ∧
      (pre = [] → ∀ calls, (w.step (.run i now doc)).2.answers calls = w.answers calls) := by
  obtain ⟨pre, d, post, fault, split, accepted, hd, he, ok, same⟩ := Runner.declareAll_rejected (Runner.declareAll_of_load h)
  have decls := same.decls.trans (Runner.declareAll_decls ok)
  have failed : (w.step (.run i now doc)).2 = ⟨w.runners.set i s, w.store⟩ := by
    rw [step_run hr, Runner.runDocument_of_error h]
  have others : ∀ {s' : Runner}, Runner.Same s s' → Same ⟨w.runners.set i s, w.store⟩ ⟨w.runners.set i s', w.store⟩ :=
    fun hs => ⟨forall₂_set (List.forall₂_same.2 fun r _ => Runner.Same.refl r) i hs, rfl⟩
  refine ⟨pre, d, post, fault, split, accepted, hd, he, fun store cancelled => by rw [Runner.runDocument, h], decls,
    fun name hn => decls ▸ Declarations.find?_insertAll hn _, fun calls => ?_, fun hp calls => ?_⟩
  · obtain ⟨entry, loaded⟩ := Runner.load_declaring ok
    have cutOff : (w.step (.run i now (doc.declaring pre))).2 =
        ⟨w.runners.set i ((Runner.declareAll doc.path pre { r with now }).2.record entry), w.store⟩ := by
      rw [step_run hr, Runner.runDocument_of_ok loaded]
      rfl
    rw [failed, cutOff]
    exact answers_same calls (others (same.trans ⟨rfl, rfl, rfl, rfl, rfl⟩))
  · subst hp
    have untouched : Runner.Same s r := same.trans ⟨rfl, rfl, rfl, rfl, rfl⟩
    have put : w.runners.set i r = w.runners := by
      obtain ⟨hi, rfl⟩ := List.getElem?_eq_some_iff.1 hr
      exact List.set_getElem_self hi
    rw [failed]
    refine answers_same calls ?_
    have same := others untouched
    rwa [put] at same

/-! ### A document that is rejected halfway -/

def halfwayText : String :=
  "declarations:\n  - \x7bname: A, type: \x7bkeyword: any\x7d\x7d\n" ++
    "  - \x7bname: B, params: [\x7bname: T\x7d, \x7bname: T\x7d], type: \x7bkeyword: any\x7d\x7d\n"

/-- Declares `A`, and then `B` with two parameters of one name. -/
def halfway : Document := ⟨"d", [⟨"A", [], .any⟩, ⟨"B", [⟨"T", .absent, .absent⟩, ⟨"T", .absent, .absent⟩], .any⟩], []⟩

def isHalfway : Document → Bool
  | ⟨"d", [⟨"A", [], .any⟩, ⟨"B", [⟨"T", .absent, .absent⟩, ⟨"T", .absent, .absent⟩], .any⟩], []⟩ => true
  | _ => false

theorem parse_halfway : Document.parse "d" halfwayText = .ok halfway := by
  have read : (Document.parseBy (Document.within 5) "d" halfwayText).toOption.any isHalfway = true := by decide +kernel
  obtain ⟨doc, hd, hi⟩ := (Option.any_eq_true _ _).1 read
  rw [Document.parse_of_within (Ty.eq_ok_of_toOption hd)]
  unfold isHalfway at hi
  split at hi
  · rfl
  · cases hi

def freshWorld : World := ⟨[Runner.new .usual ""], none⟩

theorem load_halfway : ((Runner.new .usual "").load halfway).1 =
    .error (.declaration "d" "B" (.malformed .absent (.repeatedParam "T"))) := rfl

/-- After the failed load everything goes on as if the document had declared `A` alone. -/
theorem rejected_load_keeps_first :
    ((Runner.new .usual "").load halfway).1 = .error (.declaration "d" "B" (.malformed .absent (.repeatedParam "T"))) ∧
      ∀ calls, (freshWorld.step (.run 0 0 halfway)).2.answers calls =
        (freshWorld.step (.run 0 0 (halfway.declaring [⟨"A", [], .any⟩]))).2.answers calls := by
  refine ⟨load_halfway, fun calls => ?_⟩
  obtain ⟨pre, d, post, fault, split, accepted, hd, -, -, -, -, later, -⟩ :=
    World.rejected_load_as_cut_off freshWorld 0 0 halfway rfl (Prod.ext load_halfway rfl)
  have before : pre = [⟨"A", [], .any⟩] := by
    cases pre with
    | nil =>
      obtain ⟨rfl, -⟩ := List.cons.inj split
      cases hd
    | cons x pre =>
      obtain ⟨rfl, rest⟩ := List.cons.inj split
      cases pre with
      | nil => rfl
      | cons y pre =>
        obtain ⟨rfl, -⟩ := List.cons.inj rest
        cases accepted _ (List.mem_cons_of_mem _ List.mem_cons_self)
  rw [later calls, before]

/-- Asks what `A` comes to. -/
def askingA : Document := ⟨"a", [], [⟨"q", 2, .evaluate (.reference "A" []) {}⟩]⟩

/-- A load that fails changes what is declared and what a later question comes to. -/
theorem rejected_load_shows :
    (∃ path text, Document.parse path text = .ok halfway) ∧
      (∃ e s, (Runner.new .usual "").load halfway = (.error e, s) ∧
        s.checker.decls.hash ≠ (Runner.new .usual "").checker.decls.hash) ∧
      (freshWorld.step (.run 0 0 halfway)).2.play [.run 0 0 askingA] ≠ freshWorld.play [.run 0 0 askingA] :=
  ⟨⟨"d", halfwayText, parse_halfway⟩, ⟨_, _, Prod.ext load_halfway rfl, by decide +kernel⟩, by decide +kernel⟩

end TypeCalculus

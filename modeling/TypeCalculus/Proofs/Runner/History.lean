import TypeCalculus.Proofs.Runner.Transparency

/-! Histories of runs. Runners are made and run documents in any order, all with one store or all without; what the
    callers are shown is the same. -/

namespace TypeCalculus

/-! ### What documents tell -/

theorem Ty.Normal.filled {t : Ty} (h : t.Normal) : t.Filled := by
  intro u hu
  induction hu with
  | self =>
    rename_i t
    cases t with
    | template segments =>
      intro hole hm
      cases hole with
      | absent => exact absurd (h.form.holes _ hm) (by decide)
      | _ => rfl
    | _ => trivial
  | part hm _ ih =>
    rename_i t _ _ _
    refine ih (h.child ?_)
    cases t with
    | param => cases hm
    | _ => exact hm

namespace Document

/-- What a fingerprint leaves out is plain: no name on a line holds a zero character, and parameters are annotated by
    an assignment to their names. -/
structure Plain (α : Ty.Annotation) (doc : Document) : Prop where
  legible : doc.Legible
  annotated : ∀ t ∈ doc.types, t.AnnotatedBy α

/-- The texts and lists of a document have lengths that fit into a word. -/
structure Fits (doc : Document) : Prop where
  types : ∀ t ∈ doc.types, t.Sized
  declarations : ∀ d ∈ doc.declarations, d.name.utf8ByteSize < UInt64.size ∧ d.params.length < UInt64.size
  params : ∀ d ∈ doc.declarations, ∀ p ∈ d.params, p.name.utf8ByteSize < UInt64.size
  bindings : ∀ q ∈ doc.queries, ∀ t s, q.question = .evaluate t s →
    s.entries.length < UInt64.size ∧ ∀ e ∈ s.entries, e.1.utf8ByteSize < UInt64.size

/-- The stream is hashed for a type, a declaration or the bindings of a document. -/
def Hashes (doc : Document) (s : Bytes) : Prop :=
  (∃ t ∈ doc.types, t.Hashes s) ∨ (∃ d ∈ doc.declarations, s = d.stream) ∨
    ∃ q ∈ doc.queries, ∃ t b, q.question = .evaluate t b ∧ s = b.stream

section Known
variable {H : Bytes → Prop} {α : Ty.Annotation} {doc : Document} (hp : doc.Posed) (ha : doc.Plain α) (hf : doc.Fits)
  (hH : ∀ s, doc.Hashes s → H s)
include hp ha hf hH

theorem known_types : ∀ t ∈ doc.types, t.Known H α := fun t ht =>
  ⟨⟨fun s hs => hH s (Or.inl ⟨t, ht, hs⟩), hf.types t ht, (hp.normal t ht).filled⟩, ha.annotated t ht⟩

theorem known_declarations : ∀ d ∈ doc.declarations, d.Known H α := by
  intro d hd
  have types : ∀ t ∈ d.types, t.Known H α := fun t ht =>
    known_types hp ha hf hH t (List.mem_append_left _ (List.mem_flatMap.2 ⟨d, hd, ht⟩))
  have beside : ∀ p ∈ d.params, ∀ t ∈ [p.constraint, p.default], t.Known H α := fun p hm t ht =>
    types t (List.mem_cons_of_mem _ (List.mem_flatMap.2 ⟨p, hm, ht⟩))
  exact ⟨hH _ (Or.inr (Or.inl ⟨d, hd, rfl⟩)), (hf.declarations d hd).1, (hf.declarations d hd).2, hf.params d hd,
    fun p hm => beside p hm _ List.mem_cons_self, fun p hm => beside p hm _ (List.mem_cons_of_mem _ List.mem_cons_self),
    types _ List.mem_cons_self⟩

theorem known_questions : ∀ q ∈ doc.queries, q.question.Known H α := by
  intro q hq
  have types : ∀ t ∈ q.question.types, t.Known H α := fun t ht =>
    known_types hp ha hf hH t (List.mem_append_right _ (List.mem_flatMap.2 ⟨q, hq, ht⟩))
  cases hk : q.question with
  | evaluate t s =>
    rw [hk] at types
    obtain ⟨size, names⟩ := hf.bindings q hq t s hk
    have hashed : H s.stream := hH _ (Or.inr (Or.inr ⟨q, hq, t, s, hk, rfl⟩))
    exact ⟨types t List.mem_cons_self, hashed, size, names,
      fun e he => types _ (List.mem_cons_of_mem _ (List.mem_map_of_mem he))⟩
  | subtype a b capture =>
    rw [hk] at types
    exact ⟨types a List.mem_cons_self, types b (List.mem_cons_of_mem _ List.mem_cons_self)⟩
  | instantiate name args =>
    rw [hk] at types
    exact types
  | other kind => exact absurd hk (hp.kinds q hq kind)

theorem known : doc.Known H α :=
  ⟨known_declarations hp ha hf hH, known_questions hp ha hf hH, ha.legible, hp.distinct⟩

end Known

end Document

/-! ### Histories -/

/-- What happens: a runner is made, or a runner runs a document at some time. -/
inductive Act where
  | new (settings : Settings) (run : String)
  | run (runner : Nat) (now : Int) (doc : Document)

/-- The runners in the order in which they were made, and the store that they share, if there is one. -/
structure World where
  runners : List Runner := []
  store : Option ResultStore

namespace World

/-- What an act shows, and the world after it. Only runs of runners that exist show anything. -/
def step (w : World) : Act → Option (Except String (List Shown)) × World
  | .new settings run => (none, { w with runners := w.runners ++ [.new settings run] })
  | .run i now doc =>
    match w.runners[i]? with
    | none => (none, w)
    | some r =>
      let (outcome, r, store) := { r with now }.runDocument w.store false doc
      (some (Runner.report outcome), ⟨w.runners.set i r, store⟩)

/-- What the acts of a history show one after another. -/
def play (w : World) : List Act → List (Option (Except String (List Shown)))
  | [] => []
  | a :: acts => (w.step a).1 :: (w.step a).2.play acts

/-- The run that an act stores results by, if any. -/
def run? (w : World) : Act → Option Run
  | .new .. => none
  | .run i now doc => w.runners[i]?.bind fun r => { r with now }.loaded? doc

def runs (w : World) : List Act → List Run
  | [] => []
  | a :: acts => (w.run? a).toList ++ (w.step a).2.runs acts

end World

def documents (acts : List Act) : List Document :=
  acts.filterMap fun
    | .new .. => none
    | .run _ _ doc => some doc

/-- The runs of a history without a store. -/
def runsOf (acts : List Act) : List Run := (World.mk [] none).runs acts

/-- The stream is hashed in a history: for its documents, or for the keys of its runs. -/
def Hashed (acts : List Act) (s : Bytes) : Prop :=
  (∃ doc ∈ documents acts, doc.Hashes s) ∨ ∃ k ∈ runsOf acts, s = k.doc.stream k.settings ∨ s = k.declared.stream

namespace World

section Agree
variable {H : Bytes → Prop} {α : Ty.Annotation}

/-- The runners of both worlds are tidy and alike, and stored results stem from runs that their keys tell. -/
structure Agree (H : Bytes → Prop) (α : Ty.Annotation) (w w' : World) : Prop where
  stems : Runner.StoreStems H α w.store
  stems' : Runner.StoreStems H α w'.store
  length : w.runners.length = w'.runners.length
  tidy : ∀ r ∈ w.runners, r.Tidy H α
  tidy' : ∀ r ∈ w'.runners, r.Tidy H α
  alike : ∀ (i : Nat) r r', w.runners[i]? = some r → w'.runners[i]? = some r' → Runner.Alike r r'

theorem tidy_new (settings : Settings) (run : String) : (Runner.new settings run).Tidy H α :=
  ⟨Checker.uniform_of_empty (Checker.stored_new _ _), rfl, nofun⟩

theorem Agree.new {w w' : World} (h : Agree H α w w') (settings : Settings) (run : String) :
    Agree H α { w with runners := w.runners ++ [.new settings run] }
      { w' with runners := w'.runners ++ [.new settings run] } where
  stems := h.stems
  stems' := h.stems'
  length := by simp [h.length]
  tidy := List.forall_mem_append.2 ⟨h.tidy, List.forall_mem_singleton.2 (tidy_new settings run)⟩
  tidy' := List.forall_mem_append.2 ⟨h.tidy', List.forall_mem_singleton.2 (tidy_new settings run)⟩
  alike i r r' hr hr' := by
    dsimp only at hr hr'
    rw [List.getElem?_append] at hr hr'
    rw [h.length] at hr
    split at hr
    · rename_i hi
      rw [if_pos hi] at hr'
      exact h.alike i r r' hr hr'
    · rename_i hi
      rw [if_neg hi] at hr'
      have same := hr.symm.trans hr'
      exact Option.some.inj same ▸ ⟨rfl, rfl⟩

theorem Agree.set {w w' : World} (h : Agree H α w w') {i : Nat} {r r' : Runner} {store store' : Option ResultStore}
    (ht : r.Tidy H α) (ht' : r'.Tidy H α) (ha : Runner.Alike r r') (hs : Runner.StoreStems H α store)
    (hs' : Runner.StoreStems H α store') : Agree H α ⟨w.runners.set i r, store⟩ ⟨w'.runners.set i r', store'⟩ where
  stems := hs
  stems' := hs'
  length := by simp [h.length]
  tidy x hx := by
    rcases List.mem_or_eq_of_mem_set hx with hx | rfl
    · exact h.tidy x hx
    · exact ht
  tidy' x hx := by
    rcases List.mem_or_eq_of_mem_set hx with hx | rfl
    · exact h.tidy' x hx
    · exact ht'
  alike j x x' hx hx' := by
    dsimp only at hx hx'
    rw [List.getElem?_set] at hx hx'
    rw [h.length] at hx
    split at hx
    · rename_i hij
      rw [if_pos hij] at hx'
      split at hx
      · rename_i hi
        rw [if_pos hi] at hx'
        cases hx
        cases hx'
        exact ha
      · cases hx
    · rename_i hij
      rw [if_neg hij] at hx'
      exact h.alike j x x' hx hx'

/-- The clock of a runner matters to nothing but its records. -/
theorem tidy_now {r : Runner} (h : r.Tidy H α) (now : Int) : { r with now := now }.Tidy H α :=
  ⟨h.uniform, h.limit, h.declared⟩

/-- An act shows the same in both worlds, and they still agree after it. -/
theorem step_agree (C : Collisionless H) {w w' : World} (h : Agree H α w w') (a : Act)
    (hd : ∀ i now doc, a = .run i now doc → doc.Known H α) (hk : ∀ k, w'.run? a = some k → k.Framed H) :
    (w.step a).1 = (w'.step a).1 ∧ Agree H α (w.step a).2 (w'.step a).2 := by
  cases a with
  | new settings run => exact ⟨rfl, h.new settings run⟩
  | run i now doc =>
    unfold step
    dsimp only
    cases hr : w.runners[i]? with
    | none =>
      have missing : w'.runners[i]? = none := by
        rw [List.getElem?_eq_none_iff] at hr ⊢
        exact h.length ▸ hr
      rw [missing]
      exact ⟨rfl, h⟩
    | some r =>
      cases hr' : w'.runners[i]? with
      | none =>
        rw [List.getElem?_eq_none_iff, ← h.length, ← List.getElem?_eq_none_iff, hr] at hr'
        cases hr'
      | some r' =>
        have alike := h.alike i r r' hr hr'
        have framed : ∀ k, { r' with now := now }.loaded? doc = some k → k.Framed H := by
          intro k hl
          refine hk k ?_
          rw [run?, hr']
          exact hl
        obtain ⟨shown, tidy, tidy', alike, stems, stems'⟩ := Runner.runDocument_shown C
          (tidy_now (h.tidy r (List.mem_of_getElem? hr)) now) (tidy_now (h.tidy' r' (List.mem_of_getElem? hr')) now)
          ⟨alike.settings, alike.decls⟩ h.stems h.stems' (hd i now doc rfl) framed
        exact ⟨congrArg some shown, h.set tidy tidy' alike stems stems'⟩

/-- A history shows the same in both worlds. -/
theorem play_agree (C : Collisionless H) {acts : List Act} {w w' : World} (h : Agree H α w w')
    (hd : ∀ doc ∈ documents acts, doc.Known H α) (hk : ∀ k ∈ w'.runs acts, k.Framed H) :
    w.play acts = w'.play acts := by
  induction acts generalizing w w' with
  | nil => rfl
  | cons a acts ih =>
    obtain ⟨shown, agree⟩ := step_agree C h a
      (by
        rintro i now doc rfl
        exact hd doc List.mem_cons_self)
      (fun k hk' => hk k (List.mem_append_left _ (by rw [hk']; exact List.mem_cons_self)))
    have later : ∀ doc ∈ documents acts, doc ∈ documents (a :: acts) := by
      intro doc hm
      unfold documents
      rw [List.filterMap_cons]
      split
      · exact hm
      · exact List.mem_cons_of_mem _ hm
    have rest := ih agree (fun doc hm => hd doc (later doc hm)) fun k hm => hk k (List.mem_append_right _ hm)
    rw [play, play, shown, rest]

theorem agree_start : Agree H α ⟨[], some .empty⟩ ⟨[], none⟩ where
  stems s hs x hx := by
    obtain rfl := Option.some.inj hs
    cases hx
  stems' s hs := by cases hs
  length := rfl
  tidy r hr := by cases hr
  tidy' r hr := by cases hr
  alike i r r' hr := by simp at hr

end Agree

/-- A store does not show in what callers are shown. -/
theorem store_never_shows (α : Ty.Annotation) (acts : List Act)
    (parsed : ∀ doc ∈ documents acts, ∃ path text, Document.parse path text = .ok doc)
    (plain : ∀ doc ∈ documents acts, doc.Plain α) (fits : ∀ doc ∈ documents acts, doc.Fits)
    (few : ∀ k ∈ runsOf acts, k.declared.entries.length < UInt64.size) (C : Collisionless (Hashed acts)) :
    (World.mk [] (some .empty)).play acts = (World.mk [] none).play acts := by
  refine play_agree C (agree_start (α := α)) (fun doc hm => ?_) fun k hk => ?_
  · obtain ⟨path, text, hp⟩ := parsed doc hm
    exact Document.known (Document.posed_of_parse hp) (plain doc hm) (fits doc hm) fun s hs => Or.inl ⟨doc, hm, hs⟩
  · exact ⟨Or.inr ⟨k, hk, Or.inl rfl⟩, Or.inr ⟨k, hk, Or.inr rfl⟩, few k hk⟩

end World

/-! ### A parameter with and without a constraint

A hash tells a parameter by its name alone. So does the key that results are stored by, but what a comparison with the
parameter comes to depends on its constraint. -/

/-- A document that asks whether a parameter is assignable to `string`. -/
def comparing (constraint : Ty) : Document :=
  ⟨"d", [], [⟨"q", 2, .subtype (.param "T" constraint .absent) .string false⟩]⟩

def unconstrainedText : String :=
  "queries:\n  - name: q\n    subtype: \x7bsource: \x7bparam: T\x7d, target: \x7bprimitive: string\x7d\x7d\n"

def constrainedText : String :=
  "queries:\n  - name: q\n    subtype: \x7bsource: \x7bparam: \x7bname: T, constraint: \x7bprimitive: string\x7d\x7d\x7d, " ++
    "target: \x7bprimitive: string\x7d\x7d\n"

/-- Whether the parameter of the question is constrained to `string` or not at all. -/
def constrained? : Document → Option Bool
  | ⟨"d", [], [⟨"q", 2, .subtype (.param "T" .absent .absent) (.prim .string) false⟩]⟩ => some false
  | ⟨"d", [], [⟨"q", 2, .subtype (.param "T" (.prim .string) .absent) (.prim .string) false⟩]⟩ => some true
  | _ => none

theorem eq_comparing {doc : Document} {b : Bool} (h : constrained? doc = some b) :
    doc = comparing (if b then .string else .absent) := by
  unfold constrained? at h
  split at h
  · cases h
    rfl
  · cases h
    rfl
  · cases h

theorem parse_comparing {text : String} {b : Bool}
    (h : (Document.parseBy (Document.within 5) "d" text).toOption.bind constrained? = some b) :
    Document.parse "d" text = .ok (comparing (if b then .string else .absent)) := by
  obtain ⟨doc, hd, hb⟩ := Option.bind_eq_some_iff.1 h
  rw [Document.parse_of_within (Ty.eq_ok_of_toOption hd), eq_comparing hb]

theorem parse_unconstrained : Document.parse "d" unconstrainedText = .ok (comparing .absent) :=
  parse_comparing (b := false) (by decide +kernel)

theorem parse_constrained : Document.parse "d" constrainedText = .ok (comparing .string) :=
  parse_comparing (b := true) (by decide +kernel)

theorem Collisionless.of_list {H : Bytes → Prop} {xs : List Bytes} (h : ∀ s, H s → s ∈ xs)
    (apart : (xs.map Bytes.hash).Nodup) (free : ∀ s ∈ xs, s.hash ∉ Ty.reserved) : Collisionless H where
  apart x y hx hy := List.inj_on_of_nodup_map apart (h x hx) (h y hy)
  free x hx := free x (h x hx)

/-- Two runners run a document each. -/
def eachOnce (a b : Document) : List Act := [.new .usual "", .run 0 0 a, .new .usual "", .run 1 0 b]

def comparingStreams : List Bytes :=
  [(Ty.opening .param).text "T", (Ty.opening .primitive).nat 0, (comparing .absent).stream .usual,
    Declarations.stream {}]

theorem hashed_comparing {c d : Ty} {s : Bytes} (h : Hashed (eachOnce (comparing c) (comparing d)) s) :
    s ∈ comparingStreams := by
  have written : ∀ c s, (comparing c).Hashes s → s ∈ comparingStreams := by
    rintro c s (⟨t, ht, u, hu, hs⟩ | ⟨d, hd, -⟩ | ⟨q, hq, t, b, h, -⟩)
    · rcases List.mem_cons.1 ht with rfl | ht
      · rw [hu.eq_of_leaf rfl] at hs
        obtain rfl := Option.some.inj hs
        exact List.mem_cons_self
      · obtain rfl := List.mem_singleton.1 ht
        rw [hu.eq_of_leaf rfl] at hs
        obtain rfl := Option.some.inj hs
        exact List.mem_cons_of_mem _ List.mem_cons_self
    · cases hd
    · obtain rfl := List.mem_singleton.1 hq
      cases h
  rcases h with ⟨doc, hd, hs⟩ | ⟨k, hk, hs⟩
  · rcases List.mem_cons.1 hd with rfl | hd
    · exact written c s hs
    · exact written d s (List.mem_singleton.1 hd ▸ hs)
  · have hk : k ∈ [⟨comparing c, .usual, {}⟩, ⟨comparing d, .usual, {}⟩] := hk
    have keyed : ∀ c, s = (comparing c).stream .usual ∨ s = Declarations.stream {} → s ∈ comparingStreams := by
      rintro c (rfl | rfl)
      · exact List.mem_cons_of_mem _ (List.mem_cons_of_mem _ List.mem_cons_self)
      · exact List.mem_cons_of_mem _ (List.mem_cons_of_mem _ (List.mem_cons_of_mem _ List.mem_cons_self))
    rcases List.mem_cons.1 hk with rfl | hk
    · exact keyed c hs
    · obtain rfl := List.mem_singleton.1 hk
      exact keyed d hs

theorem collisionless_comparing (c d : Ty) : Collisionless (Hashed (eachOnce (comparing c) (comparing d))) :=
  .of_list (fun _ => hashed_comparing) (by decide +kernel) (by decide +kernel)

/-- Two runs of one document, the second of which is answered from the store. -/
theorem store_never_shows_unconstrained :
    (World.mk [] (some .empty)).play (eachOnce (comparing .absent) (comparing .absent)) =
        (World.mk [] none).play (eachOnce (comparing .absent) (comparing .absent)) ∧
      (World.mk [] none).play (eachOnce (comparing .absent) (comparing .absent)) =
        [none, some (.ok [⟨"q", "subtype", "false", none⟩]), none, some (.ok [⟨"q", "subtype", "false", none⟩])] := by
  have only : ∀ doc ∈ documents (eachOnce (comparing .absent) (comparing .absent)), doc = comparing .absent := by
    intro doc hm
    rcases List.mem_cons.1 hm with rfl | hm
    · rfl
    · exact List.mem_singleton.1 hm
  have legible : (comparing .absent).Legible := by
    refine ⟨nofun, nofun, List.forall_mem_singleton.2 (by decide), fun q hq name args h => ?_⟩
    obtain rfl := List.mem_singleton.1 hq
    cases h
  have types : ∀ t ∈ (comparing .absent).types, t.AnnotatedBy Ty.bare ∧ t.Sized := by
    intro t ht
    rcases List.mem_cons.1 ht with rfl | ht
    · refine ⟨rfl, fun u hu => ?_⟩
      rw [hu.eq_of_leaf rfl]
      exact (by decide : "T".utf8ByteSize < UInt64.size)
    · obtain rfl := List.mem_singleton.1 ht
      refine ⟨rfl, fun u hu => ?_⟩
      rw [hu.eq_of_leaf rfl]
      trivial
  have fits : (comparing .absent).Fits := by
    refine ⟨fun t ht => (types t ht).2, nofun, nofun, fun q hq t b h => ?_⟩
    obtain rfl := List.mem_singleton.1 hq
    cases h
  refine ⟨World.store_never_shows Ty.bare _ (fun doc hm => ?_) (fun doc hm => ?_) (fun doc hm => ?_) ?_
    (collisionless_comparing .absent .absent), by decide +kernel⟩
  · exact only doc hm ▸ ⟨"d", unconstrainedText, parse_unconstrained⟩
  · exact only doc hm ▸ ⟨legible, fun t ht => (types t ht).1⟩
  · exact only doc hm ▸ fits
  · intro k hk
    rcases List.mem_cons.1 hk with rfl | hk
    · decide
    · obtain rfl := List.mem_singleton.1 hk
      decide

/-- The key leaves out the constraint of a parameter: a document without the constraint is answered from the store as
    the one with it was. No streams collide there. -/
theorem store_shows_constraint :
    (∀ doc ∈ documents (eachOnce (comparing .string) (comparing .absent)),
      ∃ path text, Document.parse path text = .ok doc) ∧
    Collisionless (Hashed (eachOnce (comparing .string) (comparing .absent))) ∧
    (World.mk [] (some .empty)).play (eachOnce (comparing .string) (comparing .absent)) ≠
      (World.mk [] none).play (eachOnce (comparing .string) (comparing .absent)) := by
  refine ⟨fun doc hm => ?_, collisionless_comparing .string .absent, by decide +kernel⟩
  rcases List.mem_cons.1 hm with rfl | hm
  · exact ⟨"d", constrainedText, parse_constrained⟩
  · exact List.mem_singleton.1 hm ▸ ⟨"d", unconstrainedText, parse_unconstrained⟩

end TypeCalculus

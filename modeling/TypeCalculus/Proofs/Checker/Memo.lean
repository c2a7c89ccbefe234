import TypeCalculus.Proofs.Checker.Adaptive
import TypeCalculus.Proofs.Ty.Identity
import TypeCalculus.Checker.Basic

/-! Remembered answers are right. Whatever is called on a checker, in whatever order, and whatever its memory
    drops on the way, every entry is the answer that the checker without its memory would give now
    (`Answers`), since the only call that changes the declarations empties the memory. -/

namespace TypeCalculus

/-! ### Bindings as one type -/

namespace Subst

/-- The same names are bound in the same order, to identical types. -/
def Alike (s s' : Subst) : Prop :=
  s.entries.length = s'.entries.length ∧
    ∀ p ∈ s.entries.zip s'.entries, p.1.1 = p.2.1 ∧ p.1.2.identical p.2.2 = true

theorem Alike.refl (s : Subst) : s.Alike s := by
  refine ⟨rfl, fun p hp => ?_⟩
  have : ∀ es : List (String × Ty), p ∈ es.zip es → p.1 = p.2 := by
    intro es
    induction es with
    | nil => intro h; cases h
    | cons e es ih =>
      intro h
      rcases List.mem_cons.1 h with rfl | h
      · rfl
      · exact ih h
  rw [this _ hp]
  exact ⟨rfl, Ty.identical_refl _⟩

theorem alike_of_identicalAll (es es' : List (String × Ty))
    (h : Ty.identicalAll (es.flatMap fun (n, t) => [Ty.stringLit n, t])
      (es'.flatMap fun (n, t) => [Ty.stringLit n, t]) = true) : Alike ⟨es⟩ ⟨es'⟩ := by
  induction es generalizing es' with
  | nil =>
    cases es' with
    | nil => exact Alike.refl _
    | cons e es' => cases h
  | cons e es ih =>
    cases es' with
    | nil => cases h
    | cons e' es' =>
      simp only [List.flatMap_cons, List.cons_append, List.nil_append, Ty.identicalAll, Ty.stringLit, Ty.identical,
        Bool.and_eq_true, beq_iff_eq] at h
      obtain ⟨⟨-, hn⟩, ht, hr⟩ := h
      obtain ⟨hl, hz⟩ := ih es' hr
      refine ⟨congrArg (· + 1) hl, fun p hp => ?_⟩
      rcases List.mem_cons.1 hp with rfl | hp
      · exact ⟨hn, ht⟩
      · exact hz p hp

/-- The type that stands for bindings tells names and types apart. -/
theorem alike_of_identical_toTy {s s' : Subst} (h : s.toTy.identical s'.toTy = true) : s.Alike s' := by
  obtain ⟨es⟩ := s
  obtain ⟨es'⟩ := s'
  cases es with
  | nil =>
    cases es' with
    | nil => exact Alike.refl _
    | cons e' es' => cases h
  | cons e es =>
    cases es' with
    | nil => cases h
    | cons e' es' => exact alike_of_identicalAll (e :: es) (e' :: es') h

end Subst

namespace Checker

/-! ### Calls -/

inductive Call where
  | declare (d : Declaration)
  | isSubtype (a b : Ty)
  | capturing (a b : Ty)
  | evaluate (t : Ty) (bindings : Subst)
  | resolve (t : Ty) (bindings : Subst)
  | instantiate (params : List ParamDecl) (args : List Ty) (sites : List Evaluate.InferenceSite)
  | instantiateDeclaration (name : String) (args : List Ty)

def after (c : Checker) : Call → Checker
  | .declare d => (c.declare d).2
  | .isSubtype a b => (c.isSubtype a b).2
  | .capturing a b => (c.capturing a b).2
  | .evaluate t bindings => (c.evaluate t bindings).2
  | .resolve t bindings => (c.resolve t bindings).2
  | .instantiate params args sites => (c.instantiate params args sites).2
  | .instantiateDeclaration name args => (c.instantiateDeclaration name args).2

/-- The states of a checker that is asked only what `allowed` allows. Between calls the memory may drop any of
    its entries, so nothing depends on how it makes room. -/
inductive Reachable (allowed : Call → Prop) (limit cacheSize : Int) : Checker → Prop
  | new : Reachable allowed limit cacheSize (.new limit cacheSize)
  | call {c} (call : Call) : Reachable allowed limit cacheSize c → allowed call →
      Reachable allowed limit cacheSize (c.after call)
  | drop {c memo memo'} : Reachable allowed limit cacheSize c → c.memo = some memo →
      memo'.entries ⊆ memo.entries → Reachable allowed limit cacheSize { c with memo := some memo' }

/-! ### Right answers -/

def forgetful (c : Checker) : Checker := { c with memo := none }

def stored (c : Checker) : List (MemoKey × MemoEntry) :=
  match c.memo with
  | none => []
  | some memo => memo.entries

/-- The answer is not known yet. -/
structure Fresh (c : Checker) (t : Ty) (s : Subst) : Prop where
  valid : t.validate = .ok ()
  unknown : (c.remembered ⟨.evaluate, t.hash, s.hash⟩ t s.toTy).1 = none

/-- The entry under a key has operands with the hashes of the key, and holds what the checker would answer for
    them now without its memory. -/
def Answers (c : Checker) (key : MemoKey) (e : MemoEntry) : Prop :=
  match key.operation with
  | .subtype => e.first.hash = key.first ∧ e.second.hash = key.second ∧
      (Assignable.run { limit := c.limit } e.first e.second).1 = e.verdict
  | .evaluate => e.first.hash = key.first ∧ ∃ s : Subst, e.second = s.toTy ∧ s.hash = key.second ∧
      (c.forgetful.evaluate e.first s).1 = .ok e.result

/-- Every remembered answer is right. -/
def Sound (c : Checker) : Prop := ∀ key e, (key, e) ∈ c.stored → c.Answers key e

/-- `c'` answers as `c` does without memory, and remembers nothing new. -/
structure Keeps (c c' : Checker) : Prop where
  limit : c'.limit = c.limit
  decls : c'.decls = c.decls
  stored : c'.stored ⊆ c.stored

theorem Keeps.refl (c : Checker) : Keeps c c := ⟨rfl, rfl, List.Subset.refl _⟩

theorem Keeps.env {c c' : Checker} (h : Keeps c c') : c'.env = c.env := by
  unfold Checker.env
  rw [h.limit, h.decls]

theorem evaluate_forgetful (c : Checker) (t : Ty) (s : Subst) :
    (c.forgetful.evaluate t s).1 =
      match t.validate with
      | .error e => .error e
      | .ok () => ((evaluateFresh c.env t s).run {}).1 := by
  unfold evaluate
  cases t.validate with
  | error e => rfl
  | ok _ =>
    dsimp only [remembered, forgetful, evaluating, env]
    obtain ⟨outcome, r⟩ := (evaluateFresh { limit := c.limit, decls := c.decls } t s).run {}
    cases outcome <;> rfl

theorem run_of_missing {a b : Ty} (h : (a.isAbsent || b.isAbsent) = true) (limit : Nat) :
    (Assignable.run { limit := limit } a b).1 = false := by
  simp only [Assignable.run]
  cases limit <;> simp only [Assignable.relate, h] <;> rfl

theorem isSubtype_forgetful (c : Checker) (a b : Ty) :
    (c.forgetful.isSubtype a b).1 = (Assignable.run { limit := c.limit } a b).1 := by
  unfold isSubtype
  split
  · rename_i hab
    exact (run_of_missing hab c.limit).symm
  · rfl

theorem Answers.of_keeps {c c' : Checker} {key : MemoKey} {e : MemoEntry} (h : Keeps c c')
    (ha : c.Answers key e) : c'.Answers key e := by
  unfold Answers at ha ⊢
  split
  · rename_i hk
    rw [hk] at ha
    rw [h.limit]
    exact ha
  · rename_i hk
    rw [hk] at ha
    obtain ⟨hf, s, hs, hh, hr⟩ := ha
    rw [evaluate_forgetful] at hr
    refine ⟨hf, s, hs, hh, ?_⟩
    rw [evaluate_forgetful, h.env]
    exact hr

theorem Sound.of_keeps {c c' : Checker} (h : Keeps c c') (hc : c.Sound) : c'.Sound :=
  fun key e he => (hc key e (h.stored he)).of_keeps h

/-! ### Looking up and remembering -/

theorem keeps_remembered (c : Checker) (key : MemoKey) (a b : Ty) : Keeps c (c.remembered key a b).2 := by
  unfold remembered
  split
  · exact Keeps.refl c
  · rename_i memo hm
    have hs : (memo.get key).2.entries ⊆ c.stored := by
      unfold stored
      rw [hm]
      exact Adaptive.entries_get memo key
    dsimp only
    split
    · cases key with
      | mk operation _ _ => cases operation <;> exact ⟨rfl, rfl, hs⟩
    · cases key with
      | mk operation _ _ => cases operation <;> exact ⟨rfl, rfl, hs⟩

/-- A lookup that hits finds an entry under its key, with operands identical to those asked for. -/
theorem remembered_eq_some {c : Checker} {key : MemoKey} {a b : Ty} {e : MemoEntry}
    (h : (c.remembered key a b).1 = some e) :
    (key, e) ∈ c.stored ∧ e.first.identical a = true ∧ e.second.identical b = true := by
  unfold remembered at h
  split at h
  · cases h
  · rename_i memo hm
    have held : c.stored = memo.entries := by simp only [stored, hm]
    dsimp only at h
    split at h
    · rename_i found hf
      cases h
      obtain ⟨hg, hi⟩ := Option.filter_eq_some_iff.1 hf
      simp only [Bool.and_eq_true] at hi
      exact ⟨held ▸ Adaptive.mem_of_get hg, hi.1, hi.2⟩
    · cases h

theorem stored_remember (c : Checker) (key : MemoKey) (e : MemoEntry) :
    (c.remember key e).stored ⊆ (key, e) :: c.stored := by
  unfold remember stored
  cases c.memo with
  | none => exact List.nil_subset _
  | some memo => exact Adaptive.entries_put memo key e

theorem Sound.remember {c : Checker} {key : MemoKey} {e : MemoEntry} (hc : c.Sound) (he : c.Answers key e) :
    (c.remember key e).Sound := by
  have same : ∀ {key' e'}, c.Answers key' e' → (c.remember key e).Answers key' e' := by
    intro key' e' h
    unfold Answers at h ⊢
    split
    · rename_i hk
      rw [hk] at h
      exact h
    · rename_i hk
      rw [hk] at h
      exact h
  intro key' e' h
  rcases List.mem_cons.1 (stored_remember c key e h) with h | h
  · cases h
    exact same he
  · exact same (hc key' e' h)

/-! ### One call -/

theorem keeps_events (c : Checker) (events : List Event) : Keeps c { c with events := events } :=
  ⟨rfl, rfl, List.Subset.refl _⟩

theorem Keeps.trans {c c' c'' : Checker} (h : Keeps c c') (h' : Keeps c' c'') : Keeps c c'' :=
  ⟨h'.limit.trans h.limit, h'.decls.trans h.decls, fun _ he => h.stored (h'.stored he)⟩

theorem keeps_evaluating {α : Type} (c : Checker) (step : Evaluate.Evaluating α) : Keeps c (c.evaluating step).2 :=
  keeps_events c _

/-- What a comparison can come to. -/
inductive Compared (c : Checker) (a b : Ty) : Bool × Checker → Prop
  | missing : (a.isAbsent || b.isAbsent) = true → Compared c a b (false, c)
  | recalled {e c'} : (⟨.subtype, a.hash, b.hash⟩, e) ∈ c.stored → e.first.identical a = true →
      e.second.identical b = true → Keeps c c' → Compared c a b (e.verdict, c')
  | computed {c'} : Keeps c c' → Compared c a b ((Assignable.run { limit := c.limit } a b).1,
      c'.remember ⟨.subtype, a.hash, b.hash⟩
        { first := a, second := b, verdict := (Assignable.run { limit := c.limit } a b).1 })

theorem compared (c : Checker) (a b : Ty) : Compared c a b (c.isSubtype a b) := by
  unfold isSubtype
  split
  · exact .missing ‹_›
  · dsimp only
    have keeps := keeps_remembered c ⟨.subtype, a.hash, b.hash⟩ a b
    split
    · rename_i e c' h
      rw [h] at keeps
      obtain ⟨hm, ha, hb⟩ := remembered_eq_some (congrArg (·.1) h)
      exact .recalled hm ha hb keeps
    · rename_i c' h
      rw [h] at keeps
      have kept := keeps.trans (keeps_events c' ((Assignable.run { limit := c'.limit } a b).2.events ++ c'.events))
      have computed := Compared.computed (a := a) (b := b) kept
      rw [← show c'.limit = c.limit from keeps.limit] at computed
      exact computed

inductive Evaluated (c : Checker) (t : Ty) (s : Subst) : Except TypeError Ty × Checker → Prop
  | invalid {e} : t.validate = .error e → Evaluated c t s (.error e, c)
  | recalled {e c'} : t.validate = .ok () → (⟨.evaluate, t.hash, s.hash⟩, e) ∈ c.stored →
      e.first.identical t = true → e.second.identical s.toTy = true → Keeps c c' → Evaluated c t s (.ok e.result, c')
  | computed {out c'} : t.validate = .ok () → ((evaluateFresh c.env t s).run {}).1 = .ok out → Keeps c c' →
      Evaluated c t s (.ok out, c'.remember ⟨.evaluate, t.hash, s.hash⟩
        { first := t, second := s.toTy, result := out })
  | failed {e c'} : t.validate = .ok () → ((evaluateFresh c.env t s).run {}).1 = .error e → Keeps c c' →
      Evaluated c t s (.error e, c')

theorem evaluated (c : Checker) (t : Ty) (s : Subst) : Evaluated c t s (c.evaluate t s) := by
  unfold evaluate
  split
  · exact .invalid ‹_›
  · rename_i hv
    dsimp only
    have keeps := keeps_remembered c ⟨.evaluate, t.hash, s.hash⟩ t s.toTy
    split
    · rename_i e c' h
      rw [h] at keeps
      obtain ⟨hm, ht, hs⟩ := remembered_eq_some (congrArg (·.1) h)
      exact .recalled hv hm ht hs keeps
    · rename_i c' h
      rw [h] at keeps
      have kept := keeps.trans (keeps_evaluating c' (evaluateFresh c'.env t s))
      split
      · rename_i out c'' ho
        rw [ho] at kept
        exact .computed hv (keeps.env ▸ congrArg (·.1) ho) kept
      · rename_i e c'' ho
        rw [ho] at kept
        exact .failed hv (keeps.env ▸ congrArg (·.1) ho) kept

theorem Compared.sound {c : Checker} {a b : Ty} {r : Bool × Checker} (h : Compared c a b r) (hc : c.Sound) :
    r.2.Sound := by
  cases h with
  | missing => exact hc
  | recalled _ _ _ keeps => exact hc.of_keeps keeps
  | computed keeps =>
    refine (hc.of_keeps keeps).remember ⟨rfl, rfl, ?_⟩
    rw [keeps.limit]

theorem Evaluated.sound {c : Checker} {t : Ty} {s : Subst} {r : Except TypeError Ty × Checker}
    (h : Evaluated c t s r) (hc : c.Sound) : r.2.Sound := by
  cases h with
  | invalid => exact hc
  | recalled _ _ _ _ keeps => exact hc.of_keeps keeps
  | computed hv ho keeps =>
    refine (hc.of_keeps keeps).remember ⟨rfl, s, rfl, rfl, ?_⟩
    rw [evaluate_forgetful, hv, keeps.env]
    exact ho
  | failed _ _ keeps => exact hc.of_keeps keeps

/-- A declaration that is refused changes nothing; any other is added, and the memory is emptied. -/
theorem declare_cases (c : Checker) (d : Declaration) :
    (∃ e, c.declare d = (.error e, c)) ∨
    (c.declare d).1 = .ok () ∧ (c.declare d).2.limit = c.limit ∧ (c.declare d).2.decls = c.decls.insert d ∧
      (c.declare d).2.stored = [] := by
  unfold declare
  split
  · rename_i e _
    exact Or.inl ⟨e, rfl⟩
  · refine Or.inr ⟨rfl, rfl, rfl, ?_⟩
    unfold stored report
    cases c.memo <;> rfl

theorem sound_declare {c : Checker} (hc : c.Sound) (d : Declaration) : (c.declare d).2.Sound := by
  rcases declare_cases c d with ⟨e, h⟩ | ⟨-, -, -, h⟩
  · rw [h]
    exact hc
  · intro key e he
    rw [h] at he
    cases he

/-- What a call can come to. -/
inductive Called (c : Checker) : Call → Checker → Prop
  | declared (d : Declaration) : Called c (.declare d) (c.declare d).2
  | compared (a b : Ty) : Called c (.isSubtype a b) (c.isSubtype a b).2
  | evaluated (t : Ty) (s : Subst) : Called c (.evaluate t s) (c.evaluate t s).2
  | resolved (t : Ty) (s : Subst) : Called c (.resolve t s) (c.evaluate t s).2
  | applied (name : String) (args : List Ty) :
      Called c (.instantiateDeclaration name args) (c.evaluate (.reference name args) {}).2
  | kept {call c'} : Keeps c c' → Called c call c'

theorem called (c : Checker) (call : Call) : Called c call (c.after call) := by
  cases call with
  | declare d => exact .declared d
  | isSubtype a b => exact .compared a b
  | capturing a b => exact .kept (keeps_events c _)
  | evaluate t s => exact .evaluated t s
  | resolve t s =>
    simp only [after, resolve]
    split
    · exact .resolved t s
    · exact .kept (Keeps.refl c)
  | instantiate params args sites =>
    simp only [after, instantiate]
    split
    · exact .kept (Keeps.refl c)
    · exact .kept (keeps_evaluating c _)
  | instantiateDeclaration name args =>
    simp only [after, instantiateDeclaration]
    split
    · exact .applied name args
    · exact .kept (Keeps.refl c)

theorem Called.sound {c c' : Checker} {call : Call} (h : Called c call c') (hc : c.Sound) : c'.Sound := by
  cases h with
  | declared d => exact sound_declare hc d
  | compared a b => exact (Checker.compared c a b).sound hc
  | evaluated t s | resolved t s => exact (Checker.evaluated c t s).sound hc
  | applied name args => exact (Checker.evaluated c _ _).sound hc
  | kept keeps => exact hc.of_keeps keeps

theorem stored_new (limit cacheSize : Int) : (Checker.new limit cacheSize).stored = [] := by
  unfold stored Checker.new
  dsimp only
  split
  · rfl
  · rename_i memo hm
    split at hm
    · cases hm
    · cases hm
      rfl

theorem Keeps.drop {c : Checker} {memo memo' : Adaptive MemoKey MemoEntry} (hm : c.memo = some memo)
    (h : memo'.entries ⊆ memo.entries) : Keeps c { c with memo := some memo' } := by
  have held : c.stored = memo.entries := by simp only [Checker.stored, hm]
  exact ⟨rfl, rfl, held ▸ h⟩

/-- In every state that a checker can come to, remembered answers are right. -/
theorem Reachable.sound {allowed : Call → Prop} {limit cacheSize : Int} {c : Checker}
    (h : Reachable allowed limit cacheSize c) : c.Sound := by
  induction h with
  | new =>
    intro key e he
    rw [stored_new] at he
    cases he
  | call call _ _ ih => exact (called _ call).sound ih
  | drop _ hm hsub ih => exact ih.of_keeps (Keeps.drop hm hsub)

/-! ### What was asked -/

/-- Every question whose answer is remembered satisfies a property. -/
def Recalls (Q : Ty → Ty → Prop) (c : Checker) : Prop := ∀ key e, (key, e) ∈ c.stored → Q e.first e.second

section Recalls
variable {Q : Ty → Ty → Prop} {c c' : Checker}

theorem Recalls.of_keeps (hc : c.Recalls Q) (h : Keeps c c') : c'.Recalls Q := fun key e he => hc key e (h.stored he)

theorem Recalls.remember (hc : c.Recalls Q) {key : MemoKey} {e : MemoEntry} (he : Q e.first e.second) :
    (c.remember key e).Recalls Q := by
  intro key' e' h
  rcases List.mem_cons.1 (stored_remember c key e h) with h | h
  · cases h
    exact he
  · exact hc key' e' h

theorem Evaluated.recalls {t : Ty} {s : Subst} {r : Except TypeError Ty × Checker} (h : Evaluated c t s r)
    (hc : c.Recalls Q) (hq : Q t s.toTy) : r.2.Recalls Q := by
  cases h with
  | invalid => exact hc
  | recalled _ _ _ _ keeps | failed _ _ keeps => exact hc.of_keeps keeps
  | computed _ _ keeps => exact (hc.of_keeps keeps).remember hq

theorem Compared.recalls {a b : Ty} {r : Bool × Checker} (h : Compared c a b r) (hc : c.Recalls Q) (hq : Q a b) :
    r.2.Recalls Q := by
  cases h with
  | missing => exact hc
  | recalled _ _ _ keeps => exact hc.of_keeps keeps
  | computed keeps => exact (hc.of_keeps keeps).remember hq

end Recalls

/-- What holds of the questions that a checker is asked holds of those that it remembers. -/
theorem Reachable.recalls {allowed : Call → Prop} {Q : Ty → Ty → Prop} {limit cacheSize : Int} {c : Checker}
    (compared : ∀ a b, allowed (.isSubtype a b) → Q a b) (evaluated : ∀ t s, allowed (.evaluate t s) → Q t s.toTy)
    (resolved : ∀ t s, allowed (.resolve t s) → Q t s.toTy)
    (applied : ∀ name args, allowed (.instantiateDeclaration name args) → Q (.reference name args) (Subst.toTy {}))
    (h : Reachable allowed limit cacheSize c) : c.Recalls Q := by
  induction h with
  | new =>
    intro key e he
    rw [stored_new] at he
    cases he
  | @call c call _ hcall ih =>
    have answered := called c call
    generalize c.after call = c' at answered ⊢
    cases answered with
    | declared d =>
      rcases declare_cases c d with ⟨e, h⟩ | ⟨-, -, -, h⟩
      · rw [h]
        exact ih
      · intro key e he
        rw [h] at he
        cases he
    | compared a b => exact (Checker.compared c a b).recalls ih (compared a b hcall)
    | evaluated t s => exact (Checker.evaluated c t s).recalls ih (evaluated t s hcall)
    | resolved t s => exact (Checker.evaluated c t s).recalls ih (resolved t s hcall)
    | applied name args => exact (Checker.evaluated c _ _).recalls ih (applied name args hcall)
    | kept keeps => exact ih.of_keeps keeps
  | drop _ hm hsub ih => exact ih.of_keeps (Keeps.drop hm hsub)

/-! ### What callers see -/

/-- An answer about two types is the one that the relation gives for types identical to them. -/
theorem isSubtype_of_sound {c : Checker} (hc : c.Sound) (a b : Ty) :
    ∃ a' b', a'.identical a = true ∧ b'.identical b = true ∧
      (c.isSubtype a b).1 = (c.forgetful.isSubtype a' b').1 := by
  simp only [isSubtype_forgetful]
  have answered := compared c a b
  generalize c.isSubtype a b = r at answered ⊢
  cases answered with
  | missing hab => exact ⟨a, b, Ty.identical_refl a, Ty.identical_refl b, (run_of_missing hab c.limit).symm⟩
  | recalled hm ha hb _ =>
    obtain ⟨-, -, hv⟩ := hc _ _ hm
    exact ⟨_, _, ha, hb, hv.symm⟩
  | computed => exact ⟨a, b, Ty.identical_refl a, Ty.identical_refl b, rfl⟩

/-- An evaluation gives a remembered result for operands identical to its own, or does what it does without
    memory. -/
theorem evaluate_of_sound {c : Checker} (hc : c.Sound) (t : Ty) (s : Subst) :
    (∃ t' s' r, t'.identical t = true ∧ s'.Alike s ∧ (c.forgetful.evaluate t' s').1 = .ok r ∧
      (c.evaluate t s).1 = .ok r) ∨
    (c.evaluate t s).1 = (c.forgetful.evaluate t s).1 := by
  rw [evaluate_forgetful c t s]
  have answered := evaluated c t s
  generalize c.evaluate t s = r at answered ⊢
  cases answered with
  | invalid hv =>
    rw [hv]
    exact Or.inr rfl
  | recalled _ hm ht hs _ =>
    obtain ⟨-, s', hs', -, hr⟩ := hc _ _ hm
    rw [hs'] at hs
    exact Or.inl ⟨_, s', _, ht, Subst.alike_of_identical_toTy hs, hr, rfl⟩
  | computed hv ho _ | failed hv ho _ =>
    rw [hv]
    exact Or.inr ho.symm

/-- A checker that remembers nothing evaluates as it does without memory. -/
theorem evaluate_of_empty {c : Checker} (h : c.stored = []) (t : Ty) (s : Subst) :
    (c.evaluate t s).1 = (c.forgetful.evaluate t s).1 := by
  rw [evaluate_forgetful]
  have answered := evaluated c t s
  generalize c.evaluate t s = r at answered ⊢
  cases answered with
  | invalid hv => rw [hv]
  | recalled _ hm _ _ _ =>
    rw [h] at hm
    cases hm
  | computed hv ho _ | failed hv ho _ =>
    rw [hv]
    exact ho.symm

/-- Remembered answers are right in every state of a checker, whatever its memory drops: each was computed
    for operands with the hashes of its key and is what the checker answers now without its memory. So a
    comparison answers for types identical to those asked for and an evaluation gives the result for operands
    identical to its own, also where hashes collide; failures are never remembered; and a declaration that is
    refused changes nothing. -/
theorem remembered_answers_right {limit cacheSize : Int} {c : Checker}
    (h : Reachable (fun _ => True) limit cacheSize c) :
    (∀ key e, (key, e) ∈ c.stored → c.Answers key e) ∧
    (∀ a b, ∃ a' b', a'.identical a = true ∧ b'.identical b = true ∧
      (c.isSubtype a b).1 = (c.forgetful.isSubtype a' b').1) ∧
    (∀ t s r, (c.evaluate t s).1 = .ok r →
      ∃ t' s', t'.identical t = true ∧ s'.Alike s ∧ (c.forgetful.evaluate t' s').1 = .ok r) ∧
    (∀ t s e, (c.evaluate t s).1 = .error e → (c.forgetful.evaluate t s).1 = .error e) ∧
    (∀ d e, (c.declare d).1 = .error e → (c.declare d).2 = c) := by
  have hc := h.sound
  refine ⟨hc, isSubtype_of_sound hc, fun t s r hr => ?_, fun t s e he => ?_, fun d e he => ?_⟩
  · rcases evaluate_of_sound hc t s with ⟨t', s', r', ht, hs, hf, hr'⟩ | hf
    · rw [hr'] at hr
      cases hr
      exact ⟨t', s', ht, hs, hf⟩
    · exact ⟨t, s, Ty.identical_refl t, Subst.Alike.refl s, hf ▸ hr⟩
  · rcases evaluate_of_sound hc t s with ⟨t', s', r', -, -, -, hr'⟩ | hf
    · rw [hr'] at he
      cases he
    · exact hf ▸ he
  · rcases declare_cases c d with ⟨e', h⟩ | ⟨h, -⟩
    · rw [h]
    · rw [h] at he
      cases he

/-- What is remembered, in print: the operation, the first operand and the answer. -/
def contents (c : Checker) : List (Operation × String × String) :=
  c.stored.map fun (key, e) => (key.operation, e.first.print,
    match key.operation with
    | .subtype => toString e.verdict
    | .evaluate => e.result.print)

/-- `A` is evaluated and then declared anew, which forgets its value. Of two evaluations after that the second is
    answered from memory. Two comparisons follow, and the answer of the second takes the place of that of the first. -/
theorem remembered_answers_right_redeclared :
    let a := Ty.reference "A" []
    let stale := ((Checker.new 5 2).after (.declare ⟨"A", [], .string⟩)).after (.evaluate a {})
    let once := (stale.after (.declare ⟨"A", [], .number⟩)).after (.evaluate a {})
    let twice := once.after (.evaluate a {})
    let crowded := twice.after (.isSubtype .string .any)
    let c := crowded.after (.isSubtype .number .any)
    (stale.contents = [(.evaluate, "A", "string")] ∧ twice.contents = [(.evaluate, "A", "number")] ∧
      once.evaluateLookups.hits = 0 ∧ twice.evaluateLookups.hits = 1 ∧
      crowded.contents = [(.subtype, "string", "true"), (.evaluate, "A", "number")] ∧
      c.contents = [(.subtype, "number", "true"), (.evaluate, "A", "number")]) ∧
    ∀ key e, (key, e) ∈ c.stored → c.Answers key e := by
  intro a stale once twice crowded c
  have stale' : Reachable (fun _ => True) 5 2 stale := .call _ (.call _ .new trivial) trivial
  have once' : Reachable (fun _ => True) 5 2 once := .call _ (.call _ stale' trivial) trivial
  have reached : Reachable (fun _ => True) 5 2 c := .call _ (.call _ (.call _ once' trivial) trivial) trivial
  exact ⟨by decide +kernel, (remembered_answers_right reached).1⟩

end Checker
end TypeCalculus

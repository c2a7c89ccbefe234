import TypeCalculus.Proofs.Assignable.Derivation
import TypeCalculus.Proofs.Assignable.DepthLimit

/-! A comparison answers yes exactly where there is a derivation, and what it captures is what the derivation captures
    (`relate_derived`): nothing of an alternative that was given up is left. -/

namespace TypeCalculus.Assignable
open Ty (holes)

/-! ### Comparisons with derivations -/

/-- The comparison answers yes exactly where there is a derivation, and captures what the derivation does, whatever was
    captured before. -/
structure Derived (x : Relating Bool) (E : List Capture → Prop) : Prop where
  sound : ∀ cs, E cs → ∀ p, (x p).1 = true ∧ (x p).2.captures = replay cs p.captures
  complete : ∀ p, (x p).1 = true → ∃ cs, E cs

namespace Derived
variable {x y : Relating Bool} {E F : List Capture → Prop}

theorem congr (h : Derived x E) (he : ∀ cs, E cs ↔ F cs) : Derived x F := by
  have : E = F := funext fun cs => propext (he cs)
  exact this ▸ h

theorem answer {v : Bool} (h : ∀ cs, E cs ↔ v = true ∧ cs = []) : Derived (pure v) E where
  sound cs hcs p := by
    obtain ⟨rfl, rfl⟩ := (h cs).1 hcs
    exact ⟨rfl, rfl⟩
  complete p hp := ⟨[], (h []).2 ⟨hp, rfl⟩⟩

theorem yes (h : ∀ cs, E cs ↔ cs = []) : Derived (pure true) E :=
  answer fun cs => (h cs).trans (and_iff_right rfl).symm

theorem no (h : ∀ cs, ¬E cs) : Derived (pure false) E :=
  answer fun cs => iff_of_false (h cs) nofun

theorem report (t : Ty) (s : String) (h : ∀ cs, ¬E cs) : Derived (do reportUnreadable t s; pure false) E where
  sound cs hcs := absurd hcs (h cs)
  complete p hp := by cases hp

theorem both (hx : Derived x E) (hy : Derived y F) :
    Derived (do if ← x then y else pure false) fun cs => ∃ ds es, E ds ∧ F es ∧ cs = ds ++ es := by
  have run : ∀ p, (do if ← x then y else pure false : Relating Bool) p = if (x p).1 then y (x p).2 else (false, (x p).2) := by
    intro p
    change (if (x p).1 then y else pure false : Relating Bool) (x p).2 = _
    split <;> rfl
  constructor
  · rintro _ ⟨ds, es, hd, he, rfl⟩ p
    obtain ⟨hp, hc⟩ := hx.sound ds hd p
    obtain ⟨hp', hc'⟩ := hy.sound es he (x p).2
    rw [run, if_pos hp, hc', hc]
    exact ⟨hp', (List.foldl_append ..).symm⟩
  · intro p hp
    rw [run] at hp
    split at hp
    · rename_i h
      obtain ⟨ds, hd⟩ := hx.complete p h
      obtain ⟨es, he⟩ := hy.complete _ hp
      exact ⟨_, ds, es, hd, he, rfl⟩
    · cases hp

/-- The captures of the first alternative are taken back if it fails. -/
theorem choice (hx : Derived x E) (hy : Derived y F) :
    Derived (do if ← attempt x then pure true else y) fun cs => E cs ∨ (¬∃ ds, E ds) ∧ F cs := by
  have run : ∀ p, (do if ← attempt x then pure true else y : Relating Bool) p =
      if (x p).1 then (true, (x p).2) else y { (x p).2 with captures := p.captures } := by
    intro p
    change (if (attempt x p).1 then pure true else y : Relating Bool) (attempt x p).2 = _
    rw [attempt_run]
    cases (x p).1 <;> rfl
  have fails : ∀ p, (x p).1 = false → ¬∃ ds, E ds := by
    rintro p hp ⟨ds, hd⟩
    rw [(hx.sound ds hd p).1] at hp
    cases hp
  constructor
  · rintro cs (h | ⟨hn, h⟩) p
    · obtain ⟨hp, hc⟩ := hx.sound cs h p
      rw [run, if_pos hp]
      exact ⟨rfl, hc⟩
    · rw [run, if_neg fun hp => hn (hx.complete p hp)]
      exact hy.sound cs h _
  · intro p hp
    rw [run] at hp
    cases hv : (x p).1 with
    | true =>
      obtain ⟨ds, hd⟩ := hx.complete p hv
      exact ⟨ds, .inl hd⟩
    | false =>
      rw [hv] at hp
      obtain ⟨ds, hd⟩ := hy.complete _ hp
      exact ⟨ds, .inr ⟨fails p hv, hd⟩⟩

theorem capture (c : Capture) : Derived (do Assignable.capture c.name c.type; pure true) (· = [c]) where
  sound cs hcs p := by
    subst hcs
    exact ⟨rfl, rfl⟩
  complete p _ := ⟨_, rfl⟩

section Lists
variable {α : Type} {f : α → Relating Bool} {G : α → List Capture → Prop} {xs : List α}

theorem every (h : ∀ x ∈ xs, Derived (f x) (G x)) : Derived (every f xs) (Each G xs) := by
  induction xs with
  | nil => exact yes fun cs => each_nil
  | cons x xs ih =>
    have rest := ih fun y hy => h y (List.mem_cons_of_mem _ hy)
    exact ((h x List.mem_cons_self).both rest).congr fun cs => each_cons.symm

theorem first (h : ∀ x ∈ xs, Derived (f x) (G x)) : Derived (first f xs) (First G xs) := by
  induction xs with
  | nil => exact no fun cs => first_nil
  | cons x xs ih =>
    have rest := ih fun y hy => h y (List.mem_cons_of_mem _ hy)
    exact ((h x List.mem_cons_self).choice rest).congr fun cs => first_cons.symm

omit G in
/-- Where no element passes, nothing is left to take back. -/
theorem attempt_first : attempt (Assignable.first f xs) = Assignable.first f xs := by
  funext p
  induction xs generalizing p with
  | nil => rfl
  | cons x xs ih =>
    have run : Assignable.first f (x :: xs) p = if (f x p).1 then (true, (f x p).2)
        else Assignable.first f xs { (f x p).2 with captures := p.captures } := by
      change (if (attempt (f x) p).1 then pure true else Assignable.first f xs : Relating Bool) (attempt (f x) p).2 = _
      rw [attempt_run]
      cases (f x p).1 <;> rfl
    rw [attempt_run, run]
    cases (f x p).1 with
    | true => rfl
    | false =>
      have := ih { (f x p).2 with captures := p.captures }
      rw [attempt_run] at this
      exact this

end Lists

/-! ### Placeholders and templates -/

/-- A check that is refused first if an earlier one fails. -/
theorem refusing (hx : Derived x E) (hy : Derived y F) :
    Derived (do if !(← x) then pure false else y) fun cs => ∃ ds es, E ds ∧ F es ∧ cs = ds ++ es := by
  have swap : (do if !(← x) then pure false else y : Relating Bool) = (do if ← x then y else pure false) := by
    refine congrArg (x >>= ·) (funext fun v => ?_)
    cases v <;> rfl
  exact swap ▸ hx.both hy

section Rules
variable {R : Rel} {D : Derivation}

theorem takes (h : ∀ a b, Derived (R a b) (D a b)) {name : String} {constraint t : Ty} :
    Derived (checkInfer R name constraint t) (Takes D name constraint t) := by
  unfold checkInfer
  split
  · rename_i hc
    have allowed := (h t constraint).refusing (capture ⟨name, constraint, t⟩)
    refine allowed.congr fun cs => ⟨?_, fun ht => ?_⟩
    · rintro ⟨ds, _, hd, rfl, rfl⟩
      exact .allowed (by simpa using hc) hd
    · cases ht with
      | unconstrained => cases hc
      | allowed _ hd => exact ⟨_, _, hd, rfl, rfl⟩
  · rename_i hc
    obtain rfl : constraint = .absent := by cases constraint <;> first | rfl | exact absurd rfl hc
    refine (capture ⟨name, .absent, t⟩).congr fun cs => ⟨fun hcs => hcs ▸ .unconstrained, fun ht => ?_⟩
    cases ht with
    | unconstrained => rfl
    | allowed hc => cases hc

theorem matchHole_infer (R : Rel) (region name : String) (constraint : Ty) :
    matchHole R region (.infer name constraint) = checkInfer R name constraint (captured region constraint) := by
  cases constraint with
  | absent => rfl
  | _ =>
    refine congrArg (R _ _ >>= ·) (funext fun v => ?_)
    cases v <;> rfl

mutual

theorem fills (h : ∀ a b, Derived (R a b) (D a b)) (region : String) :
    (t : Ty) → Derived (matchHole R region t) (Fills D region t)
  | .infer name constraint => by
    rw [matchHole_infer]
    exact (takes h).congr fun cs => by rw [Fills]
  | .template segments => by
    rw [matchHole]
    split
    · rename_i hn
      refine report _ _ fun cs => ?_
      rw [Fills]
      rintro ⟨pieces, _, hp, -⟩
      cases hn.symm.trans hp
    · rename_i pieces hp
      split
      · rename_i regions hr
        refine (fillsEach h regions segments).congr fun cs => ?_
        rw [Fills]
        refine ⟨fun hf => ⟨pieces, regions, hp, hr, hf⟩, ?_⟩
        rintro ⟨pieces', regions', hp', hr', hf⟩
        cases hp.symm.trans hp'
        cases hr.symm.trans hr'
        exact hf
      · rename_i hn
        refine no fun cs => ?_
        rw [Fills]
        rintro ⟨pieces', regions', hp', hr', -⟩
        cases hp.symm.trans hp'
        cases hn.symm.trans hr'
  | .union members => by
    rw [matchHole]
    exact (fillsFirst h region members).congr fun cs => by rw [Fills]
  | .absent | .any | .unknown | .void | .never | .prim _ | .literal .. | .object .. | .array .. | .tuple _
  | .intersection _ | .param .. | .conditional .. | .reference .. | .function .. | .keyOf _ | .access ..
  | .mapping .. => h _ _

theorem fillsFirst (h : ∀ a b, Derived (R a b) (D a b)) (region : String) :
    (ts : List Ty) → Derived (matchMember R region ts) (FillsFirst D region ts)
  | [] => no fun _ hf => hf
  | t :: ts => (fills h region t).choice (fillsFirst h region ts)

theorem fillsEach (h : ∀ a b, Derived (R a b) (D a b)) (regions : List String) :
    (segments : List (Segment Ty)) → Derived (matchSegments R regions segments) (FillsEach D regions segments)
  | [] => yes fun _ => Iff.rfl
  | .text _ :: rest => fillsEach h regions rest
  | .hole t :: rest => by
    cases regions with
    | nil => exact no fun _ hf => hf
    | cons region regions => exact (fills h region t).both (fillsEach h regions rest)

end

variable (h : ∀ a b, Derived (R a b) (D a b))
include h

theorem alignedSegments : (source target : List (Segment Ty)) → Derived (aligned R source target) (Aligned D source target)
  | [], [] => yes fun _ => ⟨fun hcs => by cases hcs; rfl, fun hcs => hcs ▸ .nil⟩
  | .text s :: xs, .text t :: ys => by
    rw [aligned]
    split
    · rename_i hs
      subst hs
      exact (alignedSegments xs ys).congr fun cs => ⟨.text, fun ha => by cases ha; assumption⟩
    · rename_i hs
      refine no fun cs ha => ?_
      cases ha
      exact hs rfl
  | .hole x :: xs, .hole y :: ys => by
    refine ((h x y).both (alignedSegments xs ys)).congr fun cs => ⟨?_, fun ha => ?_⟩
    · rintro ⟨ds, es, hd, he, rfl⟩
      exact .hole hd he
    · cases ha with
      | hole hd he => exact ⟨_, _, hd, he, rfl⟩
  | [], .text _ :: _ | [], .hole _ :: _ | .text _ :: _, [] | .hole _ :: _, [] | .text _ :: _, .hole _ :: _
  | .hole _ :: _, .text _ :: _ => no fun _ => nofun

theorem templates {source target : List (Segment Ty)} :
    Derived (templateFits R source target) (Structural D (.template source) (.template target)) := by
  unfold templateFits
  extract_lets peel
  have peeled : Derived (peel ()) fun cs => ∃ single rest, Ty.singleHole? target = some single ∧
      peeled? source single = some rest ∧ D (Ty.templateOf rest) single.hole cs := by
    dsimp only [peel]
    split
    · rename_i hn
      refine no fun cs => ?_
      rintro ⟨_, _, hs, -⟩
      cases hn.symm.trans hs
    · rename_i single hs
      split
      · rename_i hn
        refine no fun cs => ?_
        rintro ⟨_, _, hs', hr, -⟩
        cases hs.symm.trans hs'
        cases hn.symm.trans hr
      · rename_i rest hr
        refine (h _ _).congr fun cs => ⟨fun hd => ⟨single, rest, hs, hr, hd⟩, ?_⟩
        rintro ⟨_, _, hs', hr', hd⟩
        cases hs.symm.trans hs'
        cases hr.symm.trans hr'
        exact hd
  by_cases hl : source.length = target.length
  · simp only [if_pos hl]
    refine ((alignedSegments h source target).choice peeled).congr fun cs => ⟨?_, fun hs => ?_⟩
    · rintro (ha | ⟨hn, single, rest, hs, hr, hd⟩)
      · exact .aligned hl ha
      · exact .peeled (fun _ => hn) hs hr hd
    · cases hs with
      | aligned _ ha => exact .inl ha
      | peeled hn hs hr hd => exact .inr ⟨hn hl, _, _, hs, hr, hd⟩
  · simp only [if_neg hl]
    refine peeled.congr fun cs => ⟨?_, fun hs => ?_⟩
    · rintro ⟨single, rest, hs, hr, hd⟩
      exact .peeled (fun he => absurd he hl) hs hr hd
    · cases hs with
      | aligned he => exact absurd he hl
      | peeled _ hs hr hd => exact ⟨_, _, hs, hr, hd⟩

/-! ### Shapes -/

theorem providesProp {source : List (Property Ty)} {want : Property Ty} :
    Derived (propFits R source want) (ProvidesProp D source want) := by
  unfold propFits
  split
  · rename_i hn
    refine answer fun cs => ⟨fun hp => ?_, fun ⟨ho, hcs⟩ => hcs ▸ .missing hn ho⟩
    cases hp with
    | missing _ ho => exact ⟨ho, rfl⟩
    | found hf => cases hn.symm.trans hf
  · rename_i got hf
    have inverse : ∀ cs, ProvidesProp D source want cs ↔
        (got.optional = true → want.optional = true) ∧ (got.readonly = true → want.readonly = true) ∧
          D got.type want.type cs := by
      refine fun cs => ⟨fun hp => ?_, fun ⟨ho, hr, hd⟩ => .found hf ho hr hd⟩
      cases hp with
      | missing hn => cases hn.symm.trans hf
      | found hf' ho hr hd =>
        cases hf.symm.trans hf'
        exact ⟨ho, hr, hd⟩
    split
    · rename_i ho
      refine no fun cs hp => ?_
      have := ((inverse cs).1 hp).1
      simp_all
    · rename_i ho
      split
      · rename_i hr
        refine no fun cs hp => ?_
        have := ((inverse cs).1 hp).2.1
        simp_all
      · rename_i hr
        refine (h _ _).congr fun cs => ((inverse cs).trans ?_).symm
        simp_all

theorem providesValues {source : Shape} {want : IndexSignature Ty} :
    Derived (match source.index with
      | none => return true
      | some got => if got.key = want.key || want.key = .string then R got.value want.value else return true)
      (ProvidesValues D source want) := by
  have other : (∀ got, source.index = some got → ¬(got.key = want.key ∨ want.key = .string)) →
      Derived (pure true) (ProvidesValues D source want) := by
    refine fun hn => yes fun cs => ⟨fun hp => ?_, fun hcs => hcs ▸ .other hn⟩
    cases hp with
    | other => rfl
    | same hs hk => exact absurd hk (hn _ hs)
  split
  · rename_i hs
    exact other fun got hg => by cases hs.symm.trans hg
  · rename_i got hs
    split
    · rename_i hk
      have hk : got.key = want.key ∨ want.key = .string := by simpa using hk
      refine (h got.value want.value).congr fun cs => ⟨.same hs hk, fun hp => ?_⟩
      cases hp with
      | other hn => exact absurd hk (hn got hs)
      | same hs' _ hd =>
        cases hs.symm.trans hs'
        exact hd
    · rename_i hk
      refine other fun got' hs' => ?_
      cases hs.symm.trans hs'
      simpa using hk

theorem providesIndex {source : Shape} {index : Option (IndexSignature Ty)} :
    Derived (do
      match index with
      | none => return true
      | some want =>
        let covered := source.props.filter fun p => want.covers p.key
        if !(← Assignable.every (fun p => R p.type want.value) covered) then return false
        match source.index with
        | none => return true
        | some got => if got.key = want.key || want.key = .string then R got.value want.value else return true)
      (ProvidesIndex D source index) := by
  split
  · exact yes fun cs => ⟨fun hp => by cases hp; rfl, fun hcs => hcs ▸ .none⟩
  · rename_i want
    refine (refusing (every fun p _ => h p.type want.value) (providesValues h)).congr fun cs => ⟨?_, fun hp => ?_⟩
    · rintro ⟨ds, es, hd, he, rfl⟩
      exact .some hd he
    · cases hp with
      | some hd he => exact ⟨_, _, hd, he, rfl⟩

theorem shapes {a : Ty} {s : Shape} {props : List (Property Ty)} {index : Option (IndexSignature Ty)}
    (hs : apparentShape? a = some s) : Derived (shapeFits R s ⟨props, index⟩) (Structural D a (.object props index)) := by
  refine (refusing (every fun want _ => providesProp h) (providesIndex h)).congr fun cs => ⟨?_, fun ho => ?_⟩
  · rintro ⟨ds, es, hd, he, rfl⟩
    exact .object hs hd he
  · cases ho with
    | object hs' hd he =>
      cases hs.symm.trans hs'
      exact ⟨_, _, hd, he, rfl⟩

/-! ### Steps -/

omit h in
/-- Nothing is captured where only base types are compared. -/
theorem sameBase {p q : Prim} {S : List Capture → Prop} (hs : ∀ cs, S cs ↔ p = q ∧ cs = []) : Derived (return p = q) S :=
  answer fun cs => (hs cs).trans (and_congr_left' decide_eq_true_iff.symm)

omit h in
theorem prims {a : Ty} {q : Prim} : Derived (checkStructure R a (.prim q)) (Structural D a (.prim q)) := by
  cases a with
  | literal =>
    refine sameBase fun cs => ⟨fun hs => by cases hs; exact ⟨rfl, rfl⟩, ?_⟩
    rintro ⟨rfl, rfl⟩
    exact .literal
  | template =>
    refine sameBase fun cs => ⟨fun hs => by cases hs; exact ⟨rfl, rfl⟩, ?_⟩
    rintro ⟨rfl, rfl⟩
    exact .template
  | mapping =>
    refine sameBase fun cs => ⟨fun hs => by cases hs; exact ⟨rfl, rfl⟩, ?_⟩
    rintro ⟨rfl, rfl⟩
    exact .mapping
  | _ => exact no fun cs => nofun

theorem mappings {a arg : Ty} {op : Mapping} : Derived (checkStructure R a (.mapping op arg)) (Structural D a (.mapping op arg)) := by
  unfold checkStructure
  dsimp only
  split
  · rename_i text
    split
    · rename_i ho
      exact (h _ arg).congr fun cs => ⟨.mapped ho, fun hs => by cases hs; assumption⟩
    · exact no fun cs hs => by cases hs; contradiction
  · rename_i hl
    exact no fun cs hs => by cases hs; exact hl _ rfl

theorem arrays {a y : Ty} {readonly' : Bool} : Derived (checkStructure R a (.array y readonly')) (Structural D a (.array y readonly')) := by
  cases a with
  | array x readonly =>
    unfold checkStructure
    dsimp only
    split
    · rename_i hr
      refine no fun cs hs => ?_
      cases hs with
      | array hr' => simp_all
    · rename_i hr
      refine (h x y).congr fun cs => ⟨.array ?_, fun hs => by cases hs; assumption⟩
      simpa using hr
  | tuple xs => exact (h _ y).congr fun cs => ⟨.elements, fun hs => by cases hs; assumption⟩
  | _ => exact no fun cs => nofun

theorem tuples {a : Ty} {ys : List Ty} : Derived (checkStructure R a (.tuple ys)) (Structural D a (.tuple ys)) := by
  cases a with
  | tuple xs =>
    unfold checkStructure
    dsimp only
    split
    · rename_i hl
      exact (every fun p _ => h p.1 p.2).congr fun cs => ⟨.tuple hl, fun hs => by cases hs; assumption⟩
    · exact no fun cs hs => by cases hs; contradiction
  | _ => exact no fun cs => nofun

theorem references {a : Ty} {m : String} {ys : List Ty} :
    Derived (checkStructure R a (.reference m ys)) (Structural D a (.reference m ys)) := by
  cases a with
  | reference n xs =>
    unfold checkStructure
    dsimp only
    split
    · rename_i hl
      obtain ⟨rfl, hlen⟩ : n = m ∧ xs.length = ys.length := by simpa using hl
      exact (every fun p _ => h p.1 p.2).congr fun cs => ⟨.reference hlen, fun hs => by cases hs; assumption⟩
    · rename_i hl
      refine no fun cs hs => ?_
      cases hs with
      | reference hl' => exact hl (by simp [hl'])
  | _ => exact no fun cs => nofun

theorem functions {a y : Ty} {ys : List Ty} : Derived (checkStructure R a (.function ys y)) (Structural D a (.function ys y)) := by
  cases a with
  | function xs x =>
    unfold checkStructure
    dsimp only
    split
    · rename_i hl
      refine no fun cs hs => ?_
      cases hs with
      | function hl' => omega
    · rename_i hl
      refine ((every fun p _ => h p.2 p.1).both (h x y)).congr fun cs => ⟨?_, fun hs => ?_⟩
      · rintro ⟨ds, es, hd, he, rfl⟩
        exact .function (Nat.le_of_not_lt hl) hd he
      · cases hs with
        | function _ hd he => exact ⟨_, _, hd, he, rfl⟩
  | _ => exact no fun cs => nofun

theorem structural {a b : Ty} : Derived (checkStructure R a b) (Structural D a b) := by
  cases b with
  | void =>
    unfold checkStructure
    dsimp only
    split
    · exact yes fun cs => ⟨fun hs => by cases hs; rfl, fun hcs => hcs ▸ .undefined⟩
    · rename_i hn
      exact no fun cs hs => by cases hs; exact hn rfl
  | prim => exact prims
  | template target =>
    unfold checkStructure
    dsimp only
    split
    · rename_i text
      exact (fills h text (.template target)).congr fun cs => ⟨.filled, fun hs => by cases hs; assumption⟩
    · exact templates h
    · rename_i hl ht
      refine no fun cs hs => ?_
      cases hs with
      | filled => exact hl _ rfl
      | aligned | peeled => exact ht _ rfl
  | mapping => exact mappings h
  | object =>
    unfold checkStructure
    dsimp only
    split
    · rename_i s hs
      exact shapes h hs
    · rename_i hn
      refine no fun cs ho => ?_
      cases ho with
      | object hs => cases hn.symm.trans hs
  | array => exact arrays h
  | tuple => exact tuples h
  | reference => exact references h
  | function => exact functions h
  | _ => exact no fun cs => nofun

theorem bounded {a b : Ty} : Derived (checkBound R a b) fun cs => ∃ u, upperBound? a = some u ∧ D u b cs := by
  unfold checkBound
  split
  · rename_i u hu
    refine (h u b).congr fun cs => ⟨fun hd => ⟨u, hu, hd⟩, ?_⟩
    rintro ⟨u', hu', hd⟩
    cases hu.symm.trans hu'
    exact hd
  · rename_i hn
    refine no fun cs => ?_
    rintro ⟨u, hu, -⟩
    cases hn.symm.trans hu

theorem single {a b : Ty} : Derived (checkSingle R a b) (Single D a b) := by
  have inverse : (∀ n c, b ≠ .infer n c) → (∀ n c, a ≠ .infer n c) → ∀ cs,
      Single D a b cs ↔ (∃ u, upperBound? a = some u ∧ D u b cs) ∨ Structural D a b cs := by
    refine fun hb ha cs => ⟨fun hs => ?_, ?_⟩
    · cases hs with
      | targetInfer => exact absurd rfl (hb _ _)
      | sourceInfer => exact absurd rfl (ha _ _)
      | bound _ hu hd => exact .inl ⟨_, hu, hd⟩
      | structural hs => exact .inr hs
    · rintro (⟨u, hu, hd⟩ | hs)
      · exact .bound hb hu hd
      · exact .structural hs
  have open_ : (∀ n c, b ≠ .infer n c) → (∀ n c, a ≠ .infer n c) → (∀ cs, ¬Structural D a b cs) →
      Derived (checkBound R a b) (Single D a b) := fun hb ha hs =>
    (bounded h).congr fun cs => ((inverse hb ha cs).trans (or_iff_left (hs cs))).symm
  unfold checkSingle
  split
  · refine (takes h).congr fun cs => ⟨.targetInfer, fun hs => ?_⟩
    cases hs with
    | targetInfer ht => exact ht
    | sourceInfer hb | bound hb => exact absurd rfl (hb _ _)
    | structural hs => cases hs
  · rename_i hb
    split
    · refine (takes h).congr fun cs => ⟨.sourceInfer hb, fun hs => ?_⟩
      cases hs with
      | targetInfer => exact absurd rfl (hb _ _)
      | sourceInfer _ ht => exact ht
      | bound _ hu => cases hu
      | structural hs => cases hs with | object hs => cases hs
    · exact no fun cs hs => by rcases (inverse hb (by intro _ _ h; cases h) cs).1 hs with ⟨u, hu, -⟩ | ⟨hs⟩ <;> contradiction
    · exact no fun cs hs => by rcases (inverse hb (by intro _ _ h; cases h) cs).1 hs with ⟨u, hu, -⟩ | ⟨hs⟩ <;> contradiction
    · exact no fun cs hs => by rcases (inverse hb (by intro _ _ h; cases h) cs).1 hs with ⟨u, hu, -⟩ | ⟨hs⟩ <;> contradiction
    · exact no fun cs hs => by rcases (inverse hb (by intro _ _ h; cases h) cs).1 hs with ⟨u, hu, -⟩ | ⟨hs⟩ <;> contradiction
    · exact open_ hb (by intro _ _ h; cases h) fun cs hs => by cases hs with | object hs => cases hs
    · exact open_ hb (by intro _ _ h; cases h) fun cs hs => by cases hs with | object hs => cases hs
    · exact open_ hb (by intro _ _ h; cases h) fun cs hs => by cases hs with | object hs => cases hs
    · rename_i ha _ _ _ _ hparam hcond hkey
      have unbounded : upperBound? a = none := by
        cases a with
        | param => exact absurd rfl (hparam _ _ _)
        | conditional => exact absurd rfl (hcond _ _ _ _ _)
        | keyOf => exact absurd rfl (hkey _)
        | _ => rfl
      refine (structural h).congr fun cs => ((inverse hb ha cs).trans (or_iff_right ?_)).symm
      rintro ⟨u, hu, -⟩
      cases unbounded.symm.trans hu

theorem unions {a : Ty} {members : List Ty} (ha : ∀ ms, a ≠ .union ms) :
    Derived (checkUnion R a (.union members) members) (Rule D a (.union members)) := by
  have inverse : ∀ cs, Rule D a (.union members) cs ↔ SplitBoolean a members ∧ cs = [] ∨ ¬SplitBoolean a members ∧
      (First (D a) members cs ∨ (¬∃ ds, First (D a) members ds) ∧ ∃ u, upperBound? a = some u ∧ D u (.union members) cs) := by
    refine fun cs => ⟨fun hr => ?_, ?_⟩
    · cases hr with
      | sourceMembers => exact absurd rfl (ha _)
      | splitBoolean hb => exact .inl ⟨hb, rfl⟩
      | targetMember _ hb hf => exact .inr ⟨hb, .inl hf⟩
      | targetBound _ hb hn hu hd =>
        refine .inr ⟨hb, .inr ⟨fun hf => ?_, _, hu, hd⟩⟩
        obtain ⟨m, hm, hd⟩ := exists_first.1 hf
        exact hn m hm hd
      | sourcePart hb | single _ hb => exact absurd rfl (hb _)
    · rintro (⟨hb, rfl⟩ | ⟨hb, hf | ⟨hn, u, hu, hd⟩⟩)
      · exact .splitBoolean hb
      · exact .targetMember ha hb hf
      · exact .targetBound ha hb (fun m hm hd => hn (exists_first.2 ⟨m, hm, hd⟩)) hu hd
  have chosen : Derived (do if ← Assignable.first (fun m => R a m) members then pure true else checkBound R a (.union members)) _ :=
    attempt_first (f := fun m => R a m) ▸ (first fun m _ => h a m).choice (bounded h)
  have unsplit : ¬SplitBoolean a members → Derived (do
      if ← Assignable.first (fun m => R a m) members then return true
      checkBound R a (.union members)) (Rule D a (.union members)) := fun hb =>
    chosen.congr fun cs => ((inverse cs).trans (by simp [hb])).symm
  have both : ∀ {x : Bool}, x = true → ((x && Ty.hasMember members (Ty.boolLit true) &&
      Ty.hasMember members (Ty.boolLit false)) = true ↔ Ty.hasMember members (Ty.boolLit true) = true ∧
      Ty.hasMember members (Ty.boolLit false) = true) := by
    rintro x rfl
    rw [Bool.true_and, Bool.and_eq_true]
  unfold checkUnion
  split <;> split
  · rename_i hs
    have hb : SplitBoolean .boolean members := ⟨rfl, (both rfl).1 hs⟩
    refine yes fun cs => (inverse cs).trans ⟨?_, fun hcs => .inl ⟨hb, hcs⟩⟩
    rintro (⟨-, hcs⟩ | ⟨hn, -⟩)
    · exact hcs
    · exact absurd hb hn
  · rename_i hs
    exact unsplit fun hb => hs ((both rfl).2 hb.2)
  · rename_i hs
    cases hs
  · rename_i hn _
    exact unsplit fun hb => hn hb.1

theorem rule {o : Options} {a b : Ty} : Derived (check o R a b) (Step o D a b) := by
  unfold check
  split
  · rename_i he
    refine yes fun cs => ⟨fun hs => ?_, fun hcs => hcs ▸ .evident he⟩
    cases hs with
    | evident => rfl
    | rule hn => exact absurd he (ne_true_of_eq_false hn)
  · rename_i he
    have rest : ∀ cs, Rule D a b cs ↔ Step o D a b cs := by
      refine fun cs => ⟨.rule (Bool.eq_false_iff.2 he), fun hs => ?_⟩
      cases hs with
      | evident h => exact absurd h he
      | rule _ hr => exact hr
    refine congr (E := Rule D a b) ?_ rest
    split
    · refine (every fun m _ => h m _).congr fun cs => ⟨.sourceMembers, fun hr => ?_⟩
      cases hr with
      | sourceMembers hs => exact hs
      | splitBoolean hs => cases hs.1
      | targetMember ha | targetBound ha | targetParts ha | single ha => exact absurd rfl (ha _)
    · rename_i ha
      exact unions h ha
    · rename_i hb
      refine (first fun m _ => h m _).congr fun cs => ⟨.sourcePart hb, fun hr => ?_⟩
      cases hr with
      | splitBoolean | targetMember | targetBound => exact absurd rfl (hb _)
      | sourcePart _ hf => exact hf
      | targetParts _ ha | single _ _ ha => exact absurd rfl (ha _)
    · rename_i ha ham
      refine (every fun m _ => h _ m).congr fun cs => ⟨fun hs => .targetParts ha ham hs, fun hr => ?_⟩
      cases hr with
      | sourceMembers => exact absurd rfl (ha _)
      | sourcePart => exact absurd rfl (ham _)
      | targetParts _ _ hs => exact hs
      | single _ _ _ hb => exact absurd rfl (hb _)
    · rename_i ha ham hb hbm
      refine (single h).congr fun cs => ⟨.single ha hb ham hbm, fun hr => ?_⟩
      cases hr with
      | sourceMembers => exact absurd rfl (ha _)
      | splitBoolean | targetMember | targetBound => exact absurd rfl (hb _)
      | sourcePart => exact absurd rfl (ham _)
      | targetParts => exact absurd rfl (hbm _)
      | single _ _ _ _ hs => exact hs

end Rules
end Derived

/-- A comparison does what its derivation says. -/
theorem relate_derived (o : Options) (n : Nat) (a b : Ty) : Derived (relate o n a b) (Derives o n a b) := by
  induction n generalizing a b with
  | zero =>
    rw [relate]
    split
    · exact .no fun _ hd => hd
    · exact ⟨fun _ hd => hd.elim, fun p hp => by cases hp⟩
  | succ n ih =>
    rw [relate]
    split
    · rename_i hp
      refine .no fun cs hd => ?_
      rw [hd.1, hd.2.1] at hp
      cases hp
    · rename_i hp
      simp only [Bool.or_eq_true, not_or, Bool.not_eq_true] at hp
      exact (Derived.rule ih).congr fun cs => ⟨fun hs => ⟨hp.1, hp.2, hs⟩, fun hd => hd.2.2⟩

/-- Derivations capture under the names of placeholders of the types compared. -/
theorem derives_placed {o : Options} {n : Nat} {a b : Ty} {cs : List Capture} (h : Derives o n a b cs) :
    ∀ c ∈ cs, Placed c.name a ∨ Placed c.name b := by
  induction n generalizing a b cs with
  | zero => exact h.elim
  | succ n ih =>
    refine h.2.2.origin (fun x y hxy ds hd c hc => ?_) fun c hc _ => hc
    obtain ⟨hx, hy⟩ := hxy.handed (handed_placed fun name => Placed name a ∨ Placed name b) (fun _ => .inl) fun _ => .inr
    exact (ih hd c hc).elim (hx c.name) (hy c.name)

theorem binds_replay {cs : List Capture} {captures : Subst} {name : String} (h : (replay cs captures).binds name = true) :
    captures.binds name = true ∨ ∃ c ∈ cs, c.name = name := by
  induction cs generalizing captures with
  | nil => exact .inl h
  | cons c cs ih =>
    rcases ih h with h | ⟨d, hd, hn⟩
    · unfold Subst.binds Capture.record at h
      rw [Subst.find?_insert] at h
      split at h
      · rename_i hn
        exact .inr ⟨c, List.mem_cons_self, hn.symm⟩
      · exact .inl h
    · exact .inr ⟨d, List.mem_cons_of_mem _ hd, hn⟩

/-- No capture of an alternative that was given up is left. The answer of a comparison does not depend on what was captured
    before; it is yes exactly where there is a derivation, and then what is captured is what was captured before with the
    captures of the derivation after it. New names are those of placeholders of the types compared. -/
theorem captures_of_derivation (o : Options) (n : Nat) (a b : Ty) :
    (∀ p q : Progress, (relate o n a b p).1 = (relate o n a b q).1) ∧
    (∀ p : Progress, (relate o n a b p).1 = true ↔ ∃ cs, Derives o n a b cs) ∧
    (∀ cs, Derives o n a b cs → ∀ p : Progress, (relate o n a b p).2.captures = replay cs p.captures) ∧
    (∀ p : Progress, (relate o n a b p).1 = true → ∀ name, (relate o n a b p).2.captures.binds name = true →
      p.captures.binds name = true ∨ Placed name a ∨ Placed name b) := by
  have derived := relate_derived o n a b
  have accepted : ∀ p : Progress, (relate o n a b p).1 = true ↔ ∃ cs, Derives o n a b cs :=
    fun p => ⟨derived.complete p, fun ⟨cs, hcs⟩ => (derived.sound cs hcs p).1⟩
  refine ⟨fun p q => ?_, accepted, fun cs hcs p => (derived.sound cs hcs p).2, fun p hp name hn => ?_⟩
  · exact Bool.eq_iff_iff.2 ((accepted p).trans (accepted q).symm)
  · obtain ⟨cs, hcs⟩ := derived.complete p hp
    rw [(derived.sound cs hcs p).2] at hn
    refine (binds_replay hn).imp_right ?_
    rintro ⟨c, hc, rfl⟩
    exact derives_placed hcs c hc

/-- What the first member captures before its last position fails is taken back. -/
example :
    let b := Ty.union [.tuple [.infer "X" .absent, .symbol], .tuple [.string, .infer "Y" .absent]]
    ((run ⟨5, false⟩ (.tuple [.string, .number]) b).2.captures.entries = [("Y", .number)]) := by cbv

end TypeCalculus.Assignable

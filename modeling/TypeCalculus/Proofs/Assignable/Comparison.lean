import TypeCalculus.Proofs.Ty.Shape
import TypeCalculus.Assignable.Relation
import TypeCalculus.Ty.Walk

/-! What one step of a comparison does with the relation it is given. It asks the relation only about the
    pairs that `Compares` lists, puts the answers together by conjunction, by choice with captures taken
    back, and by captures. So whatever these ways of composition keep is kept by the whole step
    (`Compatible.check`), and statements about comparisons need not look at its rules again. -/

namespace TypeCalculus.Assignable
open Ty (holes)

/-! ### Which pairs are compared -/

/-- Matching a text with `t` may compare a literal with `u`. -/
inductive Matched : Ty → Ty → Prop
  | self {t} : Matched t t
  | constraint {name c} : Matched (.infer name c) c
  | hole {segments t u} : t ∈ holes segments → Matched t u → Matched (.template segments) u
  | member {members t u} : t ∈ members → Matched t u → Matched (.union members) u

/-- `Compares a b x y`: one step of comparing `a` with `b` may compare `x` with `y`. -/
inductive Compares : Ty → Ty → Ty → Ty → Prop
  | sourceMember {members b m} : m ∈ members → Compares (.union members) b m b
  | targetMember {a members m} : m ∈ members → Compares a (.union members) a m
  | sourcePart {members b m} : m ∈ members → Compares (.intersection members) b m b
  | targetPart {a members m} : m ∈ members → Compares a (.intersection members) a m
  | bound {a b u} : upperBound? a = some u → Compares a b u b
  | targetInfer {a name c} : Compares a (.infer name c) a c
  | sourceInfer {name c b} : Compares (.infer name c) b b c
  | hole {text target region t u} : t ∈ holes target → Matched t u →
      Compares (.literal .string text) (.template target) (captured region u) u
  | aligned {source target x y} : x ∈ holes source → y ∈ holes target →
      Compares (.template source) (.template target) x y
  | peeled {source target single rest} : Ty.singleHole? target = some single →
      peeled? source single = some rest →
      Compares (.template source) (.template target) (Ty.templateOf rest) single.hole
  | mapping {text op arg} : Compares (.literal .string text) (.mapping op arg) (.literal .string text) arg
  | prop {a s p props index q} : apparentShape? a = some s → p ∈ s.props → q ∈ props →
      Compares a (.object props index) p.type q.type
  | covered {a s p props j} : apparentShape? a = some s → p ∈ s.props →
      Compares a (.object props (some j)) p.type j.value
  | index {a s i props j} : apparentShape? a = some s → s.index = some i →
      Compares a (.object props (some j)) i.value j.value
  | element {x r y s} : Compares (.array x r) (.array y s) x y
  | elements {xs y s} : Compares (.tuple xs) (.array y s) (Ty.unionOf xs) y
  | position {xs ys x y} : x ∈ xs → y ∈ ys → Compares (.tuple xs) (.tuple ys) x y
  | argument {n xs m ys x y} : x ∈ xs → y ∈ ys → Compares (.reference n xs) (.reference m ys) x y
  | parameter {xs x' ys y' x y} : x ∈ xs → y ∈ ys → Compares (.function xs x') (.function ys y') y x
  | result {xs x ys y} : Compares (.function xs x) (.function ys y) x y

/-! ### What a comparison puts in place of its operands -/

/-- A text stands for a literal, `null` or `undefined`. -/
def Constant (t : Ty) : Prop := t = .null ∨ t = .undefined ∨ ∃ base text, t = .literal base text

theorem literalOfPrim?_constant {region : String} {base : Prim} {t : Ty}
    (h : literalOfPrim? region base = some t) : Constant t := by
  cases base with
  | number =>
    rw [literalOfPrim?] at h
    split at h
    · obtain ⟨n, -, rfl⟩ := Option.map_eq_some_iff.1 h
      exact Or.inr (Or.inr ⟨_, _, rfl⟩)
    · cases h
  | bigint =>
    obtain ⟨n, -, rfl⟩ := Option.map_eq_some_iff.1 h
    exact Or.inr (Or.inr ⟨_, _, rfl⟩)
  | boolean =>
    rw [literalOfPrim?] at h
    split at h
    · cases h
      exact Or.inr (Or.inr ⟨_, _, rfl⟩)
    · split at h
      · cases h
        exact Or.inr (Or.inr ⟨_, _, rfl⟩)
      · cases h
  | null =>
    rw [literalOfPrim?] at h
    split at h
    · cases h
      exact Or.inl rfl
    · cases h
  | undefined =>
    rw [literalOfPrim?] at h
    split at h
    · cases h
      exact Or.inr (Or.inl rfl)
    · cases h
  | string | symbol => cases h

mutual

theorem literalFor?_constant {region : String} {t : Ty} : (hole : Ty) → literalFor? region hole = some t → Constant t
  | .prim base, h => @literalOfPrim?_constant region base t h
  | .literal base _, h => @literalOfPrim?_constant region base t h
  | .union members, h => literalForAny?_constant members h

theorem literalForAny?_constant {region : String} {t : Ty} :
    (holes : List Ty) → literalForAny? region holes = some t → Constant t
  | u :: us, h => by
    rw [literalForAny?] at h
    cases hu : literalFor? region u with
    | some v =>
      rw [hu] at h
      cases h
      exact literalFor?_constant u hu
    | none =>
      rw [hu] at h
      exact literalForAny?_constant us h

end

theorem captured_constant (region : String) (hole : Ty) : Constant (captured region hole) := by
  unfold captured
  cases h : literalFor? region hole with
  | none => exact Or.inr (Or.inr ⟨_, _, rfl⟩)
  | some t => exact literalFor?_constant hole h

theorem singleHoleFrom_hole {segments : List (Segment Ty)} {found : Nat} {acc single : Ty.SingleHole}
    (h : Ty.singleHoleFrom found acc segments = some single) :
    found = 1 ∧ single.hole = acc.hole ∨ found = 0 ∧ single.hole ∈ holes segments := by
  induction segments generalizing found acc with
  | nil =>
    rw [Ty.singleHoleFrom] at h
    split at h
    · rename_i hf
      cases h
      exact Or.inl ⟨hf, rfl⟩
    · cases h
  | cons s rest ih =>
    cases s with
    | hole t =>
      rcases ih h with ⟨hf, ht⟩ | ⟨hf, -⟩
      · exact Or.inr ⟨by omega, ht ▸ List.mem_cons_self⟩
      · omega
    | text s =>
      rw [Ty.singleHoleFrom] at h
      have skip : holes (.text s :: rest) = holes rest := rfl
      rw [skip]
      split at h
      · have := ih h
        exact this
      · have := ih h
        exact this

theorem mem_of_singleHole? {segments : List (Segment Ty)} {single : Ty.SingleHole}
    (h : Ty.singleHole? segments = some single) : single.hole ∈ holes segments := by
  rcases singleHoleFrom_hole h with ⟨hf, -⟩ | ⟨-, hm⟩
  · cases hf
  · exact hm

theorem holes_dropStart? {before : String} {source rest : List (Segment Ty)}
    (h : dropStart? before source = some rest) : holes rest = holes source := by
  unfold dropStart? at h
  split at h
  · split at h
    · cases h
      rfl
    · cases h
  · cases h

theorem holes_dropEnd? {after : String} {source rest : List (Segment Ty)}
    (h : dropEnd? after source = some rest) : holes rest = holes source := by
  unfold dropEnd? at h
  split at h
  · rename_i s init hr
    split at h
    · cases h
      rw [← List.reverse_reverse source, hr]
      simp only [holes, List.filterMap_reverse]
      rfl
    · cases h
  · cases h

/-- Taking texts off the ends of a template keeps its holes. -/
theorem holes_peeled? {source rest : List (Segment Ty)} {target : Ty.SingleHole}
    (h : peeled? source target = some rest) : holes rest = holes source := by
  have trimmed : ∀ {middle}, (if target.after = "" then some middle else dropEnd? target.after middle) = some rest →
      holes rest = holes middle := by
    intro middle hr
    split at hr
    · cases hr
      rfl
    · exact holes_dropEnd? hr
  simp only [peeled?] at h
  split at h
  · exact trimmed h
  · obtain ⟨middle, hm, hr⟩ := Option.bind_eq_some_iff.1 h
    exact (trimmed hr).trans (holes_dropStart? hm)

theorem mem_tupleProps {i : Nat} {elems : List Ty} {p : Property Ty} (h : p ∈ tupleProps i elems) :
    p.type ∈ elems ∨ ∃ n, p.type = Ty.natLit n := by
  induction elems generalizing i with
  | nil =>
    rw [tupleProps, List.mem_singleton] at h
    exact Or.inr ⟨i, by rw [h]⟩
  | cons t ts ih =>
    rcases List.mem_cons.1 h with rfl | h
    · exact Or.inl List.mem_cons_self
    · rcases ih h with h | h
      · exact Or.inl (List.mem_cons_of_mem _ h)
      · exact Or.inr h

/-! ### Ways of composition -/

/-- A relation between two comparisons that the ways of composition keep. Types that satisfy `Q` may be
    captured. -/
structure Compatible (Q : Ty → Prop) (P : Relating Bool → Relating Bool → Prop) : Prop where
  answer : ∀ v, P (pure v) (pure v)
  both : ∀ {x x' y y'}, P x x' → P y y' →
    P (do if ← x then y else pure false) (do if ← x' then y' else pure false)
  either : ∀ {x x' y y'}, P x x' → P y y' →
    P (do if ← x then pure true else y) (do if ← x' then pure true else y')
  attempt : ∀ {x x'}, P x x' → P (attempt x) (attempt x')
  capture : ∀ {t} name, Q t → P (do capture name t; pure true) (do capture name t; pure true)
  report : ∀ t s, P (do reportUnreadable t s; pure false) (do reportUnreadable t s; pure false)

namespace Compatible
variable {Q : Ty → Prop} {P : Relating Bool → Relating Bool → Prop} (C : Compatible Q P) {R R' : Rel}
include C

theorem every {α : Type} {f f' : α → Relating Bool} {xs : List α} (h : ∀ x ∈ xs, P (f x) (f' x)) :
    P (every f xs) (every f' xs) := by
  induction xs with
  | nil => exact C.answer true
  | cons x xs ih =>
    exact C.both (h x List.mem_cons_self) (ih fun y hy => h y (List.mem_cons_of_mem _ hy))

theorem first {α : Type} {f f' : α → Relating Bool} {xs : List α} (h : ∀ x ∈ xs, P (f x) (f' x)) :
    P (first f xs) (first f' xs) := by
  induction xs with
  | nil => exact C.answer false
  | cons x xs ih =>
    exact C.either (C.attempt (h x List.mem_cons_self)) (ih fun y hy => h y (List.mem_cons_of_mem _ hy))

/-- A check that is refused first if an earlier one fails. -/
theorem refusing {x x' y y' : Relating Bool} (hx : P x x') (hy : P y y') :
    P (do if !(← x) then pure false else y) (do if !(← x') then pure false else y') := by
  have swap : ∀ x y : Relating Bool,
      (do if !(← x) then pure false else y) = (do if ← x then y else pure false : Relating Bool) := by
    intro x y
    refine congrArg (x >>= ·) (funext fun v => ?_)
    cases v <;> rfl
  rw [swap, swap]
  exact C.both hx hy

/-! ### Templates -/

mutual

theorem matchHole (hQ : ∀ region u, Q (captured region u)) (region : String) : (t : Ty) →
    (∀ u region, Matched t u → P (R (captured region u) u) (R' (captured region u) u)) →
    P (matchHole R region t) (matchHole R' region t)
  | .infer name c, h => by
    cases c with
    | absent => exact C.capture name (hQ region .absent)
    | _ => exact C.both (h _ region .constraint) (C.capture name (hQ region _))
  | .template segments, h => by
    rw [Assignable.matchHole, Assignable.matchHole]
    split
    · exact C.report _ _
    · split
      · exact matchSegments hQ _ segments fun t ht u r hu => h u r (.hole ht hu)
      · exact C.answer false
  | .union members, h => by
    rw [Assignable.matchHole, Assignable.matchHole]
    exact matchMember hQ region members fun t ht u r hu => h u r (.member ht hu)
  | .absent, h | .any, h | .unknown, h | .void, h | .never, h | .prim _, h | .literal .., h
  | .object .., h | .array .., h | .tuple _, h | .intersection _, h | .param .., h
  | .conditional .., h | .reference .., h | .function .., h | .keyOf _, h | .access .., h
  | .mapping .., h => h _ region .self

theorem matchMember (hQ : ∀ region u, Q (captured region u)) (region : String) : (ts : List Ty) →
    (∀ t ∈ ts, ∀ u region, Matched t u → P (R (captured region u) u) (R' (captured region u) u)) →
    P (matchMember R region ts) (matchMember R' region ts)
  | [], _ => C.answer false
  | t :: ts, h =>
    C.either (C.attempt (matchHole hQ region t (h t List.mem_cons_self)))
      (matchMember hQ region ts fun u hu => h u (List.mem_cons_of_mem _ hu))

theorem matchSegments (hQ : ∀ region u, Q (captured region u)) (regions : List String) :
    (segments : List (Segment Ty)) →
    (∀ t ∈ holes segments, ∀ u region, Matched t u → P (R (captured region u) u) (R' (captured region u) u)) →
    P (matchSegments R regions segments) (matchSegments R' regions segments)
  | [], _ => C.answer true
  | .text _ :: rest, h => matchSegments hQ regions rest fun t ht => h t ht
  | .hole t :: rest, h => by
    cases regions with
    | nil => exact C.answer false
    | cons region regions =>
      exact C.both (matchHole hQ region t (h t List.mem_cons_self))
        (matchSegments hQ regions rest fun u hu => h u (List.mem_cons_of_mem _ hu))

end

theorem matchTemplate {text : String} {segments : List (Segment Ty)} (hQ : ∀ region u, Q (captured region u))
    (h : ∀ t ∈ holes segments, ∀ u region, Matched t u → P (R (captured region u) u) (R' (captured region u) u)) :
    P (matchTemplate R text segments) (matchTemplate R' text segments) := by
  unfold Assignable.matchTemplate
  rw [Assignable.matchHole, Assignable.matchHole]
  split
  · exact C.report _ _
  · split
    · exact C.matchSegments hQ _ segments h
    · exact C.answer false

theorem aligned : {source target : List (Segment Ty)} →
    (∀ x ∈ holes source, ∀ y ∈ holes target, P (R x y) (R' x y)) →
    P (aligned R source target) (aligned R' source target)
  | [], [], _ => C.answer true
  | [], .text _ :: _, _ | [], .hole _ :: _, _ | .text _ :: _, [], _ | .hole _ :: _, [], _
  | .text _ :: _, .hole _ :: _, _ | .hole _ :: _, .text _ :: _, _ => C.answer false
  | .text s :: xs, .text t :: ys, h => by
    rw [Assignable.aligned, Assignable.aligned]
    split
    · exact aligned h
    · exact C.answer false
  | .hole x :: xs, .hole y :: ys, h =>
    C.both (h x List.mem_cons_self y List.mem_cons_self)
      (aligned fun u hu v hv => h u (List.mem_cons_of_mem _ hu) v (List.mem_cons_of_mem _ hv))

theorem templateFits {source target : List (Segment Ty)}
    (h : ∀ x y, Compares (.template source) (.template target) x y → P (R x y) (R' x y)) :
    P (templateFits R source target) (templateFits R' source target) := by
  unfold Assignable.templateFits
  extract_lets peel peel'
  have peeled : P (peel ()) (peel' ()) := by
    dsimp only [peel, peel']
    split
    · exact C.answer false
    · rename_i single hs
      split
      · exact C.answer false
      · rename_i rest hr
        exact h _ _ (.peeled hs hr)
  by_cases hl : source.length = target.length
  · simp only [if_pos hl]
    exact C.either (C.attempt (C.aligned fun x hx y hy => h x y (.aligned hx hy))) peeled
  · simp only [if_neg hl]
    exact peeled

/-! ### Shapes -/

theorem propFits {source : List (Property Ty)} {want : Property Ty}
    (h : ∀ p ∈ source, P (R p.type want.type) (R' p.type want.type)) :
    P (propFits R source want) (propFits R' source want) := by
  unfold Assignable.propFits
  split
  · exact C.answer _
  · rename_i got hg
    split
    · exact C.answer false
    · split
      · exact C.answer false
      · exact h got (Shape.mem_of_find? hg)

theorem shapeFits {source target : Shape}
    (hprops : ∀ p ∈ source.props, ∀ q ∈ target.props, P (R p.type q.type) (R' p.type q.type))
    (hcovered : ∀ p ∈ source.props, ∀ j, target.index = some j → P (R p.type j.value) (R' p.type j.value))
    (hindex : ∀ i, source.index = some i → ∀ j, target.index = some j → P (R i.value j.value) (R' i.value j.value)) :
    P (shapeFits R source target) (shapeFits R' source target) := by
  unfold Assignable.shapeFits
  refine C.refusing (C.every fun q hq => C.propFits fun p hp => hprops p hp q hq) ?_
  split
  · exact C.answer true
  · rename_i j hj
    refine C.refusing (C.every fun p hp => hcovered p (List.mem_filter.1 hp).1 j hj) ?_
    split
    · exact C.answer true
    · rename_i i hi
      split
      · exact hindex i hi j hj
      · exact C.answer true

/-! ### The step -/

theorem checkBound {a b : Ty} (h : ∀ x y, Compares a b x y → P (R x y) (R' x y)) :
    P (checkBound R a b) (checkBound R' a b) := by
  unfold Assignable.checkBound
  split
  · rename_i u hu
    exact h u b (.bound hu)
  · exact C.answer false

theorem checkInfer {name : String} {constraint other : Ty} (hQ : Q other)
    (h : P (R other constraint) (R' other constraint)) :
    P (checkInfer R name constraint other) (checkInfer R' name constraint other) := by
  unfold Assignable.checkInfer
  split
  · exact C.refusing h (C.capture name hQ)
  · exact C.capture name hQ

theorem checkStructure {a b : Ty} (hQ : ∀ region u, Q (captured region u))
    (h : ∀ x y, Compares a b x y → P (R x y) (R' x y)) : P (checkStructure R a b) (checkStructure R' a b) := by
  unfold Assignable.checkStructure
  split
  · split <;> exact C.answer _
  · split <;> exact C.answer _
  · split
    · exact C.matchTemplate hQ fun t ht u r hu => h _ _ (.hole ht hu)
    · exact C.templateFits h
    · exact C.answer false
  · split
    · split
      · exact h _ _ .mapping
      · exact C.answer false
    · exact C.answer false
  · split
    · rename_i s hs
      refine C.shapeFits (fun p hp q hq => h _ _ (.prop hs hp hq)) ?_ ?_
      · rintro p hp j rfl
        exact h _ _ (.covered hs hp)
      · rintro i hi j rfl
        exact h _ _ (.index hs hi)
    · exact C.answer false
  · split
    · split
      · exact C.answer false
      · exact h _ _ .element
    · exact h _ _ .elements
    · exact C.answer false
  · split
    · split
      · exact C.every fun p hp => h _ _ (.position (List.of_mem_zip hp).1 (List.of_mem_zip hp).2)
      · exact C.answer false
    · exact C.answer false
  · split
    · split
      · exact C.every fun p hp => h _ _ (.argument (List.of_mem_zip hp).1 (List.of_mem_zip hp).2)
      · exact C.answer false
    · exact C.answer false
  · split
    · split
      · exact C.answer false
      · exact C.both (C.every fun p hp => h _ _ (.parameter (List.of_mem_zip hp).1 (List.of_mem_zip hp).2))
          (h _ _ .result)
    · exact C.answer false
  · exact C.answer false

theorem checkSingle {a b : Ty} (ha : Q a) (hb : Q b) (hQ : ∀ region u, Q (captured region u))
    (h : ∀ x y, Compares a b x y → P (R x y) (R' x y)) : P (checkSingle R a b) (checkSingle R' a b) := by
  unfold Assignable.checkSingle
  split
  · exact C.checkInfer ha (h _ _ .targetInfer)
  · split
    · exact C.checkInfer hb (h _ _ .sourceInfer)
    all_goals first
      | exact C.answer false
      | exact C.checkBound h
      | exact C.checkStructure hQ h

theorem checkUnion {a : Ty} {members : List Ty}
    (h : ∀ x y, Compares a (.union members) x y → P (R x y) (R' x y)) :
    P (checkUnion R a (.union members) members) (checkUnion R' a (.union members) members) := by
  have members := C.either (C.first fun m hm => h _ _ (.targetMember hm)) (C.checkBound h)
  unfold Assignable.checkUnion
  split <;> split
  · exact C.answer true
  · exact members
  · exact C.answer true
  · exact members

/-- A step of the comparison keeps what the ways of composition keep. -/
theorem check {o o' : Options} (ho : o.anyFits = o'.anyFits) {a b : Ty} (ha : Q a) (hb : Q b)
    (hQ : ∀ region u, Q (captured region u)) (h : ∀ x y, Compares a b x y → P (R x y) (R' x y)) :
    P (check o R a b) (check o' R' a b) := by
  unfold Assignable.check
  rw [ho]
  split
  · exact C.answer true
  · split
    · exact C.every fun m hm => h _ _ (.sourceMember hm)
    · exact C.checkUnion h
    · exact C.first fun m hm => h _ _ (.sourcePart hm)
    · exact C.every fun m hm => h _ _ (.targetPart hm)
    · exact C.checkSingle ha hb hQ h

end Compatible
end TypeCalculus.Assignable

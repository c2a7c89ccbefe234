import TypeCalculus.Proofs.Assignable.Comparison
import TypeCalculus.Proofs.Ty.Template

/-! Weights of types, under which every comparison leads to lighter ones (`Compares.weight_lt`). A type
    weighs more than its parts and at least as much as what a comparison may put in its place: the bound of an
    open type, the union of the elements of a tuple, and a template rebuilt from its segments. A template with
    unions in its holes is rebuilt into one template for each choice of members, so the weight of a template is
    a product over its holes. -/

namespace TypeCalculus.Ty

mutual

/-- How much a type weighs. What no comparison looks into weighs as much as a leaf. -/
def weight : Ty → Nat
  | prim .boolean => 3
  | template segments => 3 * spread segments + 1
  | object props index => 1 + weightProps props + weightIndex index
  | array elem _ => 1 + elem.weight
  | tuple elems => 1 + weightAll elems
  | union members => 1 + weightAll members
  | intersection members => 1 + weightAll members
  | param _ constraint _ => 1 + constraint.weight
  | infer _ constraint => 1 + constraint.weight
  | conditional _ _ yes no _ => 6 + yes.weight + no.weight
  | reference _ args => 1 + weightAll args
  | function params result => 1 + weightAll params + result.weight
  | keyOf _ => 11
  | mapping _ arg => 1 + arg.weight
  | _ => 1
termination_by structural t => t

def weightAll : List Ty → Nat
  | [] => 0
  | t :: ts => t.weight + 2 + weightAll ts
termination_by structural ts => ts

/-- A bound on the templates that a choice for each hole gives. -/
def spread : List (Segment Ty) → Nat
  | [] => 1
  | .text _ :: rest => spread rest
  | .hole t :: rest => (t.weight + 1) * spread rest
termination_by structural segments => segments

def weightProps : List (Property Ty) → Nat
  | [] => 0
  | ⟨_, type, _, _⟩ :: rest => type.weight + weightProps rest
termination_by structural props => props

def weightIndex : Option (IndexSignature Ty) → Nat
  | none => 0
  | some ⟨_, value⟩ => value.weight
termination_by structural index => index

end

attribute [grind =] weight weightAll spread weightProps weightIndex

theorem weight_object (props : List (Property Ty)) (index : Option (IndexSignature Ty)) :
    (object props index).weight = 1 + weightProps props + weightIndex index := by
  rw [weight]

theorem weight_pos (t : Ty) : 0 < t.weight := by
  cases t with
  | prim p => cases p <;> simp [weight]
  | _ =>
    simp only [weight]
    omega

theorem spread_pos (segments : List (Segment Ty)) : 0 < spread segments := by
  induction segments with
  | nil => exact Nat.one_pos
  | cons segment rest ih =>
    cases segment with
    | text _ => exact ih
    | hole t => exact Nat.mul_pos (Nat.succ_pos t.weight) ih

theorem weightAll_append (xs ys : List Ty) : weightAll (xs ++ ys) = weightAll xs + weightAll ys := by
  induction xs with
  | nil => simp [weightAll]
  | cons x xs ih => simp only [List.cons_append, weightAll, ih]; omega

theorem weight_lt_of_mem {t : Ty} {ts : List Ty} (h : t ∈ ts) : t.weight < weightAll ts := by
  induction ts with
  | nil => cases h
  | cons u us ih =>
    rcases List.mem_cons.1 h with rfl | h
    · simp only [weightAll]; omega
    · have := ih h
      simp only [weightAll]; omega

theorem weight_le_of_mem_props {p : Property Ty} {props : List (Property Ty)} (h : p ∈ props) :
    p.type.weight ≤ weightProps props := by
  induction props with
  | nil => cases h
  | cons q props ih =>
    rcases List.mem_cons.1 h with rfl | h
    · simp only [weightProps]; omega
    · have := ih h
      simp only [weightProps]; omega

theorem weight_lt_spread {t : Ty} : {segments : List (Segment Ty)} → t ∈ holes segments → t.weight < spread segments
  | .text _ :: rest, h => @weight_lt_spread t rest h
  | .hole u :: rest, h => by
    rcases List.mem_cons.1 h with rfl | h
    · exact Nat.lt_of_lt_of_le (Nat.lt_succ_self _) (Nat.le_mul_of_pos_right _ (spread_pos rest))
    · exact Nat.lt_of_lt_of_le (weight_lt_spread h) (Nat.le_mul_of_pos_left _ (Nat.succ_pos _))

/-! ### Unions -/

theorem weightAll_filter (p : Ty → Bool) (ts : List Ty) : weightAll (ts.filter p) ≤ weightAll ts := by
  induction ts with
  | nil => simp
  | cons t ts ih =>
    rw [List.filter_cons]
    split <;> simp only [weightAll] <;> omega

theorem weightAll_distinct (seen ts : List Ty) : weightAll (distinct seen ts) ≤ weightAll ts := by
  induction ts generalizing seen with
  | nil => simp [distinct]
  | cons t ts ih =>
    rw [distinct]
    split
    · have := ih seen
      simp only [weightAll]; omega
    · have := ih (t :: seen)
      simp only [weightAll]; omega

theorem weightAll_perm {xs ys : List Ty} (h : xs.Perm ys) : weightAll xs = weightAll ys := by
  induction h with
  | nil => rfl
  | cons x _ ih => simp only [weightAll, ih]
  | swap x y l => simp only [weightAll]; omega
  | trans _ _ ih₁ ih₂ => exact ih₁.trans ih₂

mutual

theorem weightAll_unionMembers : (t : Ty) → weightAll t.unionMembers ≤ t.weight + 2
  | union members => by
    have := weightAll_unionMembersAll members
    simp only [unionMembers, weight]; omega
  | absent => by simp [unionMembers, weightAll]
  | any | unknown | void | never | prim _ | literal .. | template _ | object .. | array .. | tuple _
  | intersection _ | param .. | infer .. | conditional .. | reference .. | function .. | keyOf _
  | access .. | mapping .. => by simp [unionMembers, weightAll]

theorem weightAll_unionMembersAll : (ts : List Ty) → weightAll (unionMembersAll ts) ≤ weightAll ts
  | [] => by simp [unionMembersAll]
  | t :: ts => by
    have := weightAll_unionMembers t
    have := weightAll_unionMembersAll ts
    simp only [unionMembersAll, weightAll, weightAll_append]; omega

end

/-- A union weighs no more than its members together. -/
theorem weight_unionOf (ts : List Ty) : (unionOf ts).weight ≤ 1 + weightAll ts := by
  have hflat := weightAll_unionMembersAll ts
  unfold unionOf
  dsimp only
  split
  · simp [weight]
  · split
    · simp [weight]
    · have hd := weightAll_distinct [] ((unionMembersAll ts).filter fun t => !isRedundantIn (unionMembersAll ts) t)
      have hf := weightAll_filter (fun t => !isRedundantIn (unionMembersAll ts) t) (unionMembersAll ts)
      split
      · simp [weight]
      · rename_i t he
        rw [he] at hd
        simp only [weightAll] at hd
        omega
      · simp only [weight, weightAll_perm (sortByText_perm _)]
        omega

/-! ### Templates -/

theorem spread_append (xs ys : List (Segment Ty)) : spread (xs ++ ys) = spread xs * spread ys := by
  induction xs with
  | nil => simp [spread]
  | cons x xs ih => cases x <;> simp only [List.cons_append, spread, ih, Nat.mul_assoc]

/-- Only the holes count. -/
theorem spread_congr : {xs ys : List (Segment Ty)} → holes xs = holes ys → spread xs = spread ys
  | [], [], _ => rfl
  | .text _ :: xs, ys, h => by
    rw [spread]
    exact spread_congr h
  | xs, .text _ :: ys, h => by
    rw [spread]
    exact spread_congr h
  | .hole _ :: xs, .hole _ :: ys, h => by
    obtain ⟨rfl, hr⟩ := List.cons.inj h
    have hr : holes xs = holes ys := hr
    simp only [spread, spread_congr hr]

theorem spread_reverse (xs : List (Segment Ty)) : spread xs.reverse = spread xs := by
  induction xs with
  | nil => rfl
  | cons x xs ih =>
    rw [List.reverse_cons, spread_append, ih]
    cases x <;> grind

theorem spread_pushText (done : List (Segment Ty)) (s : String) : spread (pushText done s) = spread done := by
  unfold pushText
  split
  · rfl
  · split <;> simp only [spread]

theorem spread_pushSegments (done inner : List (Segment Ty)) :
    spread (pushSegments done inner) = spread done * spread inner := by
  induction inner generalizing done with
  | nil => simp only [pushSegments, spread, Nat.mul_one]
  | cons segment rest ih =>
    cases segment with
    | text s => rw [pushSegments, ih, spread_pushText, spread]
    | hole t =>
      rw [pushSegments, ih, spread, spread]
      grind

theorem weight_closeTemplate (segments : List (Segment Ty)) :
    (closeTemplate segments).weight ≤ 3 * spread segments + 1 := by
  unfold closeTemplate
  split
  · simp [stringLit, weight]
  · simp [stringLit, weight]
  · simp [string, weight]
  · simp only [weight, Nat.le_refl]

/-- The weight of a union of templates, one for each member of a hole. -/
theorem weightAll_map_le {f : Ty → Ty} {n : Nat} (hn : 0 < n) {members : List Ty}
    (h : ∀ m ∈ members, (f m).weight ≤ 3 * ((m.weight + 1) * n) + 1) :
    weightAll (members.map f) ≤ 3 * (weightAll members * n) := by
  induction members with
  | nil => simp [weightAll]
  | cons m members ih =>
    have hm := h m List.mem_cons_self
    have hr := ih fun u hu => h u (List.mem_cons_of_mem _ hu)
    have expand : 3 * ((m.weight + 2 + weightAll members) * n) =
        3 * ((m.weight + 1) * n) + 3 * n + 3 * (weightAll members * n) := by grind
    simp only [List.map_cons, weightAll]
    omega

/-- Rebuilding a template does not make it heavier. -/
theorem weight_templateAfter (done segments : List (Segment Ty)) :
    (templateAfter done segments).weight ≤ 3 * (spread done * spread segments) + 1 := by
  induction done, segments using templateAfter.induct with
  | case1 done =>
    have := weight_closeTemplate done.reverse
    simpa only [templateAfter, spread, spread_reverse, Nat.mul_one] using this
  | case2 done s rest ih => simpa only [templateAfter, spread, spread_pushText] using ih
  | case3 done s rest => simp [templateAfter, weight]
  | case4 done base s rest hb ih =>
    rw [spread_pushText] at ih
    simp only [templateAfter, if_neg hb, spread, weight]
    grind
  | case5 done rest ih | case6 done rest ih =>
    rw [spread_pushText] at ih
    simp only [templateAfter, spread, weight]
    grind
  | case7 done rest ih₁ ih₂ =>
    have hu := weight_unionOf [templateAfter (pushText done "false") rest, templateAfter (pushText done "true") rest]
    have hpos := Nat.mul_pos (spread_pos done) (spread_pos rest)
    rw [spread_pushText] at ih₁ ih₂
    simp only [weightAll] at hu
    have expand : spread done * ((3 + 1) * spread rest) = 4 * (spread done * spread rest) := by grind
    simp only [templateAfter, spread, weight]
    omega
  | case8 done rest => simp [templateAfter, weight]
  | case9 done inner rest ih =>
    rw [spread_pushSegments] at ih
    have hle : spread done * spread inner * spread rest ≤
        spread done * ((3 * spread inner + 1 + 1) * spread rest) := by
      rw [Nat.mul_assoc]
      exact Nat.mul_le_mul_left _ (Nat.mul_le_mul_right _ (by omega))
    simp only [templateAfter, spread, weight]
    omega
  | case10 done members rest ih ihm =>
    have hpos := Nat.mul_pos (spread_pos done) (spread_pos rest)
    rw [templateAfter_union]
    have hmap : weightAll (members.map fun m =>
        if m.isAbsent then templateAfter done rest else templateAfter done (.hole m :: rest)) ≤
        3 * (weightAll members * (spread done * spread rest)) :=
      weightAll_map_le hpos fun m hm => by
        have := ihm m hm
        simp only [spread] at this
        split <;> grind
    have hu := weight_unionOf (members.map fun m =>
      if m.isAbsent then templateAfter done rest else templateAfter done (.hole m :: rest))
    simp only [spread, weight]
    grind
  | case11 done t rest h₁ h₂ h₃ h₄ h₅ h₆ h₇ hc =>
    rw [templateAfter, if_pos hc]
    · simp [weight]
    all_goals assumption
  | case12 done t rest h₁ h₂ h₃ h₄ h₅ h₆ h₇ hc ih =>
    rw [templateAfter, if_neg hc]
    · simp only [spread] at ih ⊢
      grind
    all_goals assumption

theorem weight_templateOf (segments : List (Segment Ty)) : (templateOf segments).weight ≤ 3 * spread segments + 1 := by
  simpa [templateOf, spread] using weight_templateAfter [] segments

end TypeCalculus.Ty

namespace TypeCalculus.Assignable
open Ty (holes spread weight weightAll)

theorem weight_lt_of_upperBound? {t u : Ty} (h : upperBound? t = some u) : u.weight < t.weight := by
  cases t with
  | param name constraint default =>
    have : constraint = u := by cases constraint <;> simp_all [upperBound?, Ty.present?]
    simp only [this, weight]
    omega
  | conditional check bound yes no distribute =>
    have := Ty.weight_unionOf [yes, no]
    simp only [upperBound?, Option.some.injEq] at h
    simp only [← h, weight, weightAll] at this ⊢
    omega
  | keyOf target =>
    have := Ty.weight_unionOf [.string, .number, .symbol]
    simp only [upperBound?, Option.some.injEq] at h
    simp only [← h, weight, weightAll, Ty.string, Ty.number, Ty.symbol] at this ⊢
    omega
  | _ => cases h

/-- What a text stands for in a hole has no parts. -/
theorem weight_captured (region : String) (hole : Ty) : (captured region hole).weight = 1 := by
  rcases captured_constant region hole with h | h | ⟨base, text, h⟩
  · rw [h]; rfl
  · rw [h]; rfl
  · rw [h]; rfl

theorem Matched.weight_le {t u : Ty} (h : Matched t u) : u.weight ≤ t.weight := by
  induction h with
  | self => exact Nat.le_refl _
  | constraint => simp only [weight]; omega
  | hole ht _ ih =>
    have := Ty.weight_lt_spread ht
    simp only [weight]; omega
  | member ht _ ih =>
    have := Ty.weight_lt_of_mem ht
    simp only [weight]; omega

/-! ### Shapes -/

theorem weight_le_of_apparentShape? {t : Ty} {s : Shape} (h : apparentShape? t = some s) :
    (∀ p ∈ s.props, p.type.weight ≤ t.weight) ∧ ∀ i, s.index = some i → i.value.weight ≤ t.weight := by
  cases t with
  | object props index =>
    cases h
    refine ⟨fun p hp => ?_, ?_⟩
    · have : p.type.weight ≤ Ty.weightProps props := Ty.weight_le_of_mem_props hp
      simp only [weight]; omega
    · rintro i rfl
      simp only [weight, Ty.weightIndex]; omega
  | array elem readonly =>
    cases h
    refine ⟨fun p hp => ?_, ?_⟩
    · have := List.mem_singleton.1 (Shape.mem_ofProps hp)
      simp only [this, Ty.number, weight]; omega
    · rintro i ⟨⟩
      simp only [weight]; omega
  | tuple elems =>
    cases h
    refine ⟨fun p hp => ?_, ?_⟩
    · rcases mem_tupleProps (Shape.mem_ofProps hp) with hm | ⟨n, hn⟩
      · have := Ty.weight_lt_of_mem hm
        simp only [weight]; omega
      · simp only [hn, Ty.natLit, Ty.numberLit, weight]; omega
    · rintro i ⟨⟩
      have := Ty.weight_unionOf elems
      simpa only [weight] using this
  | function params result | reference name args =>
    cases h
    refine ⟨?_, ?_⟩
    · intro p hp
      cases hp
    · intro i hi
      cases hi
  | _ => cases h

/-! ### Every comparison leads to lighter ones -/

theorem Compares.weight_lt {a b x y : Ty} (h : Compares a b x y) : x.weight + y.weight < a.weight + b.weight := by
  cases h with
  | sourceMember hm | targetMember hm | sourcePart hm | targetPart hm =>
    have := Ty.weight_lt_of_mem hm
    simp only [weight]; omega
  | bound hu =>
    have := weight_lt_of_upperBound? hu
    omega
  | targetInfer | sourceInfer => simp only [weight]; omega
  | hole ht hu =>
    have h₁ := Ty.weight_lt_spread ht
    have h₂ := hu.weight_le
    simp only [weight_captured, weight]; omega
  | aligned hx hy =>
    have h₁ := Ty.weight_lt_spread hx
    have h₂ := Ty.weight_lt_spread hy
    simp only [weight]; omega
  | @peeled source target single rest hs hr =>
    have h₁ := Ty.weight_lt_spread (mem_of_singleHole? hs)
    have h₂ := Ty.weight_templateOf rest
    rw [Ty.spread_congr (holes_peeled? hr)] at h₂
    simp only [weight]; omega
  | mapping => simp only [weight]; omega
  | prop hs hp hq =>
    have h₁ := (weight_le_of_apparentShape? hs).1 _ hp
    have h₂ := Ty.weight_le_of_mem_props hq
    rw [Ty.weight_object]
    omega
  | covered hs hp =>
    have h₁ := (weight_le_of_apparentShape? hs).1 _ hp
    rw [Ty.weight_object, Ty.weightIndex]
    omega
  | index hs hi =>
    have h₁ := (weight_le_of_apparentShape? hs).2 _ hi
    rw [Ty.weight_object, Ty.weightIndex]
    omega
  | element => simp only [weight]; omega
  | @elements xs y s =>
    have := Ty.weight_unionOf xs
    simp only [weight]; omega
  | position hx hy | argument hx hy | parameter hx hy =>
    have h₁ := Ty.weight_lt_of_mem hx
    have h₂ := Ty.weight_lt_of_mem hy
    simp only [weight]; omega
  | result => simp only [weight]; omega

/-- What holds of a pair as soon as it holds of the pairs that a step compares holds of all pairs. -/
theorem compares_induction {R : Ty → Ty → Prop} (step : ∀ a b, (∀ x y, Compares a b x y → R x y) → R a b) (a b : Ty) :
    R a b := by
  have below : ∀ n, ∀ a b : Ty, a.weight + b.weight < n → R a b := by
    intro n
    induction n with
    | zero => exact fun _ _ h => absurd h (Nat.not_lt_zero _)
    | succ n ih =>
      refine fun a b hn => step a b fun x y hxy => ih x y ?_
      have := hxy.weight_lt
      omega
  exact below _ a b (Nat.lt_succ_self _)

end TypeCalculus.Assignable

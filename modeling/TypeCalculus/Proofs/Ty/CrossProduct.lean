import Mathlib
import TypeCalculus.Proofs.Ty.Idempotent
import TypeCalculus.Proofs.Ty.Members

/-! A template is the cross product of its holes. Reading a template splits the first hole that is a union or `boolean`,
    where texts before it are already in place; what comes out has the members of all templates in which every such hole
    has one of its alternatives from the start (`has_templateAfter`). -/

namespace TypeCalculus.Ty

/-! ### Alternatives of holes -/

mutual

/-- What a hole may stand for: a union for the alternatives of its members, `boolean` for its literals. -/
def picks : Ty → List Ty
  | union members => picksAll members
  | prim .boolean => booleans
  | t => [t]
termination_by structural t => t

def picksAll : List Ty → List Ty
  | [] => []
  | t :: ts => t.picks ++ picksAll ts
termination_by structural ts => ts

end

/-- A segment with one of the alternatives of its hole. -/
def options : Segment Ty → List (Segment Ty)
  | .text s => [.text s]
  | .hole t => t.picks.map .hole

/-- The segments with one alternative in every hole, in all ways. -/
def combinations (segments : List (Segment Ty)) : List (List (Segment Ty)) := (segments.map options).sections

/-- The type makes a template that it stands in `never`. -/
def isUnprintable (t : Ty) : Bool := !t.isStringLike || t.isNever

/-- The text that a segment adds to a template, if it adds no hole. -/
def spelling? : Segment Ty → Option String
  | .text s => some s
  | .hole (literal base s) => if base = .symbol then none else some s
  | .hole (prim .null) => some "null"
  | .hole (prim .undefined) => some "undefined"
  | .hole _ => none

theorem mem_picksAll {u : Ty} {ts : List Ty} : u ∈ picksAll ts ↔ ∃ t ∈ ts, u ∈ t.picks := by
  induction ts with
  | nil => simp [picksAll]
  | cons t ts ih => simp [picksAll, ih]

theorem picks_self {t : Ty} (hu : ∀ ms, t ≠ union ms) (hb : t ≠ prim .boolean) : t.picks = [t] := by
  cases t with
  | union ms => exact absurd rfl (hu ms)
  | prim p =>
    cases p with
    | boolean => exact absurd rfl hb
    | _ => rfl
  | _ => rfl

theorem mem_combinations {segments chosen : List (Segment Ty)} :
    chosen ∈ combinations segments ↔ List.Forall₂ (fun a s => a ∈ options s) chosen segments := by
  rw [combinations, List.mem_sections, List.forall₂_map_right_iff]

theorem mem_combinations_cons {s : Segment Ty} {rest chosen : List (Segment Ty)} :
    chosen ∈ combinations (s :: rest) ↔ ∃ a ∈ options s, ∃ c ∈ combinations rest, chosen = a :: c := by
  simp only [mem_combinations, List.forall₂_cons_right_iff]
  tauto

/-! ### The cross product -/

/-- One of the combinations, put after the segments read so far, has the member. -/
def Spread (done segments : List (Segment Ty)) (u : Ty) : Prop :=
  ∃ chosen ∈ combinations segments, (templateAfter done chosen).Has u

section Spread
variable {done done' rest : List (Segment Ty)} {s : Segment Ty} {u : Ty}

theorem spread_nil : Spread done [] u ↔ (templateAfter done []).Has u := by
  simp [Spread, combinations]

theorem spread_cons :
    Spread done (s :: rest) u ↔ ∃ a ∈ options s, ∃ c ∈ combinations rest, (templateAfter done (a :: c)).Has u := by
  constructor
  · rintro ⟨chosen, hchosen, hu⟩
    obtain ⟨a, ha, c, hc, rfl⟩ := mem_combinations_cons.1 hchosen
    exact ⟨a, ha, c, hc, hu⟩
  · rintro ⟨a, ha, c, hc, hu⟩
    exact ⟨a :: c, mem_combinations_cons.2 ⟨a, ha, c, hc, rfl⟩, hu⟩

/-- A segment that is read in one way is put behind those read so far. -/
theorem spread_moved (single : options s = [s]) (h : ∀ c, templateAfter done (s :: c) = templateAfter done' c) :
    Spread done (s :: rest) u ↔ Spread done' rest u := by
  simp only [spread_cons, single, List.mem_singleton, exists_eq_left, h]
  rfl

/-- A segment that ends the reading with `never` leaves nothing else. -/
theorem leaves_spread_never (single : options s = [s]) (h : ∀ c, templateAfter done (s :: c) = never) :
    Leaves (Spread done (s :: rest)) u ↔ u = never := by
  have only : ∀ v, Spread done (s :: rest) v → v = never := by
    intro v hv
    simp only [spread_cons, single, List.mem_singleton, exists_eq_left, h] at hv
    obtain ⟨c, -, hv⟩ := hv
    exact (has_atom rfl).1 hv
  constructor
  · intro hu
    by_contra hne
    exact hne (only u (hu.source hne))
  · rintro rfl
    exact .never only

/-- A hole that stands for the alternatives of several others. -/
theorem spread_alternatives {t : Ty} {ts : List Ty} (h : ∀ u, u ∈ t.picks ↔ ∃ m ∈ ts, u ∈ m.picks) :
    Spread done (.hole t :: rest) u ↔ ∃ m, m ∈ ts ∧ Spread done (.hole m :: rest) u := by
  simp only [spread_cons, options, List.mem_map]
  constructor
  · rintro ⟨_, ⟨v, hv, rfl⟩, c, hc, hu⟩
    obtain ⟨m, hm, hv⟩ := (h v).1 hv
    exact ⟨m, hm, _, ⟨v, hv, rfl⟩, c, hc, hu⟩
  · rintro ⟨m, hm, _, ⟨v, hv, rfl⟩, c, hc, hu⟩
    exact ⟨_, ⟨v, (h v).2 ⟨m, hm, hv⟩, rfl⟩, c, hc, hu⟩

end Spread

/-- A type that is its own union loses no members. -/
theorem leaves_has {t u : Ty} (h : unionOf [t] = t) : Leaves t.Has u ↔ t.Has u := by
  have one : ∀ v, t.Has v ↔ SomeHas [t] v := fun v => by simp [SomeHas]
  rw [leaves_congr one, ← has_unionOf, h]

theorem unionOf_closeTemplate (segments : List (Segment Ty)) : unionOf [closeTemplate segments] = closeTemplate segments := by
  unfold closeTemplate
  split <;> exact unionOf_singleton rfl nofun

/-- The members of the union of some types, if each of the types has what is left of some members. -/
theorem has_unionOf_map {α : Type} {xs : List α} {f : α → Ty} {S : α → Ty → Prop} {u : Ty}
    (h : ∀ x ∈ xs, ∀ v, (f x).Has v ↔ Leaves (S x) v) :
    (unionOf (xs.map f)).Has u ↔ Leaves (fun v => ∃ x, x ∈ xs ∧ S x v) u := by
  rw [has_unionOf, ← leaves_grouped]
  refine leaves_congr fun v => ?_
  simp only [SomeHas, List.mem_map, exists_exists_and_eq_and]
  exact exists_congr fun x => and_congr_right fun hx => h x hx v

/-- Reading on behind a segment that is read in one way. -/
theorem has_moved {done done' rest : List (Segment Ty)} {s : Segment Ty} (single : options s = [s])
    (moved : ∀ c, templateAfter done (s :: c) = templateAfter done' c)
    (h : ∀ u, (templateAfter done' rest).Has u ↔ Leaves (Spread done' rest) u) (u : Ty) :
    (templateAfter done (s :: rest)).Has u ↔ Leaves (Spread done (s :: rest)) u := by
  rw [moved, h]
  exact leaves_congr fun v => (spread_moved single moved).symm

theorem has_ended {done rest : List (Segment Ty)} {s : Segment Ty} (single : options s = [s])
    (ended : ∀ c, templateAfter done (s :: c) = never) (u : Ty) :
    (templateAfter done (s :: rest)).Has u ↔ Leaves (Spread done (s :: rest)) u := by
  rw [leaves_spread_never single ended, ended, has_atom rfl]

/-- A hole that stands for the alternatives of several others is read as each of them. -/
theorem has_alternatives {done rest : List (Segment Ty)} {t : Ty} {ts : List Ty}
    (split : templateAfter done (.hole t :: rest) = unionOf (ts.map fun m => templateAfter done (.hole m :: rest)))
    (picks : ∀ u, u ∈ t.picks ↔ ∃ m ∈ ts, u ∈ m.picks)
    (h : ∀ m ∈ ts, ∀ v, (templateAfter done (.hole m :: rest)).Has v ↔ Leaves (Spread done (.hole m :: rest)) v) (u : Ty) :
    (templateAfter done (.hole t :: rest)).Has u ↔ Leaves (Spread done (.hole t :: rest)) u := by
  rw [split, has_unionOf_map h]
  exact leaves_congr fun v => (spread_alternatives picks).symm

/-- A template has the members that are left of those of its combinations. -/
theorem has_templateAfter {done segments : List (Segment Ty)} (hs : ∀ t ∈ holes segments, Built t) (u : Ty) :
    (templateAfter done segments).Has u ↔ Leaves (Spread done segments) u := by
  have later : ∀ {t : Ty} {rest : List (Segment Ty)}, (∀ v ∈ holes (.hole t :: rest), Built v) → ∀ v ∈ holes rest, Built v :=
    fun h v hv => h v (List.mem_cons_of_mem _ hv)
  induction done, segments using templateAfter.induct generalizing u with
  | case1 done =>
    rw [leaves_congr fun v => spread_nil, templateAfter, leaves_has (unionOf_closeTemplate _)]
  | case2 done s rest ih => exact has_moved rfl (fun c => by rw [templateAfter]) (ih hs) u
  | case3 done s rest => exact has_ended rfl (fun c => by simp [templateAfter]) u
  | case4 done base s rest hb ih =>
    exact has_moved rfl (fun c => by rw [templateAfter, if_neg hb]) (ih (later hs)) u
  | case5 done rest ih | case6 done rest ih => exact has_moved rfl (fun c => by rw [templateAfter]) (ih (later hs)) u
  | case7 done rest ih₁ ih₂ =>
    have split : templateAfter done (.hole (prim .boolean) :: rest) =
        unionOf (booleans.map fun m => templateAfter done (.hole m :: rest)) := by
      simp [templateAfter, booleans, boolLit]
    refine has_alternatives split (fun w => by simp [picks, booleans, boolLit]) ?_ u
    have each : ∀ {word : String}, (∀ v, (templateAfter (pushText done word) rest).Has v ↔
        Leaves (Spread (pushText done word) rest) v) → ∀ v,
        (templateAfter done (.hole (literal .boolean word) :: rest)).Has v ↔
          Leaves (Spread done (.hole (literal .boolean word) :: rest)) v :=
      has_moved rfl fun c => by rw [templateAfter, if_neg (by decide)]
    exact List.forall_mem_cons.2 ⟨each (ih₁ (later hs)), List.forall_mem_singleton.2 (each (ih₂ (later hs)))⟩
  | case8 done rest => exact has_ended rfl (fun c => by rw [templateAfter]) u
  | case9 done inner rest ih => exact has_moved rfl (fun c => by rw [templateAfter]) (ih (later hs)) u
  | case10 done members rest ih ihm =>
    have built := hs (union members) List.mem_cons_self
    have present : ∀ m ∈ members, m.isAbsent = false := by
      intro m hm
      have : m ≠ absent := fun he => built.tidy.node.union members rfl (he ▸ hm)
      cases m <;> first | rfl | exact absurd rfl this
    have split : templateAfter done (.hole (union members) :: rest) =
        unionOf (members.map fun m => templateAfter done (.hole m :: rest)) := by
      rw [templateAfter_union]
      exact congrArg unionOf (List.map_congr_left fun m hm => if_neg (by rw [present m hm]; exact Bool.false_ne_true))
    refine has_alternatives split (fun w => mem_picksAll) (fun m hm => ihm m hm ?_) u
    exact List.forall_mem_cons.2 ⟨built.part rfl hm, later hs⟩
  | case11 done t rest h₁ h₂ h₃ h₄ h₅ h₆ h₇ hc =>
    refine has_ended (by rw [options, picks_self h₇ h₄, List.map_singleton]) (fun c => ?_) u
    rw [templateAfter, if_pos hc]
    all_goals assumption
  | case12 done t rest h₁ h₂ h₃ h₄ h₅ h₆ h₇ hc ih =>
    refine has_moved (by rw [options, picks_self h₇ h₄, List.map_singleton]) (fun c => ?_) (ih (later hs)) u
    rw [templateAfter, if_neg hc]
    all_goals assumption

/-! ### Combinations -/

/-- The type is split where it stands in a hole. -/
def isSplit : Ty → Bool
  | union _ | prim .boolean => true
  | _ => false

theorem isSplit_of_mem_picks {u : Ty} : (t : Ty) → u ∈ t.picks → u.isSplit = false
  | union ms, h => by
    rw [picks] at h
    obtain ⟨m, hm, hu⟩ := mem_picksAll.1 h
    have := List.sizeOf_lt_of_mem hm
    exact isSplit_of_mem_picks m hu
  | prim p, h => by
    cases p with
    | boolean =>
      rcases List.mem_cons.1 h with rfl | h
      · rfl
      · cases List.mem_singleton.1 h
        rfl
    | _ =>
      cases List.mem_singleton.1 h
      rfl
  | absent, h | any, h | unknown, h | void, h | never, h | literal .., h | template _, h | object .., h
  | array .., h | tuple _, h | intersection _, h | param .., h | infer .., h | conditional .., h
  | reference .., h | function .., h | keyOf _, h | access .., h | mapping .., h => by
    cases List.mem_singleton.1 h
    rfl

/-- The holes of a combination are alternatives of the holes. -/
theorem holes_of_combination {segments chosen : List (Segment Ty)} (h : chosen ∈ combinations segments) :
    List.Forall₂ (fun u t => u ∈ t.picks) (holes chosen) (holes segments) := by
  induction segments generalizing chosen with
  | nil =>
    cases List.mem_singleton.1 h
    exact .nil
  | cons s rest ih =>
    obtain ⟨a, ha, c, hrest, rfl⟩ := mem_combinations_cons.1 h
    cases s with
    | text s =>
      cases List.mem_singleton.1 ha
      exact @ih c hrest
    | hole t =>
      obtain ⟨u, hu, rfl⟩ := List.mem_map.1 ha
      exact .cons hu (ih hrest)

theorem isSplit_of_combination {segments chosen : List (Segment Ty)} (h : chosen ∈ combinations segments) :
    ∀ u ∈ holes chosen, u.isSplit = false := by
  intro u hu
  obtain ⟨t, -, hut⟩ := partner (holes_of_combination h) hu
  exact isSplit_of_mem_picks t hut

/-- If every hole has an alternative with some property, a combination takes such alternatives everywhere. -/
theorem exists_combination {p : Ty → Prop} {segments : List (Segment Ty)} (h : ∀ t ∈ holes segments, ∃ u ∈ t.picks, p u) :
    ∃ chosen ∈ combinations segments, ∀ u ∈ holes chosen, p u := by
  induction segments with
  | nil => exact ⟨[], List.mem_singleton_self _, nofun⟩
  | cons s rest ih =>
    cases s with
    | text s =>
      obtain ⟨c, hc, hp⟩ := ih h
      exact ⟨.text s :: c, mem_combinations_cons.2 ⟨_, List.mem_singleton_self _, c, hc, rfl⟩, hp⟩
    | hole t =>
      obtain ⟨u, hu, hpu⟩ := h t List.mem_cons_self
      obtain ⟨c, hc, hp⟩ := ih fun v hv => h v (List.mem_cons_of_mem _ hv)
      exact ⟨.hole u :: c, mem_combinations_cons.2 ⟨_, List.mem_map_of_mem hu, c, hc, rfl⟩,
        List.forall_mem_cons.2 ⟨hpu, hp⟩⟩

theorem closeTemplate_ne_never (segments : List (Segment Ty)) : closeTemplate segments ≠ never := by
  unfold closeTemplate
  split <;> nofun

/-- Segments none of whose holes is split make `never` or a single template. -/
theorem templateAfter_chosen {done chosen : List (Segment Ty)} (hs : ∀ t ∈ holes chosen, t.isSplit = false) :
    (∃ t ∈ holes chosen, t.isUnprintable = true) ∧ templateAfter done chosen = never ∨
      (∀ t ∈ holes chosen, t.isUnprintable = false) ∧ ∃ made, templateAfter done chosen = closeTemplate made := by
  -- a printable hole is left to the rest, an unprintable one settles the whole
  have passed : ∀ {t : Ty} {done' rest : List (Segment Ty)}, t.isUnprintable = false →
      ((∃ u ∈ holes rest, u.isUnprintable = true) ∧ templateAfter done' rest = never ∨
        (∀ u ∈ holes rest, u.isUnprintable = false) ∧ ∃ made, templateAfter done' rest = closeTemplate made) →
      (∃ u ∈ holes (.hole t :: rest), u.isUnprintable = true) ∧ templateAfter done' rest = never ∨
        (∀ u ∈ holes (.hole t :: rest), u.isUnprintable = false) ∧ ∃ made, templateAfter done' rest = closeTemplate made := by
    intro t done' rest ht h
    rw [holes_hole]
    refine h.imp (And.imp_left fun ⟨u, hu, hn⟩ => ⟨u, List.mem_cons_of_mem _ hu, hn⟩) (And.imp_left fun hp => ?_)
    exact List.forall_mem_cons.2 ⟨ht, hp⟩
  induction done, chosen using templateAfter.induct with
  | case1 done => exact .inr ⟨fun _ ht => (List.not_mem_nil ht).elim, _, by rw [templateAfter]⟩
  | case2 done s rest ih =>
    rw [templateAfter]
    exact ih hs
  | case3 done s rest => exact .inl ⟨⟨_, List.mem_cons_self, rfl⟩, by simp [templateAfter]⟩
  | case4 done base s rest hb ih =>
    rw [templateAfter, if_neg hb]
    exact passed (by simp [isUnprintable, isStringLike, isNever, hb]) (ih fun t ht => hs t (List.mem_cons_of_mem _ ht))
  | case5 done rest ih | case6 done rest ih | case9 done inner rest ih =>
    rw [templateAfter]
    exact passed rfl (ih fun t ht => hs t (List.mem_cons_of_mem _ ht))
  | case7 done rest | case10 done members rest => cases hs _ List.mem_cons_self
  | case8 done rest => exact .inl ⟨⟨_, List.mem_cons_self, rfl⟩, by rw [templateAfter]⟩
  | case11 done t rest h₁ h₂ h₃ h₄ h₅ h₆ h₇ hc =>
    refine .inl ⟨⟨t, List.mem_cons_self, hc⟩, ?_⟩
    rw [templateAfter, if_pos hc]
    all_goals assumption
  | case12 done t rest h₁ h₂ h₃ h₄ h₅ h₆ h₇ hc ih =>
    rw [templateAfter, if_neg hc]
    · exact passed (Bool.eq_false_iff.2 hc) (ih fun t ht => hs t (List.mem_cons_of_mem _ ht))
    all_goals assumption

/-- A type made by constructors has `never` as a member only if it is `never`. -/
theorem eq_never_of_has {t : Ty} (ht : Built t) (h : t.Has never) : t = never := by
  obtain ⟨v, hv, hi⟩ := h
  have same : v = never := eq_of_identical_atom rfl hi
  rw [same] at hv
  cases t with
  | union ms =>
    have form : UnionForm ms := ht.normal.form
    rw [unionMembers, unionMembersAll_self form.single (ht.tidy.node.union ms rfl)] at hv
    cases form.single never hv
  | absent => cases hv
  | _ => exact (List.mem_singleton.1 hv).symm

theorem has_closeTemplate (segments : List (Segment Ty)) : (closeTemplate segments).Has (closeTemplate segments) := by
  have self : (closeTemplate segments).unionMembers = [closeTemplate segments] := by
    unfold closeTemplate
    split <;> rfl
  exact ⟨_, self ▸ List.mem_singleton_self _, identical_refl _⟩

/-- A template is `never` exactly if one of its holes has no alternative that can be printed. -/
theorem templateOf_eq_never {segments : List (Segment Ty)} (hs : ∀ t ∈ holes segments, Built t) :
    templateOf segments = never ↔ ∃ t ∈ holes segments, ∀ u ∈ t.picks, u.isUnprintable = true := by
  have built : Built (templateOf segments) := built_templateOf hs
  constructor
  · intro h
    have has : (templateOf segments).Has never := by rw [h, has_atom rfl]
    have only : ∀ v, Spread [] segments v → v = never := by
      cases (has_templateAfter hs never).1 has with
      | member _ _ _ hn => exact absurd rfl hn
      | never hn => exact hn
    by_contra none
    have printable : ∀ t ∈ holes segments, ∃ u ∈ t.picks, u.isUnprintable = false := by simpa using none
    obtain ⟨chosen, hc, hp⟩ := exists_combination printable
    rcases @templateAfter_chosen [] chosen (isSplit_of_combination hc) with ⟨⟨u, hu, hn⟩, -⟩ | ⟨-, made, hm⟩
    · rw [hp u hu] at hn
      cases hn
    · exact closeTemplate_ne_never made (only _ ⟨chosen, hc, hm ▸ has_closeTemplate made⟩)
  · rintro ⟨t, ht, hn⟩
    refine eq_never_of_has built ((has_templateAfter hs never).2 (.never ?_))
    rintro v ⟨chosen, hc, hv⟩
    obtain ⟨u, hu, hut⟩ := partner (holes_of_combination hc).flip ht
    rcases @templateAfter_chosen [] chosen (isSplit_of_combination hc) with ⟨-, he⟩ | ⟨hp, -⟩
    · rw [he] at hv
      exact (has_atom rfl).1 hv
    · cases (hn u hut).symm.trans (hp u hu)

/-! ### Texts -/

theorem pushText_pushText (s t : String) : pushText (pushText [] s) t = pushText [] (s ++ t) := by
  unfold pushText
  by_cases hs : s = ""
  · simp [hs]
  · by_cases ht : t = "" <;> simp [hs, ht]

theorem closeTemplate_pushText (s : String) : closeTemplate (pushText [] s).reverse = stringLit s := by
  unfold pushText
  split
  · rename_i hs
    rw [hs]
    rfl
  · rfl

/-- Segments that only add texts make the literal of the texts. -/
theorem templateAfter_spelled {chosen : List (Segment Ty)} {texts : List String} (h : chosen.mapM spelling? = some texts)
    (before : String) : templateAfter (pushText [] before) chosen = stringLit (before ++ String.join texts) := by
  induction chosen generalizing before texts with
  | nil =>
    cases h
    rw [templateAfter, closeTemplate_pushText]
    simp [String.join]
  | cons s rest ih =>
    rw [List.mapM_cons] at h
    obtain ⟨text, ht, h⟩ := Option.bind_eq_some_iff.1 h
    obtain ⟨texts, hr, h⟩ := Option.bind_eq_some_iff.1 h
    cases h
    have pushed : templateAfter (pushText [] before) (s :: rest) = templateAfter (pushText [] (before ++ text)) rest := by
      rw [← pushText_pushText]
      cases s with
      | text s =>
        cases ht
        rw [templateAfter]
      | hole t =>
        cases t with
        | literal base s =>
          rw [spelling?] at ht
          split at ht
          · cases ht
          · rename_i hb
            cases ht
            rw [templateAfter, if_neg hb]
        | prim p =>
          cases p with
          | null | undefined =>
            cases ht
            rw [templateAfter]
          | _ => cases ht
        | _ => cases ht
    rw [pushed, ih hr, String.join_cons, String.append_assoc]

theorem templateOf_spelled {chosen : List (Segment Ty)} {texts : List String} (h : chosen.mapM spelling? = some texts) :
    templateOf chosen = stringLit (String.join texts) := by
  have joined := templateAfter_spelled h ""
  rwa [String.empty_append] at joined

/-! ### Templates -/

/-- A template has the members of all templates with one alternative in every hole. It is `never` exactly if a hole has
    no alternative to print, and a combination in which every alternative has a text is the literal of the texts. -/
theorem template_cross_product {segments : List (Segment Ty)} (hs : ∀ t ∈ holes segments, Built t) :
    SameMembers (templateOf segments) (unionOf ((combinations segments).map templateOf)) ∧
      (templateOf segments = never ↔ ∃ t ∈ holes segments, ∀ u ∈ t.picks, u.isUnprintable = true) ∧
      ∀ chosen ∈ combinations segments, (∀ u ∈ holes chosen, u.isSplit = false) ∧
        ∀ texts, chosen.mapM spelling? = some texts → templateOf chosen = stringLit (String.join texts) := by
  refine ⟨fun u => ?_, templateOf_eq_never hs, fun chosen hc => ⟨isSplit_of_combination hc, fun texts ht => templateOf_spelled ht⟩⟩
  rw [templateOf, has_templateAfter hs, has_unionOf]
  refine leaves_congr fun v => ?_
  simp only [Spread, SomeHas, List.mem_map, exists_exists_and_eq_and]
  rfl

/-- The template of `"a" | "b"`, a dash and `boolean`, and one whose last hole has nothing to print. -/
theorem template_cross_product_flags :
    let letters := union [stringLit "a", stringLit "b"]
    let flags := [.hole letters, .text "-", .hole boolean]
    let words := [stringLit "a-false", stringLit "b-false", stringLit "a-true", stringLit "b-true"]
    let nothing := [.hole letters, .hole (union [symbol, void])]
    (∀ t ∈ holes flags, Built t) ∧ (∀ t ∈ holes nothing, Built t) ∧ SameMembers (templateOf flags) (unionOf words) ∧
      templateOf nothing = never ∧
      ∃ chosen ∈ combinations flags, templateOf chosen = stringLit (String.join ["b", "-", "true"]) := by
  intro letters flags words nothing
  have pair : unionOf [stringLit "a", stringLit "b"] = letters := by
    cbv
  have built : Built letters :=
    pair ▸ built_unionOf (List.forall_mem_cons.2 ⟨built_atom rfl, List.forall_mem_singleton.2 (built_atom rfl)⟩)
  have mute : Built (union [symbol, void]) := built_pair (built_atom rfl) (built_atom rfl) rfl rfl rfl rfl (by decide)
  have builtFlags : ∀ t ∈ holes flags, Built t :=
    List.forall_mem_cons.2 ⟨built, List.forall_mem_singleton.2 (built_atom rfl)⟩
  have builtNothing : ∀ t ∈ holes nothing, Built t :=
    List.forall_mem_cons.2 ⟨built, List.forall_mem_singleton.2 mute⟩
  have listed : combinations flags =
      [[.hole (stringLit "a"), .text "-", .hole (boolLit false)], [.hole (stringLit "b"), .text "-", .hole (boolLit false)],
       [.hole (stringLit "a"), .text "-", .hole (boolLit true)], [.hole (stringLit "b"), .text "-", .hole (boolLit true)]] :=
    rfl
  have spelled : (combinations flags).map templateOf = words := by
    rw [listed, List.map_cons, List.map_cons, List.map_cons, List.map_singleton,
      @templateOf_spelled _ ["a", "-", "false"] rfl, @templateOf_spelled _ ["b", "-", "false"] rfl,
      @templateOf_spelled _ ["a", "-", "true"] rfl, @templateOf_spelled _ ["b", "-", "true"] rfl]
    rfl
  obtain ⟨members, -, texts⟩ := template_cross_product builtFlags
  obtain ⟨-, unprinted, -⟩ := template_cross_product builtNothing
  have chosen : [.hole (stringLit "b"), .text "-", .hole (boolLit true)] ∈ combinations flags := by
    rw [listed]
    exact List.mem_cons_of_mem _ (List.mem_cons_of_mem _ (List.mem_cons_of_mem _ List.mem_cons_self))
  rw [spelled] at members
  have blank : ∃ t ∈ holes nothing, ∀ u ∈ t.picks, u.isUnprintable = true :=
    ⟨_, List.mem_cons_of_mem _ List.mem_cons_self, List.forall_mem_cons.2 ⟨rfl, List.forall_mem_singleton.2 rfl⟩⟩
  exact ⟨builtFlags, builtNothing, members, unprinted.2 blank, _, chosen, (texts _ chosen).2 ["b", "-", "true"] rfl⟩

end TypeCalculus.Ty

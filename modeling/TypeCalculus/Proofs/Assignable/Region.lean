import TypeCalculus.Proofs.Ty.Template
import TypeCalculus.Proofs.Ty.Rebuilt
import TypeCalculus.Proofs.Ty.Walk
import TypeCalculus.Proofs.Assignable.Derived

/-! What a template makes of a text that it accepts: its texts and one region for each hole, one after the other
    (`Composed`). The pattern of a hole only finds the region; whether the region belongs to the hole is checked by itself
    afterwards, and what the placeholders take is read off the regions (`template_match_sound`). Texts stand in the
    pattern as they are spelled, and some spellings are read as another text (`misspelt_template`). -/

namespace TypeCalculus.Assignable
open Ty (Normal TextsJoined holes)

/-! ### Spelled texts -/

/-- The spelling of the text is read as the text, if it can be read. -/
def Spelling.Plain (text : String) : Prop := ∀ codes, Spelling.codes? text = some codes → codes = text.toList.map Char.toNat

namespace Spelling

theorem read?_literal {c : Char} (h : c ≠ '\\') (rest : List Char) : read? (c :: rest) = (read? rest).map (c.toNat :: ·) := by
  rw [read?.eq_def]
  split <;> simp_all

/-- Marks stand for themselves after a backslash. -/
theorem read?_mark {c : Char} (h : c ∈ marks) (rest : List Char) :
    read? ('\\' :: c :: rest) = (read? rest).map (c.toNat :: ·) := by
  have spec : (marks.all fun c => c ≠ 'x' ∧ c ≠ 'u' ∧ codeAfterBackslash c = c.toNat) = true := by decide
  obtain ⟨hx, hu, hc⟩ := of_decide_eq_true (List.all_eq_true.1 spec c h)
  rw [read?, hc]
  all_goals grind

/-- Printable text is spelled so that it can be read. -/
theorem codes?_printable {text : String} (h : ∀ c ∈ text.toList, Text.isPrintable c = true) :
    codes? text = some (text.toList.map Char.toNat) := by
  unfold codes? write
  generalize text.toList = cs at h ⊢
  induction cs with
  | nil => rfl
  | cons c cs ih =>
    have rest := ih fun d hd => h d (List.mem_cons_of_mem _ hd)
    rw [List.flatMap_cons, writeChar, if_pos (h c List.mem_cons_self), List.map_cons]
    by_cases hm : marks.contains c = true
    · rw [if_pos hm]
      exact (read?_mark (List.contains_iff_mem.1 hm) (cs.flatMap writeChar)).trans (by rw [rest]; rfl)
    · have plain : c ≠ '\\' := fun hc => hm (hc ▸ by decide)
      rw [if_neg hm]
      exact (read?_literal plain (cs.flatMap writeChar)).trans (by rw [rest]; rfl)

theorem plain_of_printable {text : String} (h : ∀ c ∈ text.toList, Text.isPrintable c = true) : Plain text :=
  fun _ hc => Option.some.inj (hc.symm.trans (codes?_printable h))

theorem begins_self {text : String} {s : List Char} (h : begins (text.toList.map Char.toNat) s = true) :
    s = text.toList ++ s.drop (text.toList.map Char.toNat).length := by
  have start : (s.take text.toList.length).map Char.toNat = text.toList.map Char.toNat := by
    simpa [begins] using h
  have same : s.take text.toList.length = text.toList :=
    List.map_injective_iff.2 (fun a b => Char.toNat_inj.1) start
  rw [List.length_map]
  calc s = s.take text.toList.length ++ s.drop text.toList.length := (List.take_append_drop ..).symm
    _ = text.toList ++ s.drop text.toList.length := by rw [same]

end Spelling

/-! ### Regions -/

/-- The text consists of the texts of a template and one region for each hole, in their order. An unconstrained
    placeholder in front of another hole has a region of one character. -/
inductive Composed : List (Segment Ty) → List Char → List String → Prop
  | nil : Composed [] [] []
  | text {t rest s regions} : Composed rest s regions → Composed (.text t :: rest) (t.toList ++ s) regions
  | hole {t rest s region regions} :
      ((∃ name, t = .infer name .absent) → Piece.startsWithHole rest = true → region.length = 1) →
      Composed rest s regions → Composed (.hole t :: rest) (region.toList ++ s) (region :: regions)

theorem Composed.length {segments : List (Segment Ty)} {s : List Char} {regions : List String}
    (h : Composed segments s regions) : regions.length = (holes segments).length := by
  induction h with
  | nil => rfl
  | text _ ih => exact ih
  | hole _ _ ih => rw [Ty.holes_hole, List.length_cons, List.length_cons, ih]

theorem Composed.starts {t : String} {rest : List (Segment Ty)} {s : List Char} {regions : List String}
    (h : Composed (.text t :: rest) s regions) : t.toList <+: s := by
  cases h with
  | text => exact ⟨_, rfl⟩

/-- A text that no text follows is a piece of its own. -/
theorem Piece.ofSegments_text {t : String} {rest : List (Segment Ty)} (apart : ∀ u rest', rest ≠ .text u :: rest') :
    Piece.ofSegments (.text t :: rest) = .text t :: Piece.ofSegments rest := by
  cases rest with
  | nil => rfl
  | cons next rest =>
    cases next with
    | text u => exact absurd rfl (apart u rest)
    | hole => rfl

/-- In front of another hole an unconstrained placeholder takes one character. -/
theorem Piece.length_before_hole {name : String} {rest : List (Segment Ty)} {pattern : Pattern (List Nat)} {s : List Char} {n : Nat}
    (next : Piece.startsWithHole rest = true) (hp : (Piece.patternBefore (.infer name .absent) rest).read? = some pattern)
    (hn : n ∈ pattern.lengths s) : (String.ofList (s.take n)).length = 1 := by
  rw [Piece.patternBefore, if_pos next] at hp
  cases hp
  rw [Pattern.lengths] at hn
  cases s with
  | nil => cases hn
  | cons c s =>
    cases List.mem_singleton.1 hn
    rw [String.length_ofList]
    rfl

/-- The regions that the pattern of a template finds make up the text with the texts of the template. -/
theorem Composed.regions {segments : List (Segment Ty)} (joined : TextsJoined segments)
    (plain : ∀ t, .text t ∈ segments → Spelling.Plain t) {pieces : List (Piece (List Nat))}
    (hp : Piece.readAll? (Piece.ofSegments segments) = some pieces) {s : List Char} {regions : List String}
    (hr : Piece.regions? pieces s = some regions) : Composed segments s regions := by
  induction segments generalizing pieces s regions with
  | nil =>
    obtain rfl : pieces = [] := by simpa [Piece.readAll?, Piece.ofSegments] using hp.symm
    rw [Piece.regions?.eq_def] at hr
    dsimp only at hr
    split at hr
    · rename_i empty
      cases hr
      rw [List.isEmpty_iff.1 empty]
      exact .nil
    · cases hr
  | cons segment rest ih =>
    cases segment with
    | text t =>
      obtain ⟨apart, tail⟩ := Ty.textsJoined_text.1 joined
      rw [Piece.ofSegments_text apart, Piece.readAll?, List.mapM_cons] at hp
      obtain ⟨piece, hpiece, hp⟩ := Option.bind_eq_some_iff.1 hp
      obtain ⟨codes, hcodes, rfl⟩ := Option.map_eq_some_iff.1 hpiece
      obtain ⟨others, hothers, hp⟩ := Option.bind_eq_some_iff.1 hp
      cases hp
      obtain rfl := plain t List.mem_cons_self codes hcodes
      rw [Piece.regions?.eq_def] at hr
      dsimp only at hr
      split at hr
      · rename_i begins
        rw [Spelling.begins_self begins]
        exact .text (ih tail (fun u hu => plain u (List.mem_cons_of_mem _ hu)) hothers hr)
      · cases hr
    | hole t =>
      have tail := Ty.textsJoined_hole.1 joined
      rw [Piece.ofSegments, Piece.readAll?, List.mapM_cons] at hp
      obtain ⟨piece, hpiece, hp⟩ := Option.bind_eq_some_iff.1 hp
      obtain ⟨pattern, hpattern, rfl⟩ := Option.map_eq_some_iff.1 hpiece
      obtain ⟨others, hothers, hp⟩ := Option.bind_eq_some_iff.1 hp
      cases hp
      rw [Piece.regions?.eq_def] at hr
      dsimp only at hr
      obtain ⟨n, hn, hr⟩ := List.exists_of_findSome?_eq_some hr
      obtain ⟨found, hfound, rfl⟩ := Option.map_eq_some_iff.1 hr
      have single : (∃ name, t = .infer name .absent) → Piece.startsWithHole rest = true →
          (String.ofList (s.take n)).length = 1 := by
        rintro ⟨name, rfl⟩ next
        exact Piece.length_before_hole next hpattern hn
      have composed := Composed.hole single (ih tail (fun u hu => plain u (List.mem_cons_of_mem _ hu)) hothers hfound)
      rwa [String.toList_ofList, List.take_append_drop] at composed

/-! ### What placeholders take -/

/-- What a hole takes of its region. -/
def Capture.ofHole : String × Ty → Option Capture
  | (region, .infer name constraint) => some ⟨name, constraint, captured region constraint⟩
  | _ => none

/-- Placeholders stand in the type only as the type itself, and then not in its constraint. -/
def Direct (t : Ty) : Prop := t.containsInfer = false ∨ ∃ name constraint, t = .infer name constraint ∧ constraint.containsInfer = false

variable {D : Derivation}

/-- Constants are compared with types without placeholders, which take nothing. -/
def Silent (D : Derivation) : Prop := ∀ a b cs, Constant a → b.containsInfer = false → D a b cs → cs = []

theorem not_infer_of_part {t u : Ty} (h : t.containsInfer = false) (hu : u ∈ t.parts) : u.containsInfer = false := by
  rw [Bool.eq_false_iff] at h ⊢
  exact fun hi => h (Ty.occurs_of_part rfl hu hi)

mutual

theorem fills_silent (hD : Silent D) {region : String} {cs : List Capture} :
    (t : Ty) → t.containsInfer = false → Fills D region t cs → cs = []
  | .infer .., ht, _ => by cases ht
  | .template segments, ht, h => by
    rw [Fills] at h
    obtain ⟨pieces, regions, -, -, h⟩ := h
    exact fillsEach_silent hD segments (fun u hu => not_infer_of_part ht hu) h
  | .union members, ht, h => by
    rw [Fills] at h
    exact fillsFirst_silent hD members (fun u hu => not_infer_of_part ht hu) h
  | .absent, ht, h | .any, ht, h | .unknown, ht, h | .void, ht, h | .never, ht, h | .prim _, ht, h | .literal .., ht, h
  | .object .., ht, h | .array .., ht, h | .tuple _, ht, h | .intersection _, ht, h | .param .., ht, h
  | .conditional .., ht, h | .reference .., ht, h | .function .., ht, h | .keyOf _, ht, h | .access .., ht, h
  | .mapping .., ht, h => hD _ _ _ (captured_constant _ _) ht h

theorem fillsFirst_silent (hD : Silent D) {region : String} {cs : List Capture} :
    (ts : List Ty) → (∀ t ∈ ts, t.containsInfer = false) → FillsFirst D region ts cs → cs = []
  | t :: ts, ht, h => by
    rw [FillsFirst] at h
    rcases h with h | ⟨-, h⟩
    · exact fills_silent hD t (ht t List.mem_cons_self) h
    · exact fillsFirst_silent hD ts (fun u hu => ht u (List.mem_cons_of_mem _ hu)) h

theorem fillsEach_silent (hD : Silent D) {regions : List String} {cs : List Capture} :
    (segments : List (Segment Ty)) → (∀ t ∈ holes segments, t.containsInfer = false) → FillsEach D regions segments cs →
      cs = []
  | [], _, h => h
  | .text _ :: rest, ht, h => fillsEach_silent hD rest ht h
  | .hole t :: rest, ht, h => by
    cases regions with
    | nil => cases h
    | cons region regions =>
      obtain ⟨ds, es, hd, he, rfl⟩ := h
      rw [fills_silent hD t (ht t List.mem_cons_self) hd,
        fillsEach_silent hD rest (fun u hu => ht u (List.mem_cons_of_mem _ hu)) he]
      rfl

end

theorem Each.silent {α : Type} {E : α → List Capture → Prop} {xs : List α} {cs : List Capture} (h : Each E xs cs)
    (hE : ∀ x ∈ xs, ∀ ds, E x ds → ds = []) : cs = [] := by
  have none := h.origin (Q := fun _ => False) fun x hx ds hds => by
    rw [hE x hx ds hds]
    exact List.forall_mem_nil _
  exact List.eq_nil_iff_forall_not_mem.2 none

/-- A step from constants takes nothing for types without placeholders, if the comparisons that it leads to do not. -/
theorem Step.silent (hD : Silent D) {o : Options} {a b : Ty} {cs : List Capture} (ha : Constant a)
    (hb : b.containsInfer = false) (h : Step o D a b cs) : cs = [] := by
  have closed : upperBound? a = none := by
    rcases ha with rfl | rfl | ⟨base, text, rfl⟩ <;> rfl
  cases h with
  | evident => rfl
  | rule _ h =>
    cases h with
    | sourceMembers => rcases ha with h | h | ⟨_, _, h⟩ <;> cases h
    | splitBoolean => rfl
    | targetMember _ _ h =>
      obtain ⟨m, hm, h⟩ := h.mem
      exact hD a m cs ha (not_infer_of_part hb hm) h
    | targetBound _ _ _ hu => cases closed.symm.trans hu
    | sourcePart => rcases ha with h | h | ⟨_, _, h⟩ <;> cases h
    | targetParts _ _ h => exact h.silent fun m hm ds => hD a m ds ha (not_infer_of_part hb hm)
    | single _ _ _ _ h =>
      cases h with
      | targetInfer => cases hb
      | sourceInfer => rcases ha with h | h | ⟨_, _, h⟩ <;> cases h
      | bound _ hu => cases closed.symm.trans hu
      | structural h =>
        cases h with
        | undefined | literal | template | mapping => rfl
        | filled h => exact fills_silent hD _ hb h
        | mapped _ h => exact hD _ _ _ ha (not_infer_of_part hb List.mem_cons_self) h
        | object hs => rcases ha with rfl | rfl | ⟨_, _, rfl⟩ <;> cases hs
        | _ => rcases ha with h | h | ⟨_, _, h⟩ <;> cases h

theorem derives_silent (o : Options) (n : Nat) : Silent (Derives o n) := by
  induction n with
  | zero => exact fun _ _ _ _ _ h => h.elim
  | succ n ih => exact fun a b cs ha hb h => h.2.2.silent ih ha hb

/-- The captures of a template are those of its holes, in their order. -/
theorem fillsEach_direct (hD : Silent D) {regions : List String} {cs : List Capture} {segments : List (Segment Ty)}
    (direct : ∀ t ∈ holes segments, Direct t) (h : FillsEach D regions segments cs) :
    cs = (regions.zip (holes segments)).filterMap Capture.ofHole ∧
      ∀ q ∈ regions.zip (holes segments), ∃ ds, Fills D q.1 q.2 ds := by
  induction segments generalizing regions cs with
  | nil =>
    rw [show holes [] = [] from rfl, List.zip_nil_right]
    exact ⟨h, nofun⟩
  | cons segment rest ih =>
    cases segment with
    | text => exact ih direct h
    | hole t =>
      cases regions with
      | nil => cases h
      | cons region regions =>
        obtain ⟨ds, es, hd, he, rfl⟩ := h
        obtain ⟨rfl, filled⟩ := ih (fun u hu => direct u (List.mem_cons_of_mem _ hu)) he
        have own : ds = (Capture.ofHole (region, t)).toList := by
          rcases direct t List.mem_cons_self with silent | ⟨name, constraint, rfl, silent⟩
          · rw [fills_silent hD t silent hd]
            cases t with
            | infer => cases silent
            | _ => rfl
          · rw [Fills] at hd
            cases hd with
            | unconstrained => rfl
            | allowed _ h =>
              rw [hD _ _ _ (captured_constant _ _) silent h]
              rfl
        rw [Ty.holes_hole, List.zip_cons_cons]
        refine ⟨?_, List.forall_mem_cons.2 ⟨⟨ds, hd⟩, filled⟩⟩
        rw [own, List.filterMap_cons]
        cases Capture.ofHole (region, t) <;> rfl

/-- A text that is accepted consists of the texts of the template and of regions that their holes were filled with, and what is
    captured is one capture for each placeholder. -/
theorem matched_regions (o : Options) (n : Nat) {text : String} {segments : List (Segment Ty)}
    (ht : Normal (.template segments)) (direct : ∀ t ∈ holes segments, Direct t)
    (plain : ∀ t, .text t ∈ segments → Spelling.Plain t) (p : Progress)
    (h : (matchTemplate (relate o n) text segments p).1 = true) :
    ∃ regions, Composed segments text.toList regions ∧
      (matchTemplate (relate o n) text segments p).2.captures =
        replay ((regions.zip (holes segments)).filterMap Capture.ofHole) p.captures ∧
      ∀ q ∈ regions.zip (holes segments), ∃ ds, Fills (Derives o n) q.1 q.2 ds := by
  have derived := Derived.fills (relate_derived o n) text (.template segments)
  obtain ⟨cs, hf⟩ := derived.complete p h
  have captures := (derived.sound cs hf p).2
  rw [Fills] at hf
  obtain ⟨pieces, regions, hp, hr, each⟩ := hf
  obtain ⟨rfl, filled⟩ := fillsEach_direct (derives_silent o n) direct each
  exact ⟨regions, .regions ht.form.joined plain hp hr, captures, filled⟩

/-- Matching a text with a template is sound and captures what it matched: if the text is accepted, it consists of the texts
    of the template and one region for each hole that its check accepts, an unconstrained placeholder in front of another
    hole having a single character; and what is captured is what was captured before with one capture for each
    placeholder after it, in the order of the holes. A placeholder takes its region as a literal, which its constraint
    accepts. -/
theorem template_match_sound (o : Options) (n : Nat) {text : String} {segments : List (Segment Ty)}
    (ht : Normal (.template segments)) (direct : ∀ t ∈ holes segments, Direct t)
    (plain : ∀ t, .text t ∈ segments → Spelling.Plain t) (p : Progress)
    (h : (matchTemplate (relate o n) text segments p).1 = true) :
    ∃ regions, Composed segments text.toList regions ∧
      (∀ q ∈ regions.zip (holes segments), ∀ p', (matchHole (relate o n) q.1 q.2 p').1 = true) ∧
      (matchTemplate (relate o n) text segments p).2.captures =
        replay ((regions.zip (holes segments)).filterMap Capture.ofHole) p.captures ∧
      ∀ region name constraint, (region, .infer name constraint) ∈ regions.zip (holes segments) →
        (constraint = .absent → captured region constraint = Ty.stringLit region) ∧
        (constraint ≠ .absent → ∀ p', (relate o n (captured region constraint) constraint p').1 = true) := by
  obtain ⟨regions, composed, captures, filled⟩ := matched_regions o n ht direct plain p h
  refine ⟨regions, composed, fun q hq p' => ?_, captures, fun region name constraint hq => ⟨?_, ?_⟩⟩
  · obtain ⟨ds, hd⟩ := filled q hq
    exact ((Derived.fills (relate_derived o n) q.1 q.2).sound ds hd p').1
  · rintro rfl
    rfl
  · intro present p'
    obtain ⟨ds, hd⟩ := filled _ hq
    rw [Fills] at hd
    cases hd with
    | unconstrained => exact absurd rfl present
    | allowed _ h => exact ((relate_derived o n _ constraint).sound _ h p').1

/-- A number, a character and the rest. -/
theorem template_match_sound_numbered :
    let segments := [.text "v", .hole (.infer "N" .number), .text "-", .hole (.infer "H" .absent), .hole (.infer "R" .absent)]
    let matched := matchTemplate (relate { limit := 5 } 4) "v12-abc" segments {}
    matched.1 = true ∧ ∃ regions, Composed segments "v12-abc".toList regions ∧
      matched.2.captures = replay ((regions.zip (holes segments)).filterMap Capture.ofHole) {} := by
  intro segments matched
  have normal : Normal (.template segments) := by
    have made : Ty.templateOf segments = .template segments := by cbv
    refine made ▸ Ty.normal_templateOf fun t ht => ?_
    simp only [segments, Ty.holes_hole, Ty.holes_text, List.mem_cons] at ht
    rcases ht with rfl | rfl | rfl | ht
    · exact Ty.normal_infer.2 (Ty.normal_prim _)
    · exact Ty.normal_infer.2 Ty.normal_absent
    · exact Ty.normal_infer.2 Ty.normal_absent
    · cases ht
  have direct : ∀ t ∈ holes segments, Direct t := by
    intro t ht
    simp only [segments, Ty.holes_hole, Ty.holes_text, List.mem_cons] at ht
    rcases ht with rfl | rfl | rfl | ht
    · exact .inr ⟨_, _, rfl, rfl⟩
    · exact .inr ⟨_, _, rfl, rfl⟩
    · exact .inr ⟨_, _, rfl, rfl⟩
    · cases ht
  have plain : ∀ t, .text t ∈ segments → Spelling.Plain t := by
    intro t ht
    simp only [segments, List.mem_cons, Segment.text.injEq, reduceCtorEq, false_or, List.not_mem_nil, or_false] at ht
    rcases ht with rfl | rfl <;> exact Spelling.plain_of_printable (List.all_eq_true.1 (by decide))
  have accepted : matched.1 = true := by decide +kernel
  obtain ⟨regions, composed, -, captures, -⟩ := template_match_sound _ _ normal direct plain {} accepted
  exact ⟨accepted, regions, composed, captures⟩

/-- The code of the first character takes up the second one, and the pattern accepts a text that starts otherwise. -/
theorem misspelt_template :
    let segments := [.text "\u0378a", .hole .string]
    Ty.Built (.template segments) ∧ (∀ t ∈ holes segments, Direct t) ∧
      (matchTemplate (relate { limit := 5 } 4) "\u378ab" segments {}).1 = true ∧
      ∀ regions, ¬Composed segments "\u378ab".toList regions := by
  intro segments
  have base : ∀ t ∈ holes segments, t = .string := by
    intro t ht
    simpa [segments, holes] using ht
  have made : Ty.templateOf segments = .template segments := by cbv
  refine ⟨made ▸ Ty.built_templateOf fun t ht => ?_, fun t ht => ?_, by decide +kernel, fun regions h => ?_⟩
  · exact base t ht ▸ Ty.built_atom rfl
  · exact .inl (base t ht ▸ rfl)
  · exact absurd h.starts (by decide)

end TypeCalculus.Assignable

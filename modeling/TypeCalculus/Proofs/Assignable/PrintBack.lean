import TypeCalculus.Proofs.Number.Written
import TypeCalculus.Proofs.Ty.CrossProduct
import TypeCalculus.Proofs.Assignable.Region

/-! What a template captures of a text, put back into the template. A placeholder takes its region as a literal, and a
    literal keeps the value only: a number or a whole number is printed in one way however it was spelled (`Spells`). So the
    captures give back the text with every region in the usual spelling of its literal (`captures_print_back`), and the text
    itself if all regions are spelled so (`number_respelled` is not). -/

namespace TypeCalculus.Assignable
open Ty (Normal Built holes spelling?)

/-! ### Literals of regions -/

/-- Literals of these base types are read off regions, or are regions themselves. -/
def Printable (base : Prim) : Prop := base = .string ∨ base = .number ∨ base = .bigint ∨ base = .boolean

/-- The type has literals only, which are read off regions. -/
inductive Scalar : Ty → Prop
  | prim {base} : Printable base → Scalar (.prim base)
  | literal {base text} : Printable base → Scalar (.literal base text)
  | union {members} : (∀ m ∈ members, Scalar m) → Scalar (.union members)

/-- The region stands for the literal with this base type and text. -/
inductive Spells (region : String) : Prim → String → Prop
  | text : Spells region .string region
  | truth : region = "true" ∨ region = "false" → Spells region .boolean region
  | whole {n} : readInt? region = some n → Spells region .bigint (toString n)
  | number {x} : Number.read? region = some x → Spells region .number (Number.write x)

theorem Scalar.containsInfer {t : Ty} (h : Scalar t) : t.containsInfer = false := by
  induction h with
  | prim => rfl
  | literal => rfl
  | union _ ih =>
    rw [Bool.eq_false_iff]
    intro hi
    rcases (Ty.occurs_iff rfl).1 hi with own | ⟨m, hm, inside⟩
    · cases own
    · cases (ih m hm).symm.trans inside

section Spells
variable {region : String}

theorem spells_literalOfPrim? {base : Prim} {t : Ty} (hb : Printable base) (h : literalOfPrim? region base = some t) :
    ∃ word, t = .literal base word ∧ Spells region base word := by
  rcases hb with rfl | rfl | rfl | rfl
  · cases h
  · obtain ⟨-, h⟩ := Option.ite_none_right_eq_some.1 h
    obtain ⟨x, hx, rfl⟩ := Option.map_eq_some_iff.1 h
    exact ⟨_, rfl, .number hx⟩
  · obtain ⟨n, hn, rfl⟩ := Option.map_eq_some_iff.1 h
    exact ⟨_, rfl, .whole hn⟩
  · unfold literalOfPrim? at h
    dsimp only at h
    split at h
    · rename_i truth
      cases h
      exact ⟨_, rfl, truth ▸ .truth (.inl truth)⟩
    · obtain ⟨falsity, h⟩ := Option.ite_none_right_eq_some.1 h
      cases h
      exact ⟨_, rfl, falsity ▸ .truth (.inr falsity)⟩

theorem spells_literalFor? {constraint t : Ty} (hc : Scalar constraint) (h : literalFor? region constraint = some t) :
    ∃ base word, t = .literal base word ∧ Spells region base word := by
  induction hc generalizing t with
  | prim hb => exact ⟨_, spells_literalOfPrim? hb h⟩
  | literal hb => exact ⟨_, spells_literalOfPrim? hb h⟩
  | @union members scalar ih =>
    rw [literalFor?] at h
    induction members with
    | nil => cases h
    | cons m ms ihms =>
      rw [literalForAny?] at h
      cases own : literalFor? region m with
      | some u =>
        rw [own] at h
        cases h
        exact ih m List.mem_cons_self own
      | none =>
        rw [own] at h
        exact ihms (fun m hm => scalar m (List.mem_cons_of_mem _ hm)) (fun m hm => ih m (List.mem_cons_of_mem _ hm)) h

/-- What is taken of a region is the literal that it spells. -/
theorem spells_captured {constraint : Ty} (hc : constraint = .absent ∨ Scalar constraint) :
    ∃ base word, captured region constraint = .literal base word ∧ Spells region base word := by
  unfold captured
  cases found : literalFor? region constraint with
  | none => exact ⟨_, _, rfl, .text⟩
  | some t =>
    rcases hc with rfl | hc
    · cases found
    · exact spells_literalFor? hc found

/-- The literal of a finite number is one that can be read. -/
theorem Spells.readable {word : String} (h : Spells region .number word) {x : Binary64} (hx : Number.read? region = some x)
    (finite : x.isFinite = true) : ∃ y, Ty.readLiteral .number word = .ok (Ty.numberLit y) := by
  cases h with
  | number hy =>
    cases hy.symm.trans hx
    cases x with
    | finite negative m q =>
      obtain ⟨numeral, negative', m', q', read⟩ := Number.read?_write (Number.inRange_read? hx)
      exact ⟨.finite negative' m' q', by simp [Ty.readLiteral, Number.trim_numeral numeral, read, Binary64.isFinite]; rfl⟩
    | _ => cases finite

end Spells

/-! ### Captures -/

/-- The name of a placeholder. -/
def placeholder? : Ty → Option String
  | .infer name _ => some name
  | _ => none

/-- All holes are placeholders with different names, without a constraint or for literals that are read off regions. -/
structure Collecting (segments : List (Segment Ty)) : Prop where
  holes : ∀ t ∈ Ty.holes segments, ∃ name constraint, t = .infer name constraint ∧ (constraint = .absent ∨ Scalar constraint)
  distinct : ((Ty.holes segments).filterMap placeholder?).Nodup

/-- The text of the literal that a placeholder takes of a region. -/
def printed : String × Ty → String
  | (region, .infer _ constraint) => (spelling? (.hole (captured region constraint))).getD region
  | (region, _) => region

/-- A segment with what its placeholder has captured. -/
def filled (captures : Subst) : Segment Ty → Segment Ty
  | .hole (.infer name constraint) => .hole ((captures.find? name).getD (.infer name constraint))
  | segment => segment

theorem spelling?_literal {base : Prim} {region word : String} (h : Spells region base word) :
    spelling? (.hole (.literal base word)) = some word := by
  cases h <;> rfl

theorem Collecting.printed {segments : List (Segment Ty)} (h : Collecting segments) {region name : String} {constraint : Ty}
    (ht : .infer name constraint ∈ Ty.holes segments) :
    ∃ base, captured region constraint = .literal base (printed (region, .infer name constraint)) ∧
      Spells region base (Assignable.printed (region, .infer name constraint)) := by
  obtain ⟨_, _, same, hc⟩ := h.holes _ ht
  cases same
  obtain ⟨base, word, taken, spells⟩ := @spells_captured region constraint hc
  have text : Assignable.printed (region, .infer name constraint) = word := by
    rw [Assignable.printed, taken, spelling?_literal spells, Option.getD_some]
  exact ⟨base, text ▸ taken, text ▸ spells⟩

/-- Of captures with different names each is found. -/
theorem find?_replay {cs : List Capture} (distinct : (cs.map Capture.name).Nodup) {captures : Subst}
    (fresh : ∀ c ∈ cs, captures.find? c.name = none) {c : Capture} (hc : c ∈ cs) :
    (replay cs captures).find? c.name = some c.type := by
  have untouched : ∀ (ds : List Capture) (captures : Subst) {name : String}, name ∉ ds.map Capture.name →
      (replay ds captures).find? name = captures.find? name := by
    intro ds
    induction ds with
    | nil => exact fun _ _ _ => rfl
    | cons d ds ih =>
      intro captures name hn
      rw [List.map_cons, List.mem_cons, not_or] at hn
      exact (ih _ hn.2).trans (Subst.find?_insert_ne captures _ hn.1)
  induction cs generalizing captures with
  | nil => cases hc
  | cons d ds ih =>
    obtain ⟨own, others⟩ := List.nodup_cons.1 distinct
    have first : (d.record captures).find? d.name = some d.type := by
      rw [Capture.record, fresh d List.mem_cons_self, Subst.find?_insert_self]
    rcases List.mem_cons.1 hc with rfl | hc
    · exact (untouched ds _ own).trans first
    · refine ih others (fun e he => ?_) hc
      have other : e.name ≠ d.name := fun same => own (same ▸ List.mem_map_of_mem he)
      exact (Subst.find?_insert_ne captures _ other).trans (fresh e (List.mem_cons_of_mem _ he))

/-! ### Regions put back -/

/-- Regions and texts determine the whole. -/
theorem Composed.unique {segments : List (Segment Ty)} {s s' : List Char} {regions : List String}
    (h : Composed segments s regions) (h' : Composed segments s' regions) : s = s' := by
  induction h generalizing s' with
  | nil =>
    cases h'
    rfl
  | text _ ih =>
    cases h' with
    | text h' => rw [ih h']
  | hole _ _ ih =>
    cases h' with
    | hole _ h' => rw [ih h']

/-- Words in place of the regions make up another text, which is the one of the segments with the words in their holes. A word
    for an unconstrained placeholder is its region, as that may have to be a single character. -/
theorem Composed.replaced {segments : List (Segment Ty)} {s : List Char} {regions : List String}
    (h : Composed segments s regions) {word : String × Ty → String} {f : Segment Ty → Segment Ty}
    (bare : ∀ q ∈ regions.zip (holes segments), (∃ name, q.2 = .infer name .absent) → word q = q.1)
    (texts : ∀ t, f (.text t) = .text t)
    (words : ∀ q ∈ regions.zip (holes segments), spelling? (f (.hole q.2)) = some (word q)) :
    ∃ s', Composed segments s' ((regions.zip (holes segments)).map word) ∧
      Ty.templateOf (segments.map f) = Ty.stringLit (String.ofList s') := by
  have spelled : ∃ s' parts, Composed segments s' ((regions.zip (holes segments)).map word) ∧
      (segments.map f).mapM spelling? = some parts ∧ String.join parts = String.ofList s' := by
    induction h with
    | nil => exact ⟨[], [], .nil, rfl, rfl⟩
    | @text t _ _ _ _ ih =>
      obtain ⟨s', parts, composed, spelled, joined⟩ := ih bare words
      refine ⟨t.toList ++ s', t :: parts, .text composed, ?_, ?_⟩
      · rw [List.map_cons, List.mapM_cons, texts, spelled]
        rfl
      · rw [String.join_cons, joined, String.ofList_append, String.ofList_toList]
    | @hole t _ _ region _ single _ ih =>
      rw [Ty.holes_hole, List.zip_cons_cons] at bare words ⊢
      obtain ⟨own, others⟩ := List.forall_mem_cons.1 words
      obtain ⟨kept, bare⟩ := List.forall_mem_cons.1 bare
      obtain ⟨s', parts, composed, spelled, joined⟩ := ih bare others
      refine ⟨(word (region, t)).toList ++ s', word (region, t) :: parts, .hole (fun unconstrained next => ?_) composed, ?_, ?_⟩
      · rw [kept unconstrained]
        exact single unconstrained next
      · rw [List.map_cons, List.mapM_cons, own, spelled]
        rfl
      · rw [String.join_cons, joined, String.ofList_append, String.ofList_toList]
  obtain ⟨s', parts, composed, spelled, joined⟩ := spelled
  exact ⟨s', composed, by rw [Ty.templateOf_spelled spelled, joined]⟩

theorem relate_text (o : Options) (n : Nat) (text : String) (segments : List (Segment Ty)) :
    relate o (n + 1) (Ty.stringLit text) (.template segments) = matchTemplate (relate o n) text segments := rfl

/-- Where a text fits a template whose holes are placeholders with different names, each of which takes any text or literals of
    certain types, the captures put back into the template give the text with every region in the usual spelling of the
    literal that was taken of it: the text itself, if all regions are spelled so. The literal of a finite number is one
    that can be read. -/
theorem captures_print_back (o : Options) {text : String} {segments : List (Segment Ty)} (ht : Built (.template segments))
    (collecting : Collecting segments) (plain : ∀ t, .text t ∈ segments → Spelling.Plain t)
    (h : (run o (Ty.stringLit text) (.template segments)).1 = true) :
    ∃ regions written, Composed segments text.toList regions ∧
      Composed segments written.toList ((regions.zip (holes segments)).map printed) ∧
      Ty.templateOf (segments.map (filled (run o (Ty.stringLit text) (.template segments)).2.captures)) = Ty.stringLit written ∧
      ((∀ q ∈ regions.zip (holes segments), printed q = q.1) → written = text) ∧
      ∀ region name constraint, (region, .infer name constraint) ∈ regions.zip (holes segments) → ∃ base,
        (run o (Ty.stringLit text) (.template segments)).2.captures.find? name =
          some (.literal base (printed (region, .infer name constraint))) ∧
        Spells region base (printed (region, .infer name constraint)) ∧
        ∀ x, base = .number → Number.read? region = some x → x.isFinite = true →
          ∃ y, Ty.readLiteral .number (printed (region, .infer name constraint)) = .ok (Ty.numberLit y) := by
  obtain ⟨n, hn⟩ : ∃ n, run o (Ty.stringLit text) (.template segments) = matchTemplate (relate o n) text segments {} := by
    unfold run at h ⊢
    cases hl : o.limit with
    | zero =>
      rw [hl] at h
      cases h
    | succ n => exact ⟨n, by rw [relate_text]⟩
  rw [hn] at h ⊢
  have direct : ∀ t ∈ holes segments, Direct t := by
    intro t ht
    obtain ⟨name, constraint, rfl, hc⟩ := collecting.holes t ht
    refine .inr ⟨name, constraint, rfl, ?_⟩
    rcases hc with rfl | hc
    · rfl
    · exact hc.containsInfer
  obtain ⟨regions, composed, captures, -⟩ := matched_regions o n ht.normal direct plain {} h
  rw [captures]
  generalize hr : replay ((regions.zip (holes segments)).filterMap Capture.ofHole) {} = captures
  -- The captures are found under the names of their placeholders.
  have names : ((regions.zip (holes segments)).filterMap Capture.ofHole).map Capture.name =
      (holes segments).filterMap placeholder? := by
    have each : ∀ q : String × Ty, (Capture.ofHole q).map Capture.name = placeholder? q.2 := by
      rintro ⟨region, t⟩
      cases t <;> rfl
    rw [List.map_filterMap, funext each]
    conv_rhs => rw [← List.map_snd_zip composed.length.ge, List.filterMap_map]
    rfl
  have fresh : ∀ c ∈ (regions.zip (holes segments)).filterMap Capture.ofHole, ({} : Subst).find? c.name = none := fun _ _ => rfl
  have taken : ∀ region name constraint, (region, .infer name constraint) ∈ regions.zip (holes segments) → ∃ base,
      captures.find? name = some (.literal base (printed (region, .infer name constraint))) ∧
        Spells region base (printed (region, .infer name constraint)) := by
    intro region name constraint hm
    obtain ⟨base, literal, spells⟩ := collecting.printed (List.of_mem_zip hm).2
    have found := find?_replay (names ▸ collecting.distinct) fresh (List.mem_filterMap.2 ⟨_, hm, rfl⟩)
    exact ⟨base, hr ▸ literal ▸ found, spells⟩
  have bare : ∀ q ∈ regions.zip (holes segments), (∃ name, q.2 = .infer name .absent) → printed q = q.1 := by
    rintro ⟨region, _⟩ - ⟨name, rfl⟩
    rfl
  have words : ∀ q ∈ regions.zip (holes segments), spelling? (filled captures (.hole q.2)) = some (printed q) := by
    rintro ⟨region, t⟩ hq
    obtain ⟨name, constraint, rfl, -⟩ := collecting.holes t (List.of_mem_zip hq).2
    obtain ⟨base, found, spells⟩ := taken region name constraint hq
    rw [filled, found, Option.getD_some, spelling?_literal spells]
  obtain ⟨s', rewritten, back⟩ := composed.replaced bare (fun _ => rfl) words
  refine ⟨regions, String.ofList s', composed, by rwa [String.toList_ofList], back, fun usual => ?_, fun region name constraint hm => ?_⟩
  · have same : (regions.zip (holes segments)).map printed = regions := by
      rw [List.map_congr_left usual, List.map_fst_zip composed.length.le]
    rw [same] at rewritten
    rw [rewritten.unique composed, String.ofList_toList]
  · obtain ⟨base, found, spells⟩ := taken region name constraint hm
    exact ⟨base, found, spells, fun x number hx finite => (number ▸ spells).readable hx finite⟩

/-- A number, a text between, and a rest. -/
theorem captures_print_back_numbered :
    let segments := [.text "v", .hole (.infer "N" .number), .text "-", .hole (.infer "R" .absent)]
    let matched := run { limit := 5 } (Ty.stringLit "v12-abc") (.template segments)
    matched.1 = true ∧ ∃ regions written, Composed segments "v12-abc".toList regions ∧
      Ty.templateOf (segments.map (filled matched.2.captures)) = Ty.stringLit written ∧
      ((∀ q ∈ regions.zip (holes segments), printed q = q.1) → written = "v12-abc") := by
  intro segments matched
  have open_holes : holes segments = [.infer "N" .number, .infer "R" .absent] := rfl
  have built : Built (.template segments) := by
    have made : Ty.templateOf segments = .template segments := by cbv
    refine made ▸ Ty.built_templateOf (List.forall_mem_cons.2 ⟨?_, List.forall_mem_singleton.2 (Ty.built_plain rfl (List.forall_mem_nil _))⟩)
    exact Ty.built_plain rfl (List.forall_mem_singleton.2 (Ty.built_atom rfl))
  have collecting : Collecting segments := by
    refine ⟨?_, by decide⟩
    rw [open_holes]
    exact List.forall_mem_cons.2 ⟨⟨_, _, rfl, .inr (.prim (.inr (.inl rfl)))⟩, List.forall_mem_singleton.2 ⟨_, _, rfl, .inl rfl⟩⟩
  have plain : ∀ t, .text t ∈ segments → Spelling.Plain t := by
    intro t ht
    simp only [segments, List.mem_cons, Segment.text.injEq, reduceCtorEq, false_or, List.not_mem_nil, or_false] at ht
    rcases ht with rfl | rfl <;> exact Spelling.plain_of_printable (List.all_eq_true.1 (by decide))
  have accepted : matched.1 = true := by decide +kernel
  obtain ⟨regions, written, composed, -, back, usual, -⟩ := captures_print_back _ built collecting plain accepted
  exact ⟨accepted, regions, written, composed, back, usual⟩

/-- A number that is spelled with a zero in front is taken as the number, which is printed without it. -/
theorem number_respelled :
    let segments := [.hole (.infer "N" .number)]
    let matched := run { limit := 5 } (Ty.stringLit "01") (.template segments)
    Built (.template segments) ∧ Collecting segments ∧ matched.1 = true ∧
      Ty.templateOf (segments.map (filled matched.2.captures)) = Ty.stringLit "1" := by
  intro segments matched
  have hole : holes segments = [.infer "N" .number] := rfl
  have found : matched.2.captures.find? "N" = some (.literal .number "1") := by
    have taken : ((matched.2.captures.find? "N").any fun t => t.identical (.literal .number "1")) = true := by decide +kernel
    obtain ⟨t, ht, same⟩ := (Option.any_eq_true ..).1 taken
    rw [ht, Ty.eq_of_identical_atom rfl same]
  have built : Built (.template segments) := by
    have made : Ty.templateOf segments = .template segments := by cbv
    refine made ▸ Ty.built_templateOf (List.forall_mem_singleton.2 (Ty.built_plain rfl ?_))
    exact List.forall_mem_singleton.2 (Ty.built_atom rfl)
  have collecting : Collecting segments := by
    refine ⟨?_, by decide⟩
    rw [hole]
    exact List.forall_mem_singleton.2 ⟨_, _, rfl, .inr (.prim (.inr (.inl rfl)))⟩
  refine ⟨built, collecting, by decide +kernel, ?_⟩
  rw [List.map_singleton, filled, found]
  exact @Ty.templateOf_spelled _ ["1"] rfl

end TypeCalculus.Assignable

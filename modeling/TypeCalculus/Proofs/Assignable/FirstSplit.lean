import TypeCalculus.Proofs.Assignable.Pattern
import TypeCalculus.Proofs.Assignable.Region

/-! Which split of a text decides whether the text inhabits a template without placeholders. The patterns of the holes admit
    certain splits, and the search takes the first of them: hole by hole from the left, with the longest numbers and the
    shortest of all other regions (`FirstSplit`). Only this split is checked (`first_split_decides`). So another split that the
    checks would accept is not found (`later_split_missed`), unless the holes take every text or none. -/

namespace TypeCalculus.Assignable
open Ty (Normal Built TextsJoined holes)

/-! ### Patterns of holes -/

/-- The texts that the pattern of a hole without a placeholder admits. -/
def words : Ty → Language Char
  | .prim .number => Pattern.numberWords
  | .prim .bigint => Pattern.integerWords
  | _ => Set.univ

/-- The pattern of a hole tries a length before another: numbers as long as possible, other texts as short as possible. -/
def TriedBefore : Ty → Nat → Nat → Prop
  | .prim .number, n, m | .prim .bigint, n, m => m < n
  | _, n, m => n < m

/-- The pattern lists the lengths of the words of a hole in their order. -/
structure Searches (pattern : Pattern (List Nat)) (t : Ty) : Prop where
  found : ∀ s n, n ∈ pattern.lengths s ↔ n ≤ s.length ∧ s.take n ∈ words t
  order : ∀ s, (pattern.lengths s).Pairwise (TriedBefore t)

theorem searches_number : Searches .number (.prim .number) where
  found s n := List.mem_eraseDups.trans (Pattern.finds_number s n)
  order s := Pattern.pairwise_of_leading (Pattern.leading_number s)

theorem searches_integer : Searches .integer (.prim .bigint) where
  found s n := List.mem_eraseDups.trans (Pattern.finds_integer s n)
  order s := Pattern.pairwise_of_leading (Pattern.leading_integer s)

theorem searches_shortest {t : Ty} (hw : words t = Set.univ) (ho : TriedBefore t = (· < ·)) : Searches .shortest t where
  found s n := by
    rw [Pattern.lengths, List.mem_range, Nat.lt_succ_iff, hw]
    exact (and_iff_left trivial).symm
  order s := by
    rw [Pattern.lengths, ho]
    exact List.pairwise_lt_range

theorem searches_hole {t : Ty} (open_ : t.isOpenHole = true) (free : t.containsInfer = false) (rest : List (Segment Ty)) :
    ∃ pattern, (Piece.patternBefore t rest).read? = some pattern ∧ Searches pattern t := by
  cases t with
  | prim base =>
    cases base with
    | string => exact ⟨.shortest, rfl, searches_shortest rfl rfl⟩
    | number => exact ⟨.number, rfl, searches_number⟩
    | bigint => exact ⟨.integer, rfl, searches_integer⟩
    | _ => cases open_
  | infer => cases free
  | literal => cases open_
  | union => cases open_
  | _ => exact ⟨.shortest, rfl, searches_shortest rfl rfl⟩

/-! ### Splits -/

/-- The text consists of the texts of a template and regions that the patterns of its holes admit. -/
inductive Admitted : List (Segment Ty) → List Char → List String → Prop
  | nil : Admitted [] [] []
  | text {t rest s regions} : Admitted rest s regions → Admitted (.text t :: rest) (t.toList ++ s) regions
  | hole {t rest s region regions} : region.toList ∈ words t → Admitted rest s regions →
      Admitted (.hole t :: rest) (region.toList ++ s) (region :: regions)

/-- Regions are tried before others: in the first hole where they differ, the pattern tries the length of the one before
    that of the other. -/
inductive Before : List Ty → List String → List String → Prop
  | here {t ts r r' rs rs'} : TriedBefore t r.length r'.length → Before (t :: ts) (r :: rs) (r' :: rs')
  | later {t ts r rs rs'} : Before ts rs rs' → Before (t :: ts) (r :: rs) (r :: rs')

/-- The first of the splits that the patterns admit. -/
def FirstSplit (segments : List (Segment Ty)) (s : List Char) (regions : List String) : Prop :=
  Admitted segments s regions ∧ ∀ others, Admitted segments s others → others = regions ∨ Before (holes segments) regions others

theorem TriedBefore.asymm {t : Ty} {n m : Nat} (h : TriedBefore t n m) : ¬TriedBefore t m n := by
  unfold TriedBefore at h ⊢
  split at h <;> omega

theorem Before.asymm {ts : List Ty} {rs rs' : List String} (h : Before ts rs rs') : ¬Before ts rs' rs := by
  induction h with
  | here first =>
    intro h'
    cases h' with
    | here second => exact first.asymm second
    | later => exact first.asymm first
  | later h ih =>
    intro h'
    cases h' with
    | here second => exact second.asymm second
    | later h' => exact ih h'

/-- A split has at most one first one. -/
theorem FirstSplit.unique {segments : List (Segment Ty)} {s : List Char} {rs rs' : List String} (h : FirstSplit segments s rs)
    (h' : FirstSplit segments s rs') : rs = rs' := by
  rcases h.2 rs' h'.1 with same | before
  · exact same.symm
  · rcases h'.2 rs h.1 with same | before'
    · exact same
    · exact absurd before' before.asymm

section Search
variable {segments rest : List (Segment Ty)} {t : Ty} {s : List Char} {regions : List String}

theorem admitted_hole : Admitted (.hole t :: rest) s regions ↔
    ∃ n rs, n ≤ s.length ∧ s.take n ∈ words t ∧ Admitted rest (s.drop n) rs ∧ regions = String.ofList (s.take n) :: rs := by
  constructor
  · intro h
    cases h with
    | @hole _ _ s region rs word rest =>
      refine ⟨region.toList.length, rs, by simp, by simpa using word, by simpa using rest, ?_⟩
      rw [List.take_left, String.ofList_toList]
  · rintro ⟨n, rs, bound, word, rest, rfl⟩
    have inside : (String.ofList (s.take n)).toList ∈ words t := by rwa [String.toList_ofList]
    have joined := Admitted.hole inside rest
    rwa [String.toList_ofList, List.take_append_drop] at joined

/-- The template can be searched: its texts are read as they are, and its holes hold no placeholders. -/
structure Searchable (segments : List (Segment Ty)) : Prop where
  joined : TextsJoined segments
  texts : ∀ t, .text t ∈ segments → Spelling.codes? t = some (t.toList.map Char.toNat)
  holes : ∀ t ∈ holes segments, t.isOpenHole = true ∧ t.containsInfer = false

theorem Searchable.text {t : String} (h : Searchable (.text t :: rest)) :
    (∀ u rest', rest ≠ .text u :: rest') ∧ Searchable rest := by
  obtain ⟨apart, joined⟩ := Ty.textsJoined_text.1 h.joined
  exact ⟨apart, joined, fun u hu => h.texts u (List.mem_cons_of_mem _ hu), h.holes⟩

theorem Searchable.hole (h : Searchable (.hole t :: rest)) :
    (t.isOpenHole = true ∧ t.containsInfer = false) ∧ Searchable rest :=
  ⟨h.holes t List.mem_cons_self, Ty.textsJoined_hole.1 h.joined, fun u hu => h.texts u (List.mem_cons_of_mem _ hu),
    fun u hu => h.holes u (List.mem_cons_of_mem _ hu)⟩

theorem admitted_text {t : String} :
    Admitted (.text t :: rest) s regions ↔ ∃ s', s = t.toList ++ s' ∧ Admitted rest s' regions := by
  constructor
  · intro h
    cases h with
    | text h => exact ⟨_, rfl, h⟩
  · rintro ⟨s', rfl, h⟩
    exact .text h

/-- The search with the pieces of a template finds the first split, if there is any. -/
structure Searched (pieces : List (Piece (List Nat))) (segments : List (Segment Ty)) : Prop where
  first : ∀ s regions, Piece.regions? pieces s = some regions → FirstSplit segments s regions
  complete : ∀ s regions, Admitted segments s regions → ∃ found, Piece.regions? pieces s = some found

theorem Searched.nil : Searched [] [] where
  first s regions found := by
    rw [Piece.regions?] at found
    obtain ⟨empty, found⟩ := Option.ite_none_right_eq_some.1 found
    cases found
    rw [List.isEmpty_iff.1 empty]
    refine ⟨.nil, fun others admitted => .inl ?_⟩
    cases admitted
    rfl
  complete s regions admitted := by
    cases admitted
    exact ⟨[], rfl⟩

theorem Searched.text {pieces : List (Piece (List Nat))} (h : Searched pieces rest) (t : String) :
    Searched (.text (t.toList.map Char.toNat) :: pieces) (.text t :: rest) where
  first s regions found := by
    rw [Piece.regions?] at found
    obtain ⟨begins, found⟩ := Option.ite_none_right_eq_some.1 found
    obtain ⟨admitted, first⟩ := h.first _ regions found
    refine ⟨admitted_text.2 ⟨_, Spelling.begins_self begins, admitted⟩, fun others ho => ?_⟩
    obtain ⟨s', rfl, inner⟩ := admitted_text.1 ho
    rw [List.length_map, List.drop_left] at first
    exact first others inner
  complete s regions admitted := by
    obtain ⟨s', rfl, inner⟩ := admitted_text.1 admitted
    obtain ⟨found, hf⟩ := h.complete s' regions inner
    refine ⟨found, ?_⟩
    rw [Piece.regions?, if_pos (by simp [Spelling.begins]), List.length_map, List.drop_left, hf]

theorem Searched.hole {pieces : List (Piece (List Nat))} (h : Searched pieces rest) {pattern : Pattern (List Nat)}
    (hp : Searches pattern t) : Searched (.hole pattern :: pieces) (.hole t :: rest) where
  first s regions found := by
    rw [Piece.regions?] at found
    obtain ⟨before, n, after, listed, found, none⟩ := List.findSome?_eq_some_iff.1 found
    obtain ⟨rs, hrs, rfl⟩ := Option.map_eq_some_iff.1 found
    obtain ⟨admitted, first⟩ := h.first _ rs hrs
    have lengths := hp.found s
    have order := hp.order s
    rw [listed] at lengths order
    obtain ⟨bound, word⟩ := (lengths n).1 (List.mem_append_right _ List.mem_cons_self)
    refine ⟨admitted_hole.2 ⟨n, rs, bound, word, admitted, rfl⟩, fun others ho => ?_⟩
    obtain ⟨m, rs', bound', word', inner, rfl⟩ := admitted_hole.1 ho
    rcases List.mem_append.1 ((lengths m).2 ⟨bound', word'⟩) with early | late
    · -- The lengths tried before are those that leave a rest without a split.
      obtain ⟨found', hf⟩ := h.complete _ rs' inner
      have missed := none m early
      rw [hf] at missed
      cases missed
    · rcases List.mem_cons.1 late with rfl | late
      · exact (first rs' inner).imp (congrArg _) .later
      · have tried := (List.pairwise_cons.1 (List.pairwise_append.1 order).2.1).1 m late
        refine .inr (.here ?_)
        rwa [String.length_ofList, String.length_ofList, List.length_take, List.length_take, Nat.min_eq_left bound,
          Nat.min_eq_left bound']
  complete s regions admitted := by
    obtain ⟨n, rs, bound, word, inner, rfl⟩ := admitted_hole.1 admitted
    obtain ⟨found, hf⟩ := h.complete _ rs inner
    have hit : Piece.regions? (.hole pattern :: pieces) s ≠ none := by
      rw [Piece.regions?]
      intro none
      have missed := List.findSome?_eq_none_iff.1 none n ((hp.found s n).2 ⟨bound, word⟩)
      rw [hf] at missed
      cases missed
    exact Option.ne_none_iff_exists'.1 hit

theorem exists_searched (h : Searchable segments) :
    ∃ pieces, Piece.readAll? (Piece.ofSegments segments) = some pieces ∧ Searched pieces segments := by
  induction segments with
  | nil => exact ⟨[], rfl, .nil⟩
  | cons segment rest ih =>
    cases segment with
    | text t =>
      obtain ⟨apart, others⟩ := h.text
      obtain ⟨pieces, read, searched⟩ := ih others
      refine ⟨_, ?_, searched.text t⟩
      rw [Piece.readAll?] at read
      rw [Piece.ofSegments_text apart, Piece.readAll?, List.mapM_cons, Piece.read?, h.texts t List.mem_cons_self, read]
      rfl
    | hole t =>
      obtain ⟨⟨open_, free⟩, others⟩ := h.hole
      obtain ⟨pieces, read, searched⟩ := ih others
      obtain ⟨pattern, hp, searches⟩ := searches_hole open_ free rest
      refine ⟨_, ?_, searched.hole searches⟩
      rw [Piece.readAll?] at read
      rw [Piece.ofSegments, Piece.readAll?, List.mapM_cons, Piece.read?, hp, read]
      rfl

theorem Admitted.length (h : Admitted segments s regions) : regions.length = (holes segments).length := by
  induction h with
  | nil => rfl
  | text _ ih => exact ih
  | hole _ _ ih => rw [Ty.holes_hole, List.length_cons, List.length_cons, ih]

theorem FirstSplit.exists (h : Searchable segments) (admitted : Admitted segments s regions) : ∃ first, FirstSplit segments s first := by
  obtain ⟨pieces, -, searched⟩ := exists_searched h
  obtain ⟨found, hf⟩ := searched.complete s regions admitted
  exact ⟨found, searched.first s found hf⟩

end Search

/-! ### Checks -/

/-- The check of a hole accepts the region. -/
def Fits (rel : Rel) (region : String) (hole : Ty) : Prop := ∀ p, (matchHole rel region hole p).1 = true

theorem fits_iff {o : Options} {n : Nat} {region : String} {t : Ty} :
    Fits (relate o n) region t ↔ ∃ cs, Fills (Derives o n) region t cs := by
  have derived := Derived.fills (relate_derived o n) region t
  constructor
  · exact fun h => derived.complete {} (h {})
  · rintro ⟨cs, hcs⟩ p
    exact (derived.sound cs hcs p).1

/-- What a check makes of a region does not depend on what was captured before. -/
theorem fits_of_start {o : Options} {n : Nat} {region : String} {t : Ty} (h : (matchHole (relate o n) region t {}).1 = true) :
    Fits (relate o n) region t :=
  fits_iff.2 ((Derived.fills (relate_derived o n) region t).complete {} h)

theorem fillsEach_iff {D : Derivation} {segments : List (Segment Ty)} {regions : List String}
    (hl : regions.length = (holes segments).length) :
    (∃ cs, FillsEach D regions segments cs) ↔ ∀ q ∈ regions.zip (holes segments), ∃ cs, Fills D q.1 q.2 cs := by
  induction segments generalizing regions with
  | nil =>
    rw [show holes [] = [] from rfl, List.zip_nil_right]
    exact ⟨fun _ => List.forall_mem_nil _, fun _ => ⟨[], rfl⟩⟩
  | cons segment rest ih =>
    cases segment with
    | text t => exact ih hl
    | hole t =>
      cases regions with
      | nil => cases hl
      | cons region regions =>
        rw [Ty.holes_hole, List.zip_cons_cons, List.forall_mem_cons, ← ih (Nat.succ.inj hl)]
        constructor
        · rintro ⟨-, cs, ds, hc, hd, rfl⟩
          exact ⟨⟨cs, hc⟩, ds, hd⟩
        · rintro ⟨⟨cs, hc⟩, ds, hd⟩
          exact ⟨cs ++ ds, cs, ds, hc, hd, rfl⟩

/-- A text is accepted exactly if the checks accept the regions of its first split. -/
theorem matchTemplate_iff {o : Options} {n : Nat} {text : String} {segments : List (Segment Ty)} (h : Searchable segments)
    (p : Progress) :
    (matchTemplate (relate o n) text segments p).1 = true ↔
      ∃ regions, FirstSplit segments text.toList regions ∧ ∀ q ∈ regions.zip (holes segments), Fits (relate o n) q.1 q.2 := by
  have derived := Derived.fills (relate_derived o n) text (.template segments)
  have accepted : (matchTemplate (relate o n) text segments p).1 = true ↔
      ∃ cs, Fills (Derives o n) text (.template segments) cs := by
    refine ⟨derived.complete p, ?_⟩
    rintro ⟨cs, hcs⟩
    exact (derived.sound cs hcs p).1
  obtain ⟨pieces, read, searched⟩ := exists_searched h
  rw [accepted]
  simp only [Fills, fits_iff]
  constructor
  · rintro ⟨cs, pieces', regions, hp, hr, each⟩
    cases read.symm.trans hp
    have first := searched.first _ regions hr
    exact ⟨regions, first, (fillsEach_iff first.1.length).1 ⟨cs, each⟩⟩
  · rintro ⟨regions, first, filled⟩
    obtain ⟨cs, each⟩ := (fillsEach_iff first.1.length).2 filled
    obtain ⟨found, hf⟩ := searched.complete _ regions first.1
    cases (searched.first _ found hf).unique first
    exact ⟨cs, pieces, regions, read, hf, each⟩

/-- The check of the hole accepts every text, or none. -/
def takesAllOrNone : Ty → Bool
  | .prim .string | .any | .param .. | .keyOf _ | .access .. | .conditional .. | .reference .. => true
  | _ => false

theorem fits_of_takesAllOrNone {o : Options} {n : Nat} {t : Ty} (ht : takesAllOrNone t = true) {region region' : String}
    (h : Fits (relate o n) region t) : Fits (relate o n) region' t := by
  intro p
  have same : (matchHole (relate o n) region' t p).1 = (matchHole (relate o n) region t p).1 := by
    cases n <;> cases t with
    | prim base => cases base <;> first | exact absurd ht Bool.false_ne_true | rfl
    | _ => first | exact absurd ht Bool.false_ne_true | rfl
  exact same.trans (h p)

/-- On the parts of a text the pattern of a hole admits what the check accepts. -/
def Agrees (rel : Rel) (s : List Char) (t : Ty) : Prop := ∀ region : String, region.toList <:+: s → (region.toList ∈ words t ↔ Fits rel region t)

section Parts
variable {segments : List (Segment Ty)} {s : List Char} {regions : List String}

theorem Composed.part (h : Composed segments s regions) : ∀ region ∈ regions, region.toList <:+: s := by
  induction h with
  | nil => exact List.forall_mem_nil _
  | text _ ih => exact fun region hr => (ih region hr).trans (List.suffix_append _ _).isInfix
  | hole _ _ ih =>
    refine List.forall_mem_cons.2 ⟨(List.prefix_append _ _).isInfix, fun region hr => ?_⟩
    exact (ih region hr).trans (List.suffix_append _ _).isInfix

theorem Composed.admitted (h : Composed segments s regions)
    (hw : ∀ q ∈ regions.zip (holes segments), q.1.toList ∈ words q.2) : Admitted segments s regions := by
  induction h with
  | nil => exact .nil
  | text _ ih => exact .text (ih hw)
  | hole _ _ ih =>
    rw [Ty.holes_hole, List.zip_cons_cons, List.forall_mem_cons] at hw
    exact .hole hw.1 (ih hw.2)

theorem Admitted.part (h : Admitted segments s regions) :
    ∀ q ∈ regions.zip (holes segments), q.1.toList <:+: s ∧ q.1.toList ∈ words q.2 := by
  induction h with
  | nil => exact List.forall_mem_nil _
  | text _ ih => exact fun q hq => ⟨(ih q hq).1.trans (List.suffix_append _ _).isInfix, (ih q hq).2⟩
  | hole word _ ih =>
    rw [Ty.holes_hole, List.zip_cons_cons]
    refine List.forall_mem_cons.2 ⟨⟨(List.prefix_append _ _).isInfix, word⟩, fun q hq => ?_⟩
    exact ⟨(ih q hq).1.trans (List.suffix_append _ _).isInfix, (ih q hq).2⟩

end Parts

theorem words_of_takesAllOrNone {t : Ty} (ht : takesAllOrNone t = true) : words t = Set.univ := by
  cases t with
  | prim base => cases base <;> first | exact absurd ht Bool.false_ne_true | rfl
  | _ => rfl

/-! ### Whole numbers -/

theorem isDecimalDigit_of_isDigit {c : Char} (h : c.isDigit = true) : Text.isDecimalDigit c = true := by
  have plain : c.toNat < 0x80 := by
    have bounds : 48 ≤ c.toNat ∧ c.toNat ≤ 57 := by
      simpa [Char.isDigit, Char.le_def, UInt32.le_iff_toNat_le] using h
    omega
  rw [Text.isDecimalDigit, if_pos plain, h]

theorem isSome_readInt? {region : String} :
    (readInt? region).isSome = true ↔
      (Number.splitSign region.toList).2 ≠ [] ∧ ∀ c ∈ (Number.splitSign region.toList).2, c.isDigit = true := by
  unfold readInt?
  dsimp only
  generalize (Number.splitSign region.toList).2 = ds
  rw [← List.all_eq_true]
  by_cases none : ds = []
  · simp [none]
  · cases hd : ds.all Char.isDigit <;> simp [none]

theorem mem_integerWords {cs : List Char} :
    cs ∈ Pattern.integerWords ↔ ∃ ds, (cs = ds ∨ cs = '-' :: ds) ∧ ds ≠ [] ∧ ∀ c ∈ ds, Text.isDecimalDigit c = true := by
  rw [Pattern.integerWords, Language.mem_mul]
  constructor
  · rintro ⟨x, hx | hx, ds, ⟨some_digit, digits⟩, rfl⟩
    · obtain ⟨c, hc, rfl⟩ := hx
      obtain rfl : c = '-' := by simpa using hc
      exact ⟨ds, .inr rfl, List.ne_nil_of_length_pos some_digit, digits⟩
    · obtain rfl := Set.mem_singleton_iff.1 hx
      exact ⟨ds, .inl rfl, List.ne_nil_of_length_pos some_digit, digits⟩
  · rintro ⟨ds, rfl | rfl, some_digit, digits⟩
    · exact ⟨[], .inr rfl, _, ⟨List.length_pos_of_ne_nil some_digit, digits⟩, rfl⟩
    · exact ⟨['-'], .inl ⟨'-', rfl, rfl⟩, ds, ⟨List.length_pos_of_ne_nil some_digit, digits⟩, rfl⟩

theorem fits_bigint {o : Options} {n : Nat} {region : String} :
    Fits (relate o (n + 1)) region (.prim .bigint) ↔ (readInt? region).isSome = true := by
  have check : ∀ p, (matchHole (relate o (n + 1)) region (.prim .bigint) p).1 = (readInt? region).isSome := by
    intro p
    have taken : matchHole (relate o (n + 1)) region (.prim .bigint) =
        relate o (n + 1) (((readInt? region).map Ty.bigintLit).getD (Ty.stringLit region)) (.prim .bigint) := rfl
    rw [taken]
    cases readInt? region <;> rfl
  exact ⟨fun h => check {} ▸ h {}, fun h p => (check p).trans h⟩

/-- In a text of ASCII characters without a plus sign the pattern of a hole for whole numbers admits just what can be read as
    one. -/
theorem agrees_bigint {o : Options} {n : Nat} {s : List Char} (ascii : ∀ c ∈ s, c.toNat < 0x80) (unsigned : '+' ∉ s) :
    Agrees (relate o (n + 1)) s (.prim .bigint) := by
  intro region part
  have plain : ∀ c ∈ region.toList, Text.isDecimalDigit c = true → c.isDigit = true := fun c hc digit => by
    rwa [Text.isDecimalDigit, if_pos (ascii c (part.subset hc))] at digit
  have unsigned : '+' ∉ region.toList := fun hp => unsigned (part.subset hp)
  rw [fits_bigint, isSome_readInt?]
  change region.toList ∈ Pattern.integerWords ↔ _
  rw [mem_integerWords]
  generalize region.toList = cs at plain unsigned ⊢
  unfold Number.splitSign
  split
  · rename_i ds
    constructor
    · rintro ⟨ds', rfl | same, some_digit, digits⟩
      · exact absurd (digits '-' List.mem_cons_self) (by decide)
      · obtain rfl := (List.cons.inj same).2
        exact ⟨some_digit, fun c hc => plain c (List.mem_cons_of_mem _ hc) (digits c hc)⟩
    · rintro ⟨some_digit, digits⟩
      exact ⟨ds, .inr rfl, some_digit, fun c hc => isDecimalDigit_of_isDigit (digits c hc)⟩
  · exact absurd List.mem_cons_self unsigned
  · rename_i bare _
    constructor
    · rintro ⟨ds', rfl | rfl, some_digit, digits⟩
      · exact ⟨some_digit, fun c hc => plain c hc (digits c hc)⟩
      · exact absurd rfl (bare ds')
    · rintro ⟨some_digit, digits⟩
      exact ⟨cs, .inl rfl, some_digit, fun c hc => isDecimalDigit_of_isDigit (digits c hc)⟩

/-! ### Templates -/

/-- Whether a text inhabits a template without placeholders is decided by the first of the splits that the patterns of its
    holes admit: the text is accepted exactly if the checks of all holes accept their regions in this split. Where every hole
    takes all texts or none, or its pattern admits just the parts of the text that its check accepts, some split that the
    checks accept is enough. -/
theorem first_split_decides (o : Options) (n : Nat) {text : String} {segments : List (Segment Ty)}
    (ht : Normal (.template segments)) (free : ∀ t ∈ holes segments, t.containsInfer = false)
    (texts : ∀ t, .text t ∈ segments → Spelling.codes? t = some (t.toList.map Char.toNat)) (p : Progress) :
    ((matchTemplate (relate o n) text segments p).1 = true ↔
      ∃ regions, FirstSplit segments text.toList regions ∧ ∀ q ∈ regions.zip (holes segments), Fits (relate o n) q.1 q.2) ∧
    ((∀ t ∈ holes segments, takesAllOrNone t = true ∨ Agrees (relate o n) text.toList t) →
      (∃ regions, Composed segments text.toList regions ∧ ∀ q ∈ regions.zip (holes segments), Fits (relate o n) q.1 q.2) →
      (matchTemplate (relate o n) text segments p).1 = true) := by
  have searchable : Searchable segments := ⟨ht.form.joined, texts, fun t h => ⟨ht.form.holes t h, free t h⟩⟩
  refine ⟨matchTemplate_iff searchable p, ?_⟩
  rintro sure ⟨regions, composed, fits⟩
  have admitted : Admitted segments text.toList regions := by
    refine composed.admitted fun q hq => ?_
    obtain ⟨hr, ht⟩ := List.of_mem_zip hq
    rcases sure q.2 ht with uniform | agrees
    · rw [words_of_takesAllOrNone uniform]
      trivial
    · exact (agrees q.1 (composed.part q.1 hr)).2 (fits q hq)
  obtain ⟨first, hf⟩ := FirstSplit.exists searchable admitted
  refine (matchTemplate_iff searchable p).2 ⟨first, hf, fun q hq => ?_⟩
  have ht := (List.of_mem_zip hq).2
  rcases sure q.2 ht with uniform | agrees
  · rw [← List.map_snd_zip composed.length.ge] at ht
    obtain ⟨accepted, ha, same⟩ := List.mem_map.1 ht
    exact fits_of_takesAllOrNone uniform (same ▸ fits accepted ha)
  · obtain ⟨part, word⟩ := hf.1.part q hq
    exact (agrees q.1 part).1 word

/-- A version and a label, where the dash stands in the label too. -/
theorem first_split_decides_version :
    let segments := [.text "v", .hole (.prim .bigint), .text "-", .hole .string]
    Composed segments "v12-a-b".toList ["12", "a-b"] ∧ (matchTemplate (relate { limit := 5 } 4) "v12-a-b" segments {}).1 = true := by
  intro segments
  have open_holes : holes segments = [.prim .bigint, .string] := rfl
  have normal : Normal (.template segments) := by
    have made : Ty.templateOf segments = .template segments := by cbv
    refine made ▸ Ty.normal_templateOf (List.forall_mem_cons.2 ⟨Ty.normal_prim _, List.forall_mem_singleton.2 (Ty.normal_prim _)⟩)
  have texts : ∀ t, .text t ∈ segments → Spelling.codes? t = some (t.toList.map Char.toNat) := by
    intro t ht
    simp only [segments, List.mem_cons, Segment.text.injEq, reduceCtorEq, false_or, List.not_mem_nil, or_false] at ht
    rcases ht with rfl | rfl <;> exact Spelling.codes?_printable (List.all_eq_true.1 (by decide))
  have free : ∀ t ∈ holes segments, t.containsInfer = false :=
    List.forall_mem_cons.2 ⟨rfl, List.forall_mem_singleton.2 rfl⟩
  have sure : ∀ t ∈ holes segments, takesAllOrNone t = true ∨ Agrees (relate { limit := 5 } 4) "v12-a-b".toList t :=
    List.forall_mem_cons.2 ⟨.inr (agrees_bigint (by simp) (by simp)), List.forall_mem_singleton.2 (.inl rfl)⟩
  have composed : Composed segments "v12-a-b".toList ["12", "a-b"] := by
    refine @Composed.text "v" _ _ _ (@Composed.hole _ _ _ "12" _ ?_ (@Composed.text "-" _ _ _ (@Composed.hole _ _ _ "a-b" _ ?_ .nil)))
    · rintro ⟨_, h⟩
      cases h
    · rintro ⟨_, h⟩
      cases h
  have fits : ∀ q ∈ ["12", "a-b"].zip (holes segments), Fits (relate { limit := 5 } 4) q.1 q.2 :=
    List.forall_mem_cons.2 ⟨fits_of_start (by decide +kernel), List.forall_mem_singleton.2 (fits_of_start (by decide +kernel))⟩
  exact ⟨composed, (first_split_decides _ _ normal free texts {}).2 sure ⟨_, composed, fits⟩⟩

/-- The search gives the first hole nothing, and the second check does not accept the rest; a split after the first letter it
    would accept. -/
theorem later_split_missed :
    let segments := [.hole .string, .hole (.mapping .uppercase .string)]
    Built (.template segments) ∧ (∀ t ∈ holes segments, t.containsInfer = false) ∧ Composed segments "aB".toList ["a", "B"] ∧
      (∀ q ∈ ["a", "B"].zip (holes segments), Fits (relate { limit := 5 } 4) q.1 q.2) ∧
      (matchTemplate (relate { limit := 5 } 4) "aB" segments {}).1 = false := by
  intro segments
  refine ⟨?_, List.forall_mem_cons.2 ⟨rfl, List.forall_mem_singleton.2 rfl⟩, ?_, ?_, by decide +kernel⟩
  · have made : Ty.templateOf segments = .template segments := by cbv
    refine made ▸ Ty.built_templateOf (List.forall_mem_cons.2 ⟨Ty.built_atom rfl, List.forall_mem_singleton.2 ?_⟩)
    exact Ty.built_plain rfl (List.forall_mem_singleton.2 (Ty.built_atom rfl))
  · refine @Composed.hole _ _ _ "a" _ ?_ (@Composed.hole _ _ _ "B" _ ?_ .nil)
    · rintro ⟨_, h⟩
      cases h
    · rintro ⟨_, h⟩
      cases h
  · exact List.forall_mem_cons.2 ⟨fits_of_start (by decide +kernel), List.forall_mem_singleton.2 (fits_of_start (by decide +kernel))⟩

end TypeCalculus.Assignable

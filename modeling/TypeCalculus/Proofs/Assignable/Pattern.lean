import Mathlib
import TypeCalculus.Assignable.Piece

/-! What the patterns of holes find. The lengths that a pattern lists are those of the starts of the text that belong to a
    language (`Finds`), and numbers come with the longest start first: a start that is listed for the first time is shorter
    than all listed before it (`Leading`). -/

namespace TypeCalculus.Assignable.Pattern

variable {p q : List Char → List Nat} {L M : Language Char}

/-! ### Languages -/

/-- The lengths listed for a text are those of its starts in the language. -/
def Finds (p : List Char → List Nat) (L : Language Char) : Prop := ∀ s n, n ∈ p s ↔ n ≤ s.length ∧ s.take n ∈ L

/-- One character of a kind. -/
def charIn (k : Char → Bool) : Language Char := {cs | ∃ c, k c = true ∧ cs = [c]}

/-- At least so many digits. -/
def digitsFrom (low : Nat) : Language Char := {cs | low ≤ cs.length ∧ ∀ c ∈ cs, Text.isDecimalDigit c = true}

theorem mem_andThen {s : List Char} {n : Nat} : n ∈ andThen p q s ↔ ∃ a ∈ p s, ∃ b ∈ q (s.drop a), a + b = n := by
  simp only [andThen, List.mem_flatMap, List.mem_map]

theorem finds_andThen (hp : Finds p L) (hq : Finds q M) : Finds (andThen p q) (L * M) := by
  intro s n
  rw [mem_andThen, Language.mem_mul]
  constructor
  · rintro ⟨a, ha, b, hb, rfl⟩
    obtain ⟨la, ma⟩ := (hp s a).1 ha
    obtain ⟨lb, mb⟩ := (hq _ b).1 hb
    rw [List.length_drop] at lb
    exact ⟨by omega, _, ma, _, mb, by rw [List.take_add]⟩
  · rintro ⟨bound, x, hx, y, hy, joined⟩
    have total : x.length + y.length = n := by
      rw [← List.length_append, joined, List.length_take, Nat.min_eq_left bound]
    have first : s.take x.length = x := by
      have := congrArg (List.take x.length) joined
      rwa [List.take_left, List.take_take, Nat.min_eq_left (by omega), eq_comm] at this
    have second : (s.drop x.length).take y.length = y := by
      have := congrArg (List.drop x.length) joined
      rwa [List.drop_left, List.drop_take, show n - x.length = y.length by omega, eq_comm] at this
    refine ⟨x.length, (hp s _).2 ⟨by omega, first.symm ▸ hx⟩, y.length, (hq _ _).2 ⟨?_, second.symm ▸ hy⟩, total⟩
    rw [List.length_drop]
    omega

theorem finds_optional (hp : Finds p L) : Finds (optional p) (L + 1) := by
  intro s n
  rw [optional, List.mem_append, List.mem_singleton, hp, Language.mem_add, Language.mem_one, List.take_eq_nil_iff]
  constructor
  · rintro (⟨bound, h⟩ | rfl)
    · exact ⟨bound, .inl h⟩
    · exact ⟨Nat.zero_le _, .inr (.inl rfl)⟩
  · rintro ⟨bound, h | rfl | rfl⟩
    · exact .inl ⟨bound, h⟩
    · exact .inr rfl
    · exact .inr (Nat.le_zero.1 bound)

theorem finds_orElse (hp : Finds p L) (hq : Finds q M) : Finds (orElse p q) (L + M) := by
  intro s n
  rw [orElse, List.mem_append, hp, hq, Language.mem_add]
  exact and_or_left.symm

theorem finds_char (k : Char → Bool) : Finds (char k) (charIn k) := by
  intro s n
  change n ∈ char k s ↔ n ≤ s.length ∧ ∃ c, k c = true ∧ s.take n = [c]
  cases s with
  | nil => simp [char]
  | cons c s =>
    rw [char]
    constructor
    · intro h
      split at h
      · rename_i hc
        cases List.mem_singleton.1 h
        exact ⟨by simp, c, hc, rfl⟩
      · cases h
    · rintro ⟨bound, d, hd, start⟩
      have single : n = 1 := by
        have := congrArg List.length start
        rwa [List.length_take, Nat.min_eq_left bound] at this
      rw [single, List.take_succ_cons, List.take_zero] at start
      obtain rfl : c = d := (List.cons.inj start).1
      rw [if_pos hd, single]
      exact List.mem_singleton_self 1

theorem mem_downTo {low n m : Nat} : n ∈ downTo low m ↔ low ≤ n ∧ n ≤ m := by
  induction m with
  | zero =>
    rw [downTo]
    split <;> simp <;> omega
  | succ m ih =>
    rw [downTo]
    split
    · rw [List.mem_cons, ih]
      omega
    · simp
      omega

theorem le_digitRun {s : List Char} {n : Nat} :
    n ≤ digitRun s ↔ n ≤ s.length ∧ ∀ c ∈ s.take n, Text.isDecimalDigit c = true := by
  induction s generalizing n with
  | nil => simp [digitRun]
  | cons c s ih =>
    cases n with
    | zero => simp
    | succ n =>
      unfold digitRun at ih ⊢
      rw [List.takeWhile_cons, List.take_succ_cons, List.forall_mem_cons, List.length_cons]
      split
      · rename_i digit
        rw [List.length_cons, Nat.succ_le_succ_iff, Nat.succ_le_succ_iff, ih]
        simp [digit]
      · rename_i other
        simp [other]

theorem finds_digits (low : Nat) : Finds (digits low) (digitsFrom low) := by
  intro s n
  change n ∈ digits low s ↔ n ≤ s.length ∧ low ≤ (s.take n).length ∧ ∀ c ∈ s.take n, Text.isDecimalDigit c = true
  rw [digits, mem_downTo, le_digitRun, List.length_take]
  constructor
  · rintro ⟨least, bound, all⟩
    exact ⟨bound, by omega, all⟩
  · rintro ⟨bound, least, all⟩
    exact ⟨by omega, bound, all⟩

def signWords : Language Char := charIn (fun c => c = '+' || c = '-') + 1

def decimalWords : Language Char :=
  digitsFrom 1 * ((charIn (· = '.') + 1) * digitsFrom 0) + charIn (· = '.') * digitsFrom 1

def exponentWords : Language Char := charIn (fun c => c = 'e' || c = 'E') * (signWords * digitsFrom 1)

/-- What may stand in a hole for numbers. -/
def numberWords : Language Char := signWords * (decimalWords * (exponentWords + 1))

/-- What may stand in a hole for whole numbers. -/
def integerWords : Language Char := (charIn (· = '-') + 1) * digitsFrom 1

theorem finds_sign : Finds (optional (char fun c => c = '+' || c = '-')) signWords := finds_optional (finds_char _)

theorem finds_number : Finds numberLengths numberWords := by
  have point := finds_char (· = '.')
  have decimal := finds_orElse (finds_andThen (finds_digits 1) (finds_andThen (finds_optional point) (finds_digits 0)))
    (finds_andThen point (finds_digits 1))
  have exponent := finds_andThen (finds_char fun c => c = 'e' || c = 'E') (finds_andThen finds_sign (finds_digits 1))
  exact finds_andThen finds_sign (finds_andThen decimal (finds_optional exponent))

theorem finds_integer : Finds integerLengths integerWords := finds_andThen (finds_optional (finds_char _)) (finds_digits 1)

/-! ### Order -/

/-- A length that is listed for the first time is less than all before it. -/
def Leading (l : List Nat) : Prop := ∀ before n after, l = before ++ n :: after → n ∉ before → ∀ m ∈ before, n < m

theorem leading_nil : Leading [] := fun _ _ _ h => by simp at h

theorem leading_append {l k : List Nat} (hl : Leading l) (hk : Leading k) (later : ∀ n ∈ k, n ∉ l → ∀ m ∈ l, n < m) :
    Leading (l ++ k) := by
  intro before n after h fresh m hm
  rcases List.append_eq_append_iff.1 h with ⟨before', rfl, rest⟩ | ⟨after', rfl, rest⟩
  · rw [List.mem_append, not_or] at fresh
    rcases List.mem_append.1 hm with hm | hm
    · exact later n (rest ▸ List.mem_append_right _ List.mem_cons_self) fresh.1 m hm
    · exact hk before' n after rest fresh.2 m hm
  · cases after' with
    | nil => exact later n (by rw [← List.nil_append k, ← rest]; exact List.mem_cons_self) (by simpa using fresh) m (by simpa using hm)
    | cons x after' =>
      obtain ⟨rfl, rfl⟩ := List.cons.inj rest
      exact hl before _ after' rfl fresh m hm

theorem leading_of_pairwise {l : List Nat} (h : l.Pairwise (· > ·)) : Leading l := by
  rintro before n after rfl - m hm
  exact (List.pairwise_append.1 h).2.2 m hm n List.mem_cons_self

/-- Blocks of lengths one after the other, each block at least at its own length: what a later block lists above an earlier
    length the earlier block lists too. -/
theorem leading_flatMap {l : List Nat} {f : Nat → List Nat} (hl : Leading l) (hf : ∀ a ∈ l, Leading (f a))
    (above : ∀ a ∈ l, ∀ n ∈ f a, a ≤ n) (listed : ∀ a ∈ l, ∀ b ∈ l, b < a → ∀ n ∈ f b, a ≤ n → n ∈ f a) :
    Leading (l.flatMap f) := by
  induction l using List.reverseRecOn with
  | nil => exact leading_nil
  | append_singleton l b ih =>
    have earlier : ∀ {a}, a ∈ l → a ∈ l ++ [b] := List.mem_append_left _
    have hb : b ∈ l ++ [b] := List.mem_append_right _ (List.mem_singleton_self b)
    rw [List.flatMap_append, List.flatMap_singleton]
    refine leading_append (ih ?_ (fun a ha => hf a (earlier ha)) (fun a ha => above a (earlier ha))
      fun a ha c hc => listed a (earlier ha) c (earlier hc)) (hf b hb) fun n hn fresh m hm => ?_
    · intro before n after h
      exact hl before n (after ++ [b]) (by rw [h, List.append_assoc, List.cons_append])
    · obtain ⟨a, ha, hm⟩ := List.mem_flatMap.1 hm
      have new : b ∉ l := fun old => fresh (List.mem_flatMap.2 ⟨b, old, hn⟩)
      have less : b < a := hl l b [] rfl new a ha
      by_contra long
      have reach : a ≤ n := (above a (earlier ha) m hm).trans (not_lt.1 long)
      exact fresh (List.mem_flatMap.2 ⟨a, ha, listed a (earlier ha) b hb less n hn reach⟩)

theorem leading_andThen {s : List Char} (hp : Leading (p s)) (hq : ∀ a ∈ p s, Leading (q (s.drop a)))
    (listed : ∀ a ∈ p s, ∀ b ∈ p s, b < a → ∀ n ∈ q (s.drop b), a ≤ b + n → ∃ m ∈ q (s.drop a), a + m = b + n) :
    Leading (andThen p q s) := by
  refine leading_flatMap hp (fun a ha => ?_) (fun a _ n hn => ?_) fun a ha b hb less n hn reach => ?_
  · rintro before n after h fresh m hm
    obtain ⟨before', rest, split, rfl, others⟩ := List.map_eq_append_iff.1 h
    obtain ⟨n, after', rfl, rfl, rfl⟩ := List.map_eq_cons_iff.1 others
    obtain ⟨m, hm', rfl⟩ := List.mem_map.1 hm
    exact Nat.add_lt_add_left (hq a ha before' n after' split (fun old => fresh (List.mem_map_of_mem old)) m hm') a
  · obtain ⟨m, -, rfl⟩ := List.mem_map.1 hn
    exact Nat.le_add_right a m
  · obtain ⟨m, hm, rfl⟩ := List.mem_map.1 hn
    obtain ⟨k, hk, same⟩ := listed a ha b hb less m hm reach
    exact List.mem_map.2 ⟨k, hk, same⟩

theorem leading_optional {s : List Char} (hp : Leading (p s)) : Leading (optional p s) := by
  refine leading_append hp (leading_of_pairwise (List.pairwise_singleton _ _)) fun n hn fresh m hm => ?_
  obtain rfl := List.mem_singleton.1 hn
  exact Nat.pos_of_ne_zero fun zero => fresh (zero ▸ hm)

theorem leading_char (k : Char → Bool) (s : List Char) : Leading (char k s) := by
  unfold char
  split
  · split
    · exact leading_of_pairwise (List.pairwise_singleton _ _)
    · exact leading_nil
  · exact leading_nil

theorem downTo_pairwise (low m : Nat) : (downTo low m).Pairwise (· > ·) := by
  induction m with
  | zero =>
    rw [downTo]
    split
    · exact List.pairwise_singleton _ _
    · exact List.Pairwise.nil
  | succ m ih =>
    rw [downTo]
    split
    · exact List.pairwise_cons.2 ⟨fun n hn => Nat.lt_succ_of_le (mem_downTo.1 hn).2, ih⟩
    · exact List.Pairwise.nil

theorem leading_digits (low : Nat) (s : List Char) : Leading (digits low s) := leading_of_pairwise (downTo_pairwise _ _)

theorem leading_char_andThen {k : Char → Bool} (hq : ∀ s, Leading (q s)) (s : List Char) : Leading (andThen (char k) q s) := by
  refine leading_andThen (leading_char k s) (fun a _ => hq _) fun a ha b hb less _ _ _ => ?_
  have one : ∀ {n}, n ∈ char k s → n = 1 := fun hn => by
    unfold char at hn
    split at hn
    · split at hn
      · exact List.mem_singleton.1 hn
      · cases hn
    · cases hn
  rw [one ha, one hb] at less
  exact absurd less (lt_irrefl 1)

theorem starts_of_char {k : Char → Bool} {s : List Char} {n : Nat} (h : n ∈ char k s) : n = 1 ∧ ∃ c rest, s = c :: rest ∧ k c = true := by
  obtain ⟨bound, c, hc, start⟩ := (finds_char k s n).1 h
  have single := congrArg List.length start
  rw [List.length_take, Nat.min_eq_left bound] at single
  cases s with
  | nil => simp at start
  | cons d s =>
    obtain rfl : n = 1 := single
    rw [List.take_succ_cons] at start
    exact ⟨rfl, d, s, rfl, (List.cons.inj start).1 ▸ hc⟩

/-- With and without a sign, where nothing is found that starts with one. -/
theorem leading_signed {k : Char → Bool} (hq : ∀ s, Leading (q s)) (unsigned : ∀ c rest, k c = true → q (c :: rest) = [])
    (s : List Char) : Leading (andThen (optional (char k)) q s) := by
  refine leading_andThen (leading_optional (leading_char _ _)) (fun a _ => hq _) fun a ha b hb less n hn _ => ?_
  rw [optional, List.mem_append, List.mem_singleton] at ha
  rcases ha with sign | rfl
  · obtain ⟨rfl, c, rest, rfl, hc⟩ := starts_of_char sign
    obtain rfl : b = 0 := by omega
    rw [List.drop_zero, unsigned c rest hc] at hn
    cases hn
  · omega

/-! ### Numbers -/

/-- Signs, points and the letters of exponents are no digits. -/
theorem not_digit {c : Char} (h : c = '+' ∨ c = '-' ∨ c = '.' ∨ c = 'e' ∨ c = 'E') : Text.isDecimalDigit c = false := by
  rcases h with rfl | rfl | rfl | rfl | rfl <;> decide

theorem digits_nil {c : Char} (h : Text.isDecimalDigit c = false) (rest : List Char) : digits 1 (c :: rest) = [] := by
  rw [digits, digitRun, List.takeWhile_cons, h]
  rfl

theorem leading_sign_digits {k : Char → Bool} (hk : ∀ c, k c = true → c = '+' ∨ c = '-') (s : List Char) :
    Leading (andThen (optional (char k)) (digits 1) s) :=
  leading_signed (leading_digits 1) (fun c rest hc => digits_nil (not_digit ((hk c hc).imp_right .inl)) rest) s

theorem leading_integer (s : List Char) : Leading (integerLengths s) :=
  leading_sign_digits (fun c hc => .inr (by simpa using hc)) s

theorem mem_take_of_drop {s rest : List Char} {a b : Nat} {c : Char} (h : s.drop b = c :: rest) (less : b < a) : c ∈ s.take a := by
  refine List.mem_of_mem_drop (i := b) ?_
  rw [List.drop_take, h]
  obtain ⟨k, hk⟩ : ∃ k, a - b = k + 1 := ⟨a - b - 1, by omega⟩
  rw [hk, List.take_succ_cons]
  exact List.mem_cons_self

theorem leading_fraction (s : List Char) : Leading (andThen (optional (char (· = '.'))) (digits 0) s) := by
  refine leading_andThen (leading_optional (leading_char _ _)) (fun a _ => leading_digits 0 _) fun a ha b hb less n hn reach => ?_
  rw [optional, List.mem_append, List.mem_singleton] at ha
  rcases ha with point | rfl
  · obtain ⟨rfl, c, rest, rfl, hc⟩ := starts_of_char point
    obtain rfl : b = 0 := by omega
    obtain ⟨-, -, all⟩ := (finds_digits 0 _ n).1 hn
    have dot : Text.isDecimalDigit c = false := not_digit (.inr (.inr (.inl (by simpa using hc))))
    rw [all c (mem_take_of_drop (b := 0) rfl (by omega))] at dot
    cases dot
  · omega

theorem leading_whole (s : List Char) :
    Leading (andThen (digits 1) (andThen (optional (char (· = '.'))) (digits 0)) s) := by
  refine leading_andThen (leading_digits 1 s) (fun a _ => leading_fraction _) fun a ha b hb less n hn reach => ?_
  obtain ⟨-, -, digit⟩ := (finds_digits 1 s a).1 ha
  obtain ⟨x, hx, y, hy, rfl⟩ := mem_andThen.1 hn
  rw [optional, List.mem_append, List.mem_singleton] at hx
  rcases hx with point | rfl
  · -- The character after the shorter run is a digit, so it is no point.
    obtain ⟨-, c, rest, starts, hc⟩ := starts_of_char point
    have dot : Text.isDecimalDigit c = false := not_digit (.inr (.inr (.inl (by simpa using hc))))
    rw [digit c (mem_take_of_drop starts less)] at dot
    cases dot
  · rw [List.drop_zero] at hy
    obtain ⟨bound, -, all⟩ := (finds_digits 0 _ y).1 hy
    refine ⟨0 + (b + y - a), mem_andThen.2 ⟨0, List.mem_append_right _ (List.mem_singleton_self 0), b + y - a, ?_, rfl⟩, by omega⟩
    rw [List.length_drop] at bound
    refine (finds_digits 0 _ _).2 ⟨by simp only [List.length_drop]; omega, Nat.zero_le _, fun c hc => all c ?_⟩
    obtain ⟨k, rfl⟩ : ∃ k, a = b + k := ⟨a - b, by omega⟩
    rw [List.drop_zero, show b + y - (b + k) = y - k by omega, ← List.drop_drop, ← List.drop_take] at hc
    exact List.mem_of_mem_drop hc

theorem starts_of_digits {s : List Char} {n : Nat} (h : n ∈ digits 1 s) : ∃ c rest, s = c :: rest ∧ Text.isDecimalDigit c = true := by
  cases s with
  | nil => cases h
  | cons c s =>
    refine ⟨c, s, rfl, ?_⟩
    by_contra other
    rw [digits_nil (Bool.eq_false_iff.2 other)] at h
    cases h

/-- The digits of a number, with a point among them or in front. -/
def decimalLengths : List Char → List Nat :=
  orElse (andThen (digits 1) (andThen (optional (char (· = '.'))) (digits 0))) (andThen (char (· = '.')) (digits 1))

theorem finds_decimal : Finds decimalLengths decimalWords := by
  have point := finds_char (· = '.')
  exact finds_orElse (finds_andThen (finds_digits 1) (finds_andThen (finds_optional point) (finds_digits 0)))
    (finds_andThen point (finds_digits 1))

theorem leading_decimal (s : List Char) : Leading (decimalLengths s) := by
  refine leading_append (leading_whole s) (leading_char_andThen (leading_digits 1) s) fun n hn _ m hm => ?_
  obtain ⟨x, hx, -⟩ := mem_andThen.1 hn
  obtain ⟨y, hy, -⟩ := mem_andThen.1 hm
  obtain ⟨-, c, rest, rfl, hc⟩ := starts_of_char hx
  obtain ⟨d, rest', starts, digit⟩ := starts_of_digits hy
  rw [← (List.cons.inj starts).1, not_digit (.inr (.inr (.inl (by simpa using hc))))] at digit
  cases digit

theorem decimalWords_spec {cs : List Char} (h : cs ∈ decimalWords) :
    cs ≠ [] ∧ ∀ c ∈ cs, c = '.' ∨ Text.isDecimalDigit c = true := by
  have digits : ∀ {low : Nat} {ds : List Char}, ds ∈ digitsFrom low → low ≤ ds.length ∧ ∀ c ∈ ds, c = '.' ∨ Text.isDecimalDigit c = true :=
    fun hd => ⟨hd.1, fun c hc => .inr (hd.2 c hc)⟩
  have point : ∀ {ds : List Char}, ds ∈ charIn (· = '.') → ds = ['.'] := by
    rintro ds ⟨c, hc, rfl⟩
    rw [show c = '.' by simpa using hc]
  rw [decimalWords, Language.mem_add, Language.mem_mul, Language.mem_mul] at h
  rcases h with ⟨x, hx, yz, hyz, rfl⟩ | ⟨x, hx, y, hy, rfl⟩
  · obtain ⟨y, hy, z, hz, rfl⟩ := Language.mem_mul.1 hyz
    obtain ⟨some_digit, allx⟩ := digits hx
    refine ⟨fun none => ?_, List.forall_mem_append.2 ⟨allx, List.forall_mem_append.2 ⟨?_, (digits hz).2⟩⟩⟩
    · rw [(List.append_eq_nil_iff.1 none).1] at some_digit
      exact absurd some_digit (by decide)
    · rcases hy with hy | hy
      · exact point hy ▸ List.forall_mem_singleton.2 (.inl rfl)
      · exact Set.mem_singleton_iff.1 hy ▸ List.forall_mem_nil _
  · rw [point hx]
    exact ⟨List.cons_ne_nil _ _, List.forall_mem_cons.2 ⟨.inl rfl, (digits hy).2⟩⟩

theorem leading_number (s : List Char) : Leading (numberLengths s) := by
  have exponent : ∀ s, Leading (optional (andThen (char fun c => c = 'e' || c = 'E')
      (andThen (optional (char fun c => c = '+' || c = '-')) (digits 1))) s) :=
    fun s => leading_optional (leading_char_andThen (leading_sign_digits fun c hc => by simpa using hc) s)
  refine leading_signed (fun s => leading_andThen (leading_decimal s) (fun a _ => exponent _) fun a ha b hb less n hn reach => ?_) ?_ s
  · -- The letter of an exponent does not stand among the digits.
    rw [optional, List.mem_append, List.mem_singleton] at hn
    rcases hn with letter | rfl
    · obtain ⟨x, hx, -⟩ := mem_andThen.1 letter
      obtain ⟨-, c, rest, starts, hc⟩ := starts_of_char hx
      have among := (decimalWords_spec ((finds_decimal s a).1 ha).2).2 c (mem_take_of_drop starts less)
      have hc : c = 'e' ∨ c = 'E' := by simpa using hc
      rcases among with rfl | digit
      · rcases hc with hc | hc <;> cases hc
      · rw [not_digit (.inr (.inr (.inr hc)))] at digit
        cases digit
    · omega
  · intro c rest hc
    have hc : c = '+' ∨ c = '-' := by simpa using hc
    rw [List.eq_nil_iff_forall_not_mem]
    intro n hn
    obtain ⟨x, hx, -⟩ := mem_andThen.1 hn
    obtain ⟨some_char, among⟩ := decimalWords_spec ((finds_decimal _ x).1 hx).2
    cases x with
    | zero => exact some_char rfl
    | succ x =>
      rcases among c List.mem_cons_self with rfl | digit
      · rcases hc with hc | hc <;> cases hc
      · rw [not_digit (hc.imp_right .inl)] at digit
        cases digit

/-! ### Listed lengths -/

theorem leading_filter {l : List Nat} (h : Leading l) (k : Nat → Bool) : Leading (l.filter k) := by
  intro before n after hf fresh m hm
  obtain ⟨first, others, rfl, rfl, hn⟩ := List.filter_eq_append_iff.1 hf
  obtain ⟨dropped, after', rfl, none, kept, rfl⟩ := List.filter_eq_cons_iff.1 hn
  have new : n ∉ first ++ dropped := fun old => (List.mem_append.1 old).elim
    (fun hf => fresh (List.mem_filter.2 ⟨hf, kept⟩)) fun hd => none n hd kept
  exact h (first ++ dropped) n after' (by simp) new m (List.mem_append_left _ (List.mem_filter.1 hm).1)

/-- Without repetitions the lengths come in descending order. -/
theorem pairwise_of_leading {l : List Nat} (h : Leading l) : l.eraseDups.Pairwise (· > ·) := by
  generalize hk : l.length = k
  induction k using Nat.strong_induction_on generalizing l with
  | _ k ih =>
    cases l with
    | nil => exact List.Pairwise.nil
    | cons a l =>
      have others : Leading (l.filter fun n => !n == a) := by
        have whole := leading_filter h fun n => !n == a
        rwa [List.filter_cons_of_neg (by simp)] at whole
      rw [List.eraseDups_cons]
      refine List.pairwise_cons.2 ⟨fun n hn => ?_, ih _ ?_ others rfl⟩
      · obtain ⟨hn, ne⟩ := List.mem_filter.1 (List.mem_eraseDups.1 hn)
        have ne : n ≠ a := by simpa using ne
        obtain ⟨before, after, rfl, fresh⟩ := List.eq_append_cons_of_mem hn
        exact h (a :: before) n after rfl (by simp [ne, fresh]) a List.mem_cons_self
      · rw [← hk, List.length_cons]
        exact Nat.lt_succ_of_le (List.length_filter_le _ l)

end TypeCalculus.Assignable.Pattern

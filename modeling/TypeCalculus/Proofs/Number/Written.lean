import TypeCalculus.Number.Written
import TypeCalculus.Proofs.Number.Shortest
import TypeCalculus.Text.Class

/-! Written numbers can be read again. The digits of the shortest decimal are read back as they were written, with or without
    a point and an exponent (`unsigned?_write`), and the decimal is in range as its number is. So what is written for a
    number in range is read as a number (`read?_write`). -/

namespace TypeCalculus.Number
open Binary64 (InRange overflow)

/-! ### Characters -/

/-- The characters of written numbers. -/
def numeralChars : List Char := "0123456789.e+-".toList

/-- The text consists of characters of written numbers. -/
def Numeral (cs : List Char) : Prop := ∀ c ∈ cs, c ∈ numeralChars

theorem Numeral.append {cs ds : List Char} (hc : Numeral cs) (hd : Numeral ds) : Numeral (cs ++ ds) :=
  List.forall_mem_append.2 ⟨hc, hd⟩

theorem Numeral.cons {c : Char} {cs : List Char} (hc : c ∈ numeralChars) (h : Numeral cs) : Numeral (c :: cs) :=
  List.forall_mem_cons.2 ⟨hc, h⟩

theorem mem_numeralChars {c : Char} (h : c.isDigit = true) : c ∈ numeralChars := by
  have bounds : 48 ≤ c.toNat ∧ c.toNat ≤ 57 := by
    simpa [Char.isDigit, Char.le_def, UInt32.le_iff_toNat_le] using h
  have codes : ∀ n, 48 ≤ n → n ≤ 57 → Char.ofNat n ∈ numeralChars := by
    intro n low high
    interval_cases n <;> decide
  exact Char.ofNat_toNat c ▸ codes c.toNat bounds.1 bounds.2

/-- No character of a number is a base mark, an underscore or a blank, and no word starts with one. -/
theorem numeralChars_spec {c : Char} (h : c ∈ numeralChars) :
    low c ≠ 'x' ∧ low c ≠ 'i' ∧ low c ≠ 'n' ∧ c ≠ '_' ∧ Text.isBlank c = false := by
  have all : (numeralChars.all fun c => low c ≠ 'x' ∧ low c ≠ 'i' ∧ low c ≠ 'n' ∧ c ≠ '_' ∧ Text.isBlank c = false) = true := by
    decide
  exact of_decide_eq_true (List.all_eq_true.1 all c h)

/-! ### Digits -/

/-- All characters are digits. -/
def AllDigits (cs : List Char) : Prop := ∀ c ∈ cs, c.isDigit = true

theorem AllDigits.numeral {cs : List Char} (h : AllDigits cs) : Numeral cs := fun c hc => mem_numeralChars (h c hc)

theorem allDigits_toDigits (n : Nat) : AllDigits (Nat.toDigits 10 n) := fun _ => Nat.isDigit_of_mem_toDigits (by decide) (by decide)

theorem allDigits_zeros (n : Nat) : AllDigits (List.replicate n '0') := fun c hc => by
  rw [List.eq_of_mem_replicate hc]
  rfl

theorem AllDigits.append {cs ds : List Char} (hc : AllDigits cs) (hd : AllDigits ds) : AllDigits (cs ++ ds) :=
  List.forall_mem_append.2 ⟨hc, hd⟩

theorem ofDigitChars_zeros (n init : Nat) : Nat.ofDigitChars 10 (List.replicate n '0') init = init * 10 ^ n := by
  induction n generalizing init with
  | zero => simp
  | succ n ih =>
    rw [List.replicate_succ, Nat.ofDigitChars_cons, ih, Nat.sub_self, Nat.add_zero, pow_succ]
    ring

theorem le_ofDigitChars (ds : List Char) (n : Nat) : n ≤ Nat.ofDigitChars 10 ds n := by
  induction ds generalizing n with
  | nil => exact le_refl _
  | cons c cs ih =>
    rw [Nat.ofDigitChars_cons]
    exact le_trans (by omega) (ih _)

/-! ### Scanning -/

/-- What has been read after some more digits. -/
def Digits.after (acc : Digits) (point : Bool) (ds : List Char) : Digits :=
  { acc with
    value := Nat.ofDigitChars 10 ds acc.value
    count := acc.count + ds.length
    fraction := if point then acc.fraction + ds.length else acc.fraction }

theorem digit_spec {c : Char} (h : c.isDigit = true) : c ≠ '_' ∧ c ≠ '.' ∧ digit? false c = some (c.toNat - '0'.toNat) := by
  refine ⟨?_, ?_, by rw [digit?, if_pos h]⟩ <;> rintro rfl <;> cases h

theorem scanDigits_digits {ds : List Char} (h : AllDigits ds) (point : Bool) (acc : Digits) (rest : List Char) :
    scanDigits false point acc (ds ++ rest) = scanDigits false point (acc.after point ds) rest := by
  induction ds generalizing acc with
  | nil => cases point <;> rfl
  | cons c cs ih =>
    obtain ⟨digit, digits⟩ := List.forall_mem_cons.1 h
    obtain ⟨underscore, dot, value⟩ := digit_spec digit
    rw [List.cons_append, scanDigits, if_neg underscore, if_neg dot, value]
    dsimp only
    rw [ih digits]
    congr 1
    cases point <;> simp [Digits.after, Nat.ofDigitChars_cons, Nat.mul_comm, Nat.add_assoc, Nat.add_comm 1]

theorem scanDigits_point (acc : Digits) (rest : List Char) :
    scanDigits false false acc ('.' :: rest) = scanDigits false true acc rest := by
  rw [scanDigits, if_neg (by decide), if_pos rfl, if_neg (by decide)]

theorem scanDigits_exponent (point : Bool) (acc : Digits) (rest : List Char) :
    scanDigits false point acc ('e' :: rest) = { acc with rest := 'e' :: rest } := by
  rw [scanDigits, if_neg (by decide), if_neg (by decide)]
  rfl

/-- An exponent of five digits at most is read in full. -/
theorem scanExponent_digits {ds : List Char} (h : AllDigits ds) {e : Nat} (small : Nat.ofDigitChars 10 ds e < 100000) :
    scanExponent e ds = (Nat.ofDigitChars 10 ds e, []) := by
  induction ds generalizing e with
  | nil => rfl
  | cons c cs ih =>
    obtain ⟨digit, digits⟩ := List.forall_mem_cons.1 h
    rw [Nat.ofDigitChars_cons] at small ⊢
    have room : e < 10000 := by
      have := le_ofDigitChars cs (10 * e + (c.toNat - '0'.toNat))
      omega
    rw [scanExponent, if_neg (digit_spec digit).1, if_pos digit, if_pos room, Nat.mul_comm, ih digits small]

theorem exponent?_digits {ds : List Char} (h : AllDigits ds) (some_digit : ds ≠ []) (small : Nat.ofDigitChars 10 ds 0 < 100000)
    (negative : Bool) :
    exponent? ((if negative then '-' else '+') :: ds) =
      some ((if negative then -1 else 1) * (Nat.ofDigitChars 10 ds 0 : Int), []) := by
  obtain ⟨c, cs, rfl⟩ := List.exists_cons_of_ne_nil some_digit
  have digit := h c List.mem_cons_self
  cases negative <;> simp [exponent?, digit, scanExponent_digits h small]

/-- What follows the digits of a number: nothing, or the letter of an exponent and the exponent. -/
inductive Tail : List Char → Int → Prop
  | none : Tail [] 0
  | exponent {cs e} : Numeral cs → exponent? cs = some (e, []) → Tail ('e' :: cs) e

theorem Tail.numeral {cs : List Char} {e : Int} (h : Tail cs e) : Numeral cs := by
  cases h with
  | none => exact List.forall_mem_nil _
  | exponent hc _ => exact hc.cons (by decide)

theorem Tail.scan {cs : List Char} {e : Int} (h : Tail cs e) (point : Bool) (acc : Digits) :
    scanDigits false point acc cs = { acc with rest := cs } := by
  cases h with
  | none => rw [scanDigits]
  | exponent => rw [scanDigits_exponent]

/-! ### Unsigned numbers -/

theorem baseMark_numeral {cs : List Char} (h : Numeral cs) : baseMark cs = (false, cs) := by
  unfold baseMark
  split
  · rename_i x c r
    rw [if_neg (numeralChars_spec (h x (by simp))).1]
  · rfl

theorem ofDigits?_tail {d : Digits} (counted : d.count ≠ 0) {e : Int} (ht : Tail d.rest e) :
    ofDigits? false d = ofDecimal? d.value (e - d.fraction) := by
  rw [ofDigits?, if_neg counted]
  generalize d.rest = rest at ht
  cases ht with
  | none => rw [zero_sub, if_neg Bool.false_ne_true]
  | exponent _ he =>
    dsimp only
    rw [if_pos (by decide), he]
    dsimp only
    rw [if_neg Bool.false_ne_true]

/-- What is read of a number without a base mark. -/
theorem unsigned?_plain {cs : List Char} (h : Numeral cs) {d : Digits} (hd : scanDigits false false {} cs = d)
    (counted : d.count ≠ 0) {e : Int} (ht : Tail d.rest e) : unsigned? cs = ofDecimal? d.value (e - d.fraction) := by
  rw [unsigned?_eq, baseMark_numeral h]
  dsimp only
  rw [hd, ofDigits?_tail counted ht]

/-- The text starts with a digit and is read as a decimal of the value. -/
structure ReadsAs (cs : List Char) (v : ℚ) : Prop where
  head : ∃ c rest, cs = c :: rest ∧ c.isDigit = true
  numeral : Numeral cs
  value : ∃ digits e, unsigned? cs = ofDecimal? digits e ∧ (digits : ℚ) * 10 ^ e = v

theorem head_digit {ds : List Char} (h : AllDigits ds) (first : ds ≠ []) (rest : List Char) :
    ∃ c cs, ds ++ rest = c :: cs ∧ c.isDigit = true := by
  obtain ⟨c, cs, rfl⟩ := List.exists_cons_of_ne_nil first
  exact ⟨c, cs ++ rest, rfl, h c List.mem_cons_self⟩

section Reads
variable {ds es tail : List Char} {e : Int}

theorem readsAs_whole (hd : AllDigits ds) (first : ds ≠ []) (ht : Tail tail e) :
    ReadsAs (ds ++ tail) (Nat.ofDigitChars 10 ds 0 * 10 ^ e) := by
  have numeral : Numeral (ds ++ tail) := hd.numeral.append ht.numeral
  have scan : scanDigits false false {} (ds ++ tail) = { ({} : Digits).after false ds with rest := tail } := by
    rw [scanDigits_digits hd, ht.scan]
  refine ⟨head_digit hd first _, numeral, _, _, unsigned?_plain numeral scan ?_ ht, ?_⟩
  · simp [Digits.after, first]
  · simp [Digits.after]

/-- Digits before a point and after it. -/
theorem readsAs_fraction (hd : AllDigits ds) (he : AllDigits es) (first : ds ≠ []) (ht : Tail tail e) :
    ReadsAs (ds ++ '.' :: (es ++ tail)) (Nat.ofDigitChars 10 (ds ++ es) 0 * 10 ^ (e - es.length)) := by
  have numeral : Numeral (ds ++ '.' :: (es ++ tail)) := hd.numeral.append ((he.numeral.append ht.numeral).cons (by decide))
  have scan : scanDigits false false {} (ds ++ '.' :: (es ++ tail)) =
      { (({} : Digits).after false ds).after true es with rest := tail } := by
    rw [scanDigits_digits hd, scanDigits_point, scanDigits_digits he, ht.scan]
  refine ⟨head_digit hd first _, numeral, _, _, unsigned?_plain numeral scan ?_ ht, ?_⟩
  · simp [Digits.after, first]
  · simp [Digits.after, Nat.ofDigitChars_append]

end Reads

/-! ### Decimals -/

theorem ofDigitChars_leading (n : Nat) (ds : List Char) :
    Nat.ofDigitChars 10 (List.replicate n '0' ++ ds) 0 = Nat.ofDigitChars 10 ds 0 := by
  rw [Nat.ofDigitChars_append, ofDigitChars_zeros, Nat.zero_mul]

/-- A decimal written positionally. -/
theorem readsAs_positional (d : Decimal) :
    ReadsAs (positional (Nat.toDigits 10 d.digits) ((Nat.toDigits 10 d.digits).length + d.exponent)).toList d.value := by
  have digits := allDigits_toDigits d.digits
  have value : Nat.ofDigitChars 10 (Nat.toDigits 10 d.digits) 0 = d.digits := Nat.ofDigitChars_ten_toDigits
  have some_digit : Nat.toDigits 10 d.digits ≠ [] := List.ne_nil_of_length_pos Nat.length_toDigits_pos
  generalize Nat.toDigits 10 d.digits = ds at *
  unfold positional
  split
  · generalize hz : List.replicate ((ds.length : Int) + d.exponent).natAbs '0' = zeros
    have zero : AllDigits zeros := hz ▸ allDigits_zeros _
    have text : ("0." ++ String.ofList (zeros ++ ds)).toList = ['0'] ++ '.' :: (zeros ++ ds ++ []) := by simp
    have same : d.value = Nat.ofDigitChars 10 (['0'] ++ (zeros ++ ds)) 0 * 10 ^ (0 - ((zeros ++ ds).length : Int)) := by
      have place : d.exponent = 0 - ((zeros ++ ds).length : Int) := by
        rw [← hz, List.length_append, List.length_replicate]
        omega
      rw [Decimal.value, ← place, ← value, ← hz, ← List.append_assoc, ← List.replicate_one, ← List.replicate_add,
        ofDigitChars_leading]
    rw [text, same]
    exact readsAs_fraction (allDigits_zeros 1) (zero.append digits) (by decide) .none
  · dsimp only
    generalize hk : ((ds.length : Int) + d.exponent).natAbs = k
    split
    · rename_i none
      -- All digits stand before the point.
      have short : ds.length ≤ k := List.drop_eq_nil_iff.1 none
      have text : (String.ofList (ds.take k ++ List.replicate (k - ds.length) '0')).toList =
          ds ++ List.replicate (k - ds.length) '0' ++ [] := by
        simp [List.take_of_length_le short]
      have same : d.value = (Nat.ofDigitChars 10 (ds ++ List.replicate (k - ds.length) '0') 0 : Nat) * 10 ^ (0 : Int) := by
        have place : d.exponent = ((k - ds.length : Nat) : Int) := by omega
        rw [Decimal.value, place, zpow_natCast, Nat.ofDigitChars_append, ofDigitChars_zeros, value, zpow_zero, mul_one]
        push_cast
        rfl
      rw [text, same]
      exact readsAs_whole (digits.append (allDigits_zeros _)) (by simp [some_digit]) .none
    · rename_i some_fraction
      have long : k < ds.length := by
        by_contra short
        exact some_fraction (List.drop_eq_nil_of_le (by omega))
      have text : (String.ofList (ds.take k ++ List.replicate (k - ds.length) '0') ++ "." ++ String.ofList (ds.drop k)).toList =
          ds.take k ++ '.' :: (ds.drop k ++ []) := by
        rw [Nat.sub_eq_zero_of_le long.le]
        simp
      have same : d.value = Nat.ofDigitChars 10 (ds.take k ++ ds.drop k) 0 * 10 ^ (0 - ((ds.drop k).length : Int)) := by
        have place : d.exponent = 0 - ((ds.drop k).length : Int) := by
          rw [List.length_drop]
          omega
        rw [Decimal.value, place, List.take_append_drop, value]
      have positive : k ≠ 0 := by omega
      rw [text, same]
      exact readsAs_fraction (fun c hc => digits c (List.mem_of_mem_take hc)) (fun c hc => digits c (List.mem_of_mem_drop hc))
        (by simp [positive, some_digit]) .none

/-- The sign and the digits of an exponent, after a zero if there is only one. -/
def exponentChars (e : Int) : List Char :=
  (if e < 0 then '-' else '+') ::
    if (Nat.toDigits 10 e.natAbs).length < 2 then '0' :: Nat.toDigits 10 e.natAbs else Nat.toDigits 10 e.natAbs

theorem tail_exponentChars {e : Int} (small : e.natAbs < 100000) : Tail ('e' :: exponentChars e) e := by
  have digits := allDigits_toDigits e.natAbs
  have value : Nat.ofDigitChars 10 (Nat.toDigits 10 e.natAbs) 0 = e.natAbs := Nat.ofDigitChars_ten_toDigits
  have first : Nat.toDigits 10 e.natAbs ≠ [] := List.ne_nil_of_length_pos Nat.length_toDigits_pos
  unfold exponentChars
  generalize Nat.toDigits 10 e.natAbs = ds at *
  have padded : ∃ ps, (if ds.length < 2 then '0' :: ds else ds) = ps ∧ AllDigits ps ∧ ps ≠ [] ∧ Nat.ofDigitChars 10 ps 0 = e.natAbs := by
    refine ⟨_, rfl, ?_⟩
    split
    · exact ⟨(allDigits_zeros 1).append digits, List.cons_ne_nil _ _, (ofDigitChars_leading 1 _).trans value⟩
    · exact ⟨digits, first, value⟩
  obtain ⟨ps, hp, digits, first, value⟩ := padded
  rw [hp]
  have read := exponent?_digits digits first (value ▸ small) (decide (e < 0))
  rw [value] at read
  refine .exponent (digits.numeral.cons (by split <;> decide)) ?_
  by_cases negative : e < 0
  · simp only [negative, decide_true, if_true] at read ⊢
    rw [read, show -1 * (e.natAbs : Int) = e by omega]
  · simp only [negative, decide_false, Bool.false_eq_true, if_false] at read ⊢
    rw [read, show 1 * (e.natAbs : Int) = e by omega]

theorem toList_scientific (c : Char) (cs : List Char) (e : Int) :
    (scientific (c :: cs) e).toList =
      if cs = [] then [c] ++ 'e' :: exponentChars e else [c] ++ '.' :: (cs ++ 'e' :: exponentChars e) := by
  unfold scientific exponentChars
  cases cs <;> split_ifs <;> simp_all

/-- A decimal written with an exponent of at most five digits. -/
theorem readsAs_scientific (d : Decimal) (small : ((Nat.toDigits 10 d.digits).length + d.exponent - 1).natAbs < 100000) :
    ReadsAs (scientific (Nat.toDigits 10 d.digits) ((Nat.toDigits 10 d.digits).length + d.exponent - 1)).toList d.value := by
  have digits := allDigits_toDigits d.digits
  have value : Nat.ofDigitChars 10 (Nat.toDigits 10 d.digits) 0 = d.digits := Nat.ofDigitChars_ten_toDigits
  have some_digit : Nat.toDigits 10 d.digits ≠ [] := List.ne_nil_of_length_pos Nat.length_toDigits_pos
  generalize Nat.toDigits 10 d.digits = ds at *
  obtain ⟨c, cs, rfl⟩ := List.exists_cons_of_ne_nil some_digit
  obtain ⟨first, others⟩ := List.forall_mem_cons.1 digits
  have place : d.exponent = (((c :: cs).length : Int) + d.exponent - 1) - cs.length := by
    rw [List.length_cons]
    omega
  have same : d.value = Nat.ofDigitChars 10 ([c] ++ cs) 0 * 10 ^ ((((c :: cs).length : Int) + d.exponent - 1) - cs.length) := by
    rw [Decimal.value, ← place, List.singleton_append, value]
  have tail := tail_exponentChars small
  rw [toList_scientific, same]
  split
  · rename_i none
    subst none
    have read := readsAs_whole (List.forall_mem_singleton.2 first) (List.cons_ne_nil c []) tail
    rwa [List.length_nil, Nat.cast_zero, sub_zero, List.append_nil]
  · exact readsAs_fraction (List.forall_mem_singleton.2 first) others (List.cons_ne_nil c []) tail

/-- The text of a decimal is read as a decimal of its value, unless its exponent is far out of range. -/
theorem readsAs_write {d : Decimal} (small : ((Nat.toDigits 10 d.digits).length + d.exponent - 1).natAbs < 100000) :
    ReadsAs d.write.toList d.value := by
  unfold Decimal.write
  dsimp only
  split
  · exact readsAs_scientific d small
  · rw [sub_add_cancel]
    exact readsAs_positional d

/-! ### Numbers -/

variable {negative : Bool} {m : Nat} {q : Int}

/-- The exponent of the shortest decimal is written with few digits. -/
theorem shortest_place (h : InRange (.finite negative m q)) :
    ((Nat.toDigits 10 (shortest m q).digits).length + (shortest m q).exponent - 1).natAbs < 100000 := by
  obtain ⟨least, greatest⟩ := shortest_exponent h
  have count : 1 ≤ (Nat.toDigits 10 (shortest m q).digits).length := Nat.length_toDigits_pos
  have value := shortest_lt_overflow h
  generalize shortest m q = d at *
  by_cases zero : d.digits = 0
  · rw [zero]
    simp
    omega
  · -- The first digit stands below the place of the bound.
    have reach : (10 : ℚ) ^ ((((Nat.toDigits 10 d.digits).length - 1 : Nat) : ℤ) + d.exponent) < 10 ^ (310 : ℤ) :=
      calc (10 : ℚ) ^ ((((Nat.toDigits 10 d.digits).length - 1 : Nat) : ℤ) + d.exponent)
          = (10 ^ ((Nat.toDigits 10 d.digits).length - 1) : Nat) * 10 ^ d.exponent := by
            rw [zpow_add₀ (by norm_num), zpow_natCast]
            push_cast
            rfl
        _ ≤ d.digits * 10 ^ d.exponent := by
            gcongr
            exact le_of_length_toDigits zero
        _ < overflow := value
        _ < 10 ^ (310 : ℤ) := Binary64.overflow_lt.trans_le two_pow_le_ten_pow
    have := (zpow_lt_zpow_iff_right₀ (by norm_num)).1 reach
    omega

theorem splitSign_digit {c : Char} (h : c.isDigit = true) (rest : List Char) : splitSign (c :: rest) = (false, c :: rest) := by
  have plain : c ≠ '-' ∧ c ≠ '+' := by
    constructor <;> rintro rfl <;> cases h
  unfold splitSign
  split
  · exact absurd (List.cons.inj ‹_›).1 plain.1
  · exact absurd (List.cons.inj ‹_›).1 plain.2
  · rfl

/-- A numeral with or without a minus sign is no word. -/
theorem read?_numeral {cs : List Char} {v : ℚ} (h : ReadsAs cs v) (negative : Bool) {s : String}
    (hs : s.toList = if negative then '-' :: cs else cs) :
    read? s = (unsigned? cs).map fun (m, e) => .finite negative m e := by
  obtain ⟨⟨c, rest, rfl, digit⟩, numeral, -⟩ := h
  have word : ∀ {x : Char} {xs : List Char}, low x ≠ 'i' ∧ low x ≠ 'n' → ∀ {text : String},
      text = "inf" ∨ text = "infinity" ∨ text = "nan" → String.ofList ((x :: xs).map low) ≠ text := by
    rintro x xs ⟨noI, noN⟩ text ht hx
    have start := congrArg String.toList hx
    rw [String.toList_ofList, List.map_cons] at start
    rcases ht with rfl | rfl | rfl
    · exact noI (List.cons.inj start).1
    · exact noI (List.cons.inj start).1
    · exact noN (List.cons.inj start).1
  obtain ⟨-, noI, noN, -⟩ := numeralChars_spec (numeral c List.mem_cons_self)
  have signed : Numeral s.toList := by
    rw [hs]
    cases negative with
    | true => exact numeral.cons (by decide)
    | false => exact numeral
  have parted : s.toList.contains '_' = false := by
    rw [← Bool.not_eq_true, List.contains_iff_mem]
    exact fun hm => (numeralChars_spec (signed '_' hm)).2.2.2.1 rfl
  have split : splitSign s.toList = (negative, c :: rest) := by
    rw [hs]
    cases negative with
    | true => rfl
    | false => exact splitSign_digit digit rest
  have noNan : String.ofList (s.toList.map low) ≠ "nan" := by
    rw [hs]
    cases negative with
    | true => exact word (by decide) (.inr (.inr rfl))
    | false => exact word ⟨noI, noN⟩ (.inr (.inr rfl))
  unfold read?
  dsimp only
  rw [split, parted]
  dsimp only
  rw [if_neg, if_neg noNan, Bool.false_and, if_neg Bool.false_ne_true]
  simp only [Bool.or_eq_true, decide_eq_true_eq, not_or]
  exact ⟨word ⟨noI, noN⟩ (.inl rfl), word ⟨noI, noN⟩ (.inr (.inl rfl))⟩

theorem trim_numeral {s : String} (h : Numeral s.toList) : Text.trim s = s := by
  have kept : ∀ {cs : List Char}, Numeral cs → cs.dropWhile Text.isBlank = cs := by
    intro cs hcs
    rw [List.dropWhile_eq_self_iff]
    intro some_char
    rw [(numeralChars_spec (hcs _ (List.getElem_mem _))).2.2.2.2]
    exact Bool.false_ne_true
  have back : Numeral s.toList.reverse := fun c hc => h c (List.mem_reverse.1 hc)
  rw [Text.trim, kept h, kept back, List.reverse_reverse, String.ofList_toList]

/-- What is written for a number in range can be read, as a finite number. -/
theorem read?_write (h : InRange (.finite negative m q)) :
    Numeral (write (.finite negative m q)).toList ∧
      ∃ negative' m' q', read? (write (.finite negative m q)) = some (.finite negative' m' q') := by
  by_cases zero : m = 0
  · have text : write (.finite negative m q) = "0" := by rw [write, if_pos zero]
    rw [text]
    exact ⟨List.forall_mem_singleton.2 (by decide), false, 0, Binary64.minExponent, rfl⟩
  · have reads := readsAs_write (shortest_place h)
    obtain ⟨digits, e, read, same⟩ := reads.value
    obtain ⟨m', q', found⟩ := exists_ofDecimal? (same ▸ shortest_lt_overflow h)
    have text : (write (.finite negative m q)).toList =
        if negative then '-' :: (shortest m q).write.toList else (shortest m q).write.toList := by
      rw [write, if_neg zero, String.toList_append]
      cases negative <;> rfl
    refine ⟨?_, negative, m', q', ?_⟩
    · rw [text]
      cases negative with
      | true => exact reads.numeral.cons (by decide)
      | false => exact reads.numeral
    · rw [read?_numeral reads negative text, read, found]
      rfl

end TypeCalculus.Number

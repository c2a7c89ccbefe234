import TypeCalculus.Proofs.Hash.Framing
import TypeCalculus.Settings.Duration

/-! Numbers written on lines. Hexadecimal texts and decimal texts tell their numbers, and none of them holds the
    zero character that ends a line, so a stream of lines tells the lines. -/

namespace TypeCalculus

/-! ### Hexadecimal texts -/

theorem digitChar_inj {m n : Nat} (hm : m < 16) (hn : n < 16) (h : m.digitChar = n.digitChar) : m = n := by
  have all : ∀ m < 16, ∀ n < 16, m.digitChar = n.digitChar → m = n := by decide
  exact all m hm n hn h

theorem toDigits_inj {m n : Nat} (h : Nat.toDigits 16 m = Nat.toDigits 16 n) : m = n := by
  induction m using Nat.strongRecOn generalizing n with
  | ind m ih =>
    rw [Nat.toDigits_eq_if (by decide), Nat.toDigits_eq_if (n := n) (by decide)] at h
    split at h
    · rename_i hm
      split at h
      · rename_i hn
        exact digitChar_inj hm hn (List.singleton_inj.1 h)
      · -- The second number has a digit before its last, the first has not.
        have := congrArg List.length h
        simp at this
    · rename_i hm
      split at h
      · have := congrArg List.length h
        simp at this
      · obtain ⟨hq, hr⟩ := List.append_inj' h rfl
        have quotient := ih (m / 16) (by omega) hq
        have remainder := digitChar_inj (Nat.mod_lt _ (by decide)) (Nat.mod_lt _ (by decide)) (List.singleton_inj.1 hr)
        omega

theorem hexText_inj {v w : UInt64} (h : hexText v = hexText w) : v = w :=
  UInt64.toNat_inj.1 (toDigits_inj (String.ofList_injective h))

/-- The characters of a hexadecimal text are digits. -/
theorem not_mem_hexText {c : Char} (hc : ∀ d < 16, Nat.digitChar d ≠ c) (w : UInt64) : c ∉ (hexText w).toList := by
  have digits : ∀ n, c ∉ Nat.toDigits 16 n := by
    intro n
    induction n using Nat.strongRecOn with
    | ind n ih =>
      rw [Nat.toDigits_eq_if (by decide)]
      split
      · rename_i hn
        simpa using (hc n hn).symm
      · simp only [List.mem_append, List.mem_singleton, not_or]
        exact ⟨ih (n / 16) (by omega), (hc _ (Nat.mod_lt _ (by decide))).symm⟩
  rw [hexText, String.toList_ofList]
  exact digits _

theorem nulFree_hexText (w : UInt64) : NulFree (hexText w) :=
  not_mem_hexText (c := '\x00') (by decide) w

theorem hexText_ne_empty (w : UInt64) : hexText w ≠ "" := by
  intro h
  have := congrArg String.toList h
  rw [hexText, String.toList_ofList] at this
  exact Nat.toDigits_ne_nil this

/-- Two hexadecimal texts around a dot are told apart. -/
theorem dotted_inj {a b v w : UInt64} (h : hexText a ++ "." ++ hexText v = hexText b ++ "." ++ hexText w) :
    a = b ∧ v = w := by
  have chars := congrArg String.toList h
  simp only [String.toList_append, List.append_assoc] at chars
  obtain ⟨ha, hv⟩ := separator_cancel (not_mem_hexText (by decide) a) (not_mem_hexText (by decide) b) chars
  exact ⟨hexText_inj (String.toList_inj.1 ha), hexText_inj (String.toList_inj.1 hv)⟩

/-! ### Decimal texts -/

theorem nulFree_ofDigits {cs : List Char} (h : ∀ c ∈ cs, c.isDigit = true) : NulFree (String.ofList cs) := by
  rw [NulFree, String.toList_ofList]
  intro hm
  exact absurd (h _ hm) (by decide)

theorem nulFree_nat (n : Nat) : NulFree (toString n) := by
  rw [Nat.toString_eq_ofList_toDigits]
  exact nulFree_ofDigits fun c hc => Nat.isDigit_of_mem_toDigits (by decide) (by decide) hc

theorem nat_toString_inj {m n : Nat} (h : toString m = toString n) : m = n := by
  rw [Nat.toString_eq_ofList_toDigits, Nat.toString_eq_ofList_toDigits] at h
  rw [← Nat.ofDigitChars_ten_toDigits (n := m), String.ofList_injective h, Nat.ofDigitChars_ten_toDigits]

theorem int_toString_negSucc (n : Nat) : toString (Int.negSucc n) = "-" ++ toString (n + 1) := rfl

theorem nulFree_int (n : Int) : NulFree (toString n) := by
  cases n with
  | ofNat n => exact nulFree_nat n
  | negSucc n => exact NulFree.append (by decide) (nulFree_nat (n + 1))

/-- A text of digits does not begin with a sign. -/
theorem nat_ne_signed (m n : Nat) : toString m ≠ "-" ++ toString n := by
  intro h
  have chars := congrArg String.toList h
  rw [Nat.toString_eq_ofList_toDigits, String.toList_ofList, String.toList_append] at chars
  have sign : '-' ∈ Nat.toDigits 10 m := chars ▸ List.mem_append_left _ (by decide)
  exact absurd (Nat.isDigit_of_mem_toDigits (by decide) (by decide) sign) (by decide)

theorem int_toString_inj {m n : Int} (h : toString m = toString n) : m = n := by
  cases m with
  | ofNat m =>
    cases n with
    | ofNat n => exact congrArg Int.ofNat (nat_toString_inj h)
    | negSucc n => exact absurd h (nat_ne_signed m (n + 1))
  | negSucc m =>
    cases n with
    | ofNat n => exact absurd h.symm (nat_ne_signed n (m + 1))
    | negSucc n =>
      have chars := congrArg String.toList h
      rw [int_toString_negSucc, int_toString_negSucc, String.toList_append, String.toList_append] at chars
      have := nat_toString_inj (String.toList_inj.1 (List.append_cancel_left chars))
      rw [Nat.succ.inj this]

theorem nulFree_decimal (n places : Nat) : NulFree (Duration.decimal n places) := by
  unfold Duration.decimal
  dsimp only
  refine NulFree.append (nulFree_nat _) ?_
  split
  · decide
  · refine NulFree.append (by decide) (nulFree_ofDigits fun c hc => ?_)
    have padded := List.mem_reverse.1 ((List.dropWhile_sublist _).subset (List.mem_reverse.1 hc))
    rcases List.mem_append.1 padded with hz | hd
    · rw [List.eq_of_mem_replicate hz]
      decide
    · exact Nat.isDigit_of_mem_toDigits (by decide) (by decide) hd

theorem nulFree_duration (d : Duration) : NulFree d.print := by
  have size : ∀ n, NulFree (Duration.printSize n) := by
    intro n
    unfold Duration.printSize
    dsimp only
    split
    · decide
    split
    · exact (nulFree_nat n).append (by decide)
    split
    · exact (nulFree_decimal n 3).append (by decide)
    split
    · exact (nulFree_decimal n 6).append (by decide)
    have seconds := (nulFree_decimal (n % 60000000000) 9).append (show NulFree "s" by decide)
    split
    · exact seconds
    split
    · exact ((nulFree_nat _).append (by decide)).append seconds
    · exact ((((nulFree_nat _).append (by decide)).append (nulFree_nat _)).append (by decide)).append seconds
  unfold Duration.print
  refine NulFree.append ?_ (size _)
  split <;> decide

/-! ### Lists of lines -/

/-- A stream of lines tells its lines. -/
theorem lines_inj {xs ys : List String} (hx : ∀ s ∈ xs, NulFree s) (hy : ∀ s ∈ ys, NulFree s)
    (h : xs.flatMap lineBytes = ys.flatMap lineBytes) : xs = ys := by
  induction xs generalizing ys with
  | nil =>
    cases ys with
    | nil => rfl
    | cons y ys => simp [lineBytes] at h
  | cons x xs ih =>
    cases ys with
    | nil => simp [lineBytes] at h
    | cons y ys =>
      obtain ⟨rfl, hr⟩ := line_cancel (hx x List.mem_cons_self) (hy y List.mem_cons_self) h
      rw [ih (fun s hs => hx s (List.mem_cons_of_mem _ hs)) (fun s hs => hy s (List.mem_cons_of_mem _ hs)) hr]

end TypeCalculus

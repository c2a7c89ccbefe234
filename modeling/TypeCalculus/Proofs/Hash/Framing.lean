import TypeCalculus.Hash64

/-! How values stand in byte streams. A word takes eight bytes, a text is led by its length and a line is ended
    by a zero byte, so each can be read off the start of a stream: words always, texts if their lengths fit into
    a word, lines if they hold no zero character. -/

namespace TypeCalculus

def utf8 (s : String) : List UInt8 := s.toByteArray.data.toList

theorem utf8_inj {s t : String} (h : utf8 s = utf8 t) : s = t := by
  refine String.toByteArray_inj.1 (ByteArray.ext ?_)
  exact Array.toList_inj.1 h

/-! ### Words -/

/-- The `n` low bytes of a word, least significant first. -/
def lowBytes (w : UInt64) : (n : Nat) → List UInt8
  | 0 => []
  | n + 1 => w.toUInt8 :: lowBytes (w >>> 8) n

theorem length_lowBytes (w : UInt64) (n : Nat) : (lowBytes w n).length = n := by
  induction n generalizing w with
  | zero => rfl
  | succ n ih => simp only [lowBytes, List.length_cons, ih]

/-- The low bytes of a word tell all of it once shifting them out leaves nothing. -/
theorem lowBytes_inj {v w : UInt64} {n : Nat} (hv : v.toNat >>> (8 * n) = 0) (hw : w.toNat >>> (8 * n) = 0)
    (h : lowBytes v n = lowBytes w n) : v = w := by
  induction n generalizing v w with
  | zero => exact UInt64.toNat_inj.1 (hv.trans hw.symm)
  | succ n ih =>
    obtain ⟨hb, hr⟩ := List.cons.inj h
    have low : v.toNat % 256 = w.toNat % 256 := by
      have := congrArg UInt8.toNat hb
      simpa using this
    have eight : ∀ u : UInt64, (u >>> 8).toNat = u.toNat >>> 8 := fun u => UInt64.toNat_shiftRight u 8
    have shifted : ∀ u : UInt64, u.toNat >>> (8 * (n + 1)) = 0 → (u >>> 8).toNat >>> (8 * n) = 0 := by
      intro u hu
      rw [eight, ← Nat.shiftRight_add, Nat.add_comm]
      exact hu
    have high := congrArg UInt64.toNat (ih (shifted v hv) (shifted w hw) hr)
    rw [eight, eight, Nat.shiftRight_eq_div_pow, Nat.shiftRight_eq_div_pow] at high
    refine UInt64.toNat_inj.1 ?_
    omega

def wordBytes (w : UInt64) : List UInt8 := lowBytes w 8

theorem wordBytes_inj {v w : UInt64} (h : wordBytes v = wordBytes w) : v = w := by
  have fits : ∀ u : UInt64, u.toNat >>> (8 * 8) = 0 := by
    intro u
    rw [Nat.shiftRight_eq_div_pow]
    exact Nat.div_eq_of_lt u.toNat_lt
  exact lowBytes_inj (fits v) (fits w) h

theorem word_cancel {v w : UInt64} {x y : List UInt8} (h : wordBytes v ++ x = wordBytes w ++ y) : v = w ∧ x = y := by
  obtain ⟨hw, hr⟩ := List.append_inj h ((length_lowBytes v 8).trans (length_lowBytes w 8).symm)
  exact ⟨wordBytes_inj hw, hr⟩

theorem nat_cancel {m n : Nat} {x y : List UInt8} (hm : m < UInt64.size) (hn : n < UInt64.size)
    (h : wordBytes m.toUInt64 ++ x = wordBytes n.toUInt64 ++ y) : m = n ∧ x = y := by
  obtain ⟨hw, hr⟩ := word_cancel h
  have := congrArg UInt64.toNat hw
  simp only [Nat.toUInt64_eq, UInt64.toNat_ofNat'] at this
  rw [Nat.mod_eq_of_lt hm, Nat.mod_eq_of_lt hn] at this
  exact ⟨this, hr⟩

theorem bool_cancel {a b : Bool} {x y : List UInt8}
    (h : wordBytes (if a then 1 else 0) ++ x = wordBytes (if b then 1 else 0) ++ y) : a = b ∧ x = y := by
  obtain ⟨hw, hr⟩ := word_cancel h
  refine ⟨?_, hr⟩
  cases a <;> cases b <;> first | rfl | cases hw

/-! ### Texts and lines -/

def textBytes (s : String) : List UInt8 := wordBytes s.utf8ByteSize.toUInt64 ++ utf8 s

theorem text_cancel {s t : String} {x y : List UInt8} (hs : s.utf8ByteSize < UInt64.size) (ht : t.utf8ByteSize < UInt64.size)
    (h : textBytes s ++ x = textBytes t ++ y) : s = t ∧ x = y := by
  simp only [textBytes, List.append_assoc] at h
  obtain ⟨hl, hr⟩ := nat_cancel hs ht h
  obtain ⟨hu, hr⟩ := List.append_inj hr hl
  exact ⟨utf8_inj hu, hr⟩

/-- The text holds no zero character, so it can be told from the end of its line. -/
def NulFree (s : String) : Prop := '\x00' ∉ s.toList

instance (s : String) : Decidable (NulFree s) := inferInstanceAs (Decidable ('\x00' ∉ s.toList))

/-- Only the zero character is written with a zero byte. -/
theorem eq_nul_of_encoded {c : Char} (h : 0 ∈ String.utf8EncodeChar c) : c = '\x00' := by
  have byte : ∀ n : Nat, n < 256 → (0 : UInt8) = UInt8.ofNat n → n = 0 := by
    intro n hn h
    have := congrArg UInt8.toNat h
    simp only [UInt8.toNat_ofNat', UInt8.reduceToNat] at this
    omega
  have small : c.val.toNat = 0 := by
    unfold String.utf8EncodeChar at h
    dsimp only at h
    split at h
    · exact byte _ (by omega) (List.mem_singleton.1 h)
    · -- The bytes of the longer forms have their highest bit set.
      split at h
      · simp only [List.mem_cons, List.not_mem_nil, or_false] at h
        rcases h with h | h <;> have := byte _ (by omega) h <;> omega
      · split at h
        · simp only [List.mem_cons, List.not_mem_nil, or_false] at h
          rcases h with h | h | h <;> have := byte _ (by omega) h <;> omega
        · simp only [List.mem_cons, List.not_mem_nil, or_false] at h
          rcases h with h | h | h | h <;> have := byte _ (by omega) h <;> omega
  exact Char.ext (UInt32.toNat_inj.1 small)

theorem NulFree.zero_not_mem {s : String} (h : NulFree s) : 0 ∉ utf8 s := by
  intro hz
  have bytes : utf8 s = s.toList.flatMap String.utf8EncodeChar := by
    rw [utf8, ← String.utf8Encode_toList, List.utf8Encode]
    simp
  rw [bytes] at hz
  obtain ⟨c, hc, hz⟩ := List.mem_flatMap.1 hz
  exact h (eq_nul_of_encoded hz ▸ hc)

theorem NulFree.append {s t : String} (hs : NulFree s) (ht : NulFree t) : NulFree (s ++ t) := by
  unfold NulFree
  rw [String.toList_append, List.mem_append]
  rintro (h | h)
  · exact hs h
  · exact ht h

/-- What stands before the first separator is read off the start of a list. -/
theorem separator_cancel {α : Type} {z : α} {a b x y : List α} (ha : z ∉ a) (hb : z ∉ b)
    (h : a ++ z :: x = b ++ z :: y) : a = b ∧ x = y := by
  induction a generalizing b with
  | nil =>
    cases b with
    | nil => exact ⟨rfl, (List.cons.inj h).2⟩
    | cons c b => exact absurd ((List.cons.inj h).1 ▸ List.mem_cons_self) hb
  | cons c a ih =>
    cases b with
    | nil => exact absurd ((List.cons.inj h).1.symm ▸ List.mem_cons_self) ha
    | cons d b =>
      obtain ⟨rfl, hr⟩ := List.cons.inj h
      obtain ⟨rfl, hx⟩ := ih (fun hm => ha (List.mem_cons_of_mem _ hm)) (fun hm => hb (List.mem_cons_of_mem _ hm)) hr
      exact ⟨rfl, hx⟩

def lineBytes (s : String) : List UInt8 := utf8 s ++ [0]

theorem line_cancel {s t : String} {x y : List UInt8} (hs : NulFree s) (ht : NulFree t)
    (h : lineBytes s ++ x = lineBytes t ++ y) : s = t ∧ x = y := by
  simp only [lineBytes, List.append_assoc, List.singleton_append] at h
  obtain ⟨hu, hr⟩ := separator_cancel hs.zero_not_mem ht.zero_not_mem h
  exact ⟨utf8_inj hu, hr⟩

/-- Items of a list are read off the start of a stream one by one, if each item is. -/
theorem flatMap_cancel {α : Type} {f : α → List UInt8} {xs ys : List α} {x y : List UInt8}
    (item : ∀ a ∈ xs, ∀ b ∈ ys, ∀ {x y}, f a ++ x = f b ++ y → a = b ∧ x = y) (hl : xs.length = ys.length)
    (h : xs.flatMap f ++ x = ys.flatMap f ++ y) : xs = ys ∧ x = y := by
  induction xs generalizing ys with
  | nil =>
    cases ys with
    | nil => exact ⟨rfl, h⟩
    | cons b ys => cases hl
  | cons a xs ih =>
    cases ys with
    | nil => cases hl
    | cons b ys =>
      simp only [List.flatMap_cons, List.append_assoc] at h
      obtain ⟨rfl, hr⟩ := item a List.mem_cons_self b List.mem_cons_self h
      obtain ⟨rfl, hx⟩ := ih (fun c hc d hd => item c (List.mem_cons_of_mem _ hc) d (List.mem_cons_of_mem _ hd))
        (Nat.succ.inj hl) hr
      exact ⟨rfl, hx⟩

/-! ### Streams -/

namespace Bytes

def toList (s : Bytes) : List UInt8 := s.data.data.toList

@[simp]
theorem toList_empty : toList {} = [] := rfl

theorem toList_lowBytes (s : Bytes) (w : UInt64) (n : Nat) :
    (s.lowBytes w n).toList = s.toList ++ TypeCalculus.lowBytes w n := by
  induction n generalizing s w with
  | zero => simp [lowBytes, TypeCalculus.lowBytes]
  | succ n ih =>
    rw [lowBytes, ih, TypeCalculus.lowBytes]
    simp [toList]

@[simp]
theorem toList_word (s : Bytes) (w : UInt64) : (s.word w).toList = s.toList ++ wordBytes w := toList_lowBytes s w 8

@[simp]
theorem toList_nat (s : Bytes) (n : Nat) : (s.nat n).toList = s.toList ++ wordBytes n.toUInt64 := toList_word s _

@[simp]
theorem toList_int (s : Bytes) (n : Int) : (s.int n).toList = s.toList ++ wordBytes (UInt64.ofInt n) := toList_word s _

@[simp]
theorem toList_bool (s : Bytes) (b : Bool) : (s.bool b).toList = s.toList ++ wordBytes (if b then 1 else 0) :=
  toList_word s _

@[simp]
theorem toList_text (s : Bytes) (t : String) : (s.text t).toList = s.toList ++ textBytes t := by
  have := toList_nat s t.utf8ByteSize
  simp only [toList] at this
  simp only [text, toList, String.toUTF8_eq_toByteArray, ByteArray.toList_data_append, this, textBytes, utf8,
    List.append_assoc]

@[simp]
theorem toList_line (s : Bytes) (t : String) : (s.line t).toList = s.toList ++ lineBytes t := by
  simp only [line, toList, String.toUTF8_eq_toByteArray, ByteArray.data_push, Array.toList_push,
    ByteArray.toList_data_append, lineBytes, utf8, List.append_assoc]

end Bytes

end TypeCalculus

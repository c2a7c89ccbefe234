/-! A 64-bit hash of byte streams. The stream is folded in stripes of 32 bytes over four lanes, what is
    left in words of eight, four and one byte, and the sum is mixed at the end. The module also holds
    the framing that hashed values use: words are eight bytes, least significant first, and a text is
    its length followed by its bytes. -/

namespace TypeCalculus

namespace Hash64

def prime1 : UInt64 := 0x9E3779B185EBCA87
def prime2 : UInt64 := 0xC2B2AE3D27D4EB4F
def prime3 : UInt64 := 0x165667B19E3779F9
def prime4 : UInt64 := 0x85EBCA77C2B2AE63
def prime5 : UInt64 := 0x27D4EB2F165667C5

/-- Rotation to the left by less than 64 bits. -/
def rotateLeft (x : UInt64) (n : UInt64) : UInt64 :=
  (x <<< n) ||| (x >>> (64 - n))

/-- One word of input folded into a lane. -/
def lane (acc input : UInt64) : UInt64 :=
  rotateLeft (acc + input * prime2) 31 * prime1

def mergeLane (acc value : UInt64) : UInt64 :=
  (acc ^^^ lane 0 value) * prime1 + prime4

/-- The last mix, which spreads every bit of the sum over the word. -/
def avalanche (h : UInt64) : UInt64 :=
  let h := (h ^^^ (h >>> 33)) * prime2
  let h := (h ^^^ (h >>> 29)) * prime3
  h ^^^ (h >>> 32)

def byteAt (b : ByteArray) (i : Nat) : UInt64 :=
  if h : i < b.size then (b.get i h).toUInt64 else 0

/-- The word of `n` bytes at a position, least significant byte first. -/
def wordAt (b : ByteArray) (i : Nat) : (n : Nat) → UInt64
  | 0 => 0
  | n + 1 => byteAt b i ||| (wordAt b (i + 1) n <<< 8)

structure Lanes where
  one : UInt64
  two : UInt64
  three : UInt64
  four : UInt64

def Lanes.start : Lanes := ⟨prime1 + prime2, prime2, 0, 0 - prime1⟩

/-- Folds `n` stripes of 32 bytes from a position on. -/
def Lanes.stripes (b : ByteArray) (i : Nat) : (n : Nat) → Lanes → Lanes
  | 0, l => l
  | n + 1, l =>
    stripes b (i + 32) n
      ⟨lane l.one (wordAt b i 8), lane l.two (wordAt b (i + 8) 8),
       lane l.three (wordAt b (i + 16) 8), lane l.four (wordAt b (i + 24) 8)⟩

def Lanes.sum (l : Lanes) : UInt64 :=
  let h := rotateLeft l.one 1 + rotateLeft l.two 7 + rotateLeft l.three 12 + rotateLeft l.four 18
  mergeLane (mergeLane (mergeLane (mergeLane h l.one) l.two) l.three) l.four

/-- Folds `n` words of eight bytes from a position on. -/
def words (b : ByteArray) (i : Nat) : (n : Nat) → UInt64 → UInt64
  | 0, h => h
  | n + 1, h => words b (i + 8) n (rotateLeft (h ^^^ lane 0 (wordAt b i 8)) 27 * prime1 + prime4)

/-- Folds `n` single bytes from a position on. -/
def bytes (b : ByteArray) (i : Nat) : (n : Nat) → UInt64 → UInt64
  | 0, h => h
  | n + 1, h => bytes b (i + 1) n (rotateLeft (h ^^^ (byteAt b i * prime5)) 11 * prime1)

/-- The hash of a byte stream. -/
def ofBytes (b : ByteArray) : UInt64 :=
  let stripes := b.size / 32
  let h := if stripes = 0 then prime5 else (Lanes.start.stripes b 0 stripes).sum
  let h := h + b.size.toUInt64
  let i := stripes * 32
  let count := (b.size - i) / 8
  let h := words b i count h
  let i := i + count * 8
  let quad := b.size - i ≥ 4
  let h := if quad then
      rotateLeft (h ^^^ (wordAt b i 4 * prime1)) 23 * prime2 + prime3
    else h
  let i := if quad then i + 4 else i
  avalanche (bytes b i (b.size - i) h)

end Hash64

/-- A byte stream under construction. -/
structure Bytes where
  data : ByteArray := ByteArray.empty

namespace Bytes

/-- Appends the `n` low bytes of a word, least significant first. -/
def lowBytes (s : Bytes) (w : UInt64) : (n : Nat) → Bytes
  | 0 => s
  | n + 1 => lowBytes ⟨s.data.push w.toUInt8⟩ (w >>> 8) n

/-- Appends a word of eight bytes. -/
def word (s : Bytes) (w : UInt64) : Bytes := s.lowBytes w 8

def nat (s : Bytes) (n : Nat) : Bytes := s.word n.toUInt64

/-- Appends a number in two's complement. -/
def int (s : Bytes) (n : Int) : Bytes := s.word (UInt64.ofInt n)

def bool (s : Bytes) (b : Bool) : Bytes := s.word (if b then 1 else 0)

/-- Appends the length of a text in bytes and the bytes. -/
def text (s : Bytes) (t : String) : Bytes :=
  ⟨(s.nat t.utf8ByteSize).data ++ t.toUTF8⟩

/-- Appends the bytes of a text and a zero byte. -/
def line (s : Bytes) (t : String) : Bytes :=
  ⟨(s.data ++ t.toUTF8).push 0⟩

def hash (s : Bytes) : UInt64 := Hash64.ofBytes s.data

end Bytes

/-- Lower-case hexadecimal digits without leading zeros. -/
def hexText (w : UInt64) : String := String.ofList (Nat.toDigits 16 w.toNat)

end TypeCalculus

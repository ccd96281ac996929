import Mathlib.Algebra.BigOperators.Fin
import Mathlib.Tactic.Common

/-!
# Byte regions

A byte region is what a C buffer, a disk sector and a Python `bytearray` have
in common: bytes addressed by an offset. This file has the three readings of a
region the on-disk formats need, and the one fact each of them owes its users,
that a read after a write sees the write where it happened and the old bytes
everywhere else.

* `blit` is the byte copy.
* `word` and `putWords` are little-endian 32-bit words, written as a run of
  words because that is how a packed record is laid down. A value is stored
  modulo `2 ^ 32`, so the round trip is stated with the remainder and costs a
  side condition only where the value is used. Numbers of 64 bits are two of
  them.
* `testBit` and `setBit` are a bitmap, bit `i` in byte `i / 8`.
-/

namespace MiniOs.Lib

open Function

/-- Bytes addressed by offset. A buffer of `n` bytes is a region of which only
the offsets below `n` are ever looked at. -/
abbrev Region := Nat → UInt8

namespace Region

/-- The region `memset` to zero leaves. -/
def zero : Region := fun _ => 0

/-- Copy `len` bytes of `src` over `dst`, starting at offset `off`. -/
def blit (dst : Region) (off : Nat) (src : Region) (len : Nat) : Region :=
  fun i => if off ≤ i ∧ i < off + len then src (i - off) else dst i

variable {dst src r : Region} {off len i k off' v : Nat}

theorem blit_in (h1 : off ≤ i) (h2 : i < off + len) : blit dst off src len i = src (i - off) :=
  if_pos ⟨h1, h2⟩

theorem blit_out (h : i < off ∨ off + len ≤ i) : blit dst off src len i = dst i :=
  if_neg (by omega)

/-! ## Little-endian words -/

/-- Byte `k` of the little-endian spelling of `v`. -/
def wordByte (v k : Nat) : UInt8 := UInt8.ofNat (v / 256 ^ k)

/-- The 32-bit little-endian word at offset `off`. -/
def word (r : Region) (off : Nat) : Nat :=
  (r off).toNat + 256 * (r (off + 1)).toNat + 65536 * (r (off + 2)).toNat +
    16777216 * (r (off + 3)).toNat

/-- Lay the `n` words `w 0, w 1, …` down from offset `off` on. -/
def putWords (r : Region) (off n : Nat) (w : Nat → Nat) : Region :=
  fun i =>
    if off ≤ i ∧ i < off + 4 * n then wordByte (w ((i - off) / 4)) ((i - off) % 4)
    else r i

/-- One word at offset `off`. -/
def putWord (r : Region) (off v : Nat) : Region := putWords r off 1 fun _ => v

/-- The 16-bit and the 64-bit number at offset `off`. -/
def half (r : Region) (off : Nat) : Nat := (r off).toNat + 256 * (r (off + 1)).toNat
def dword (r : Region) (off : Nat) : Nat := word r off + 2 ^ 32 * word r (off + 4)

/-- A 64-bit number at offset `off`. -/
def putDword (r : Region) (off v : Nat) : Region :=
  putWords r off 2 fun k => v / 2 ^ (32 * k)

theorem word_lt (r : Region) (off : Nat) : word r off < 2 ^ 32 := by
  have h0 := (r off).toNat_lt
  have h1 := (r (off + 1)).toNat_lt
  have h2 := (r (off + 2)).toNat_lt
  have h3 := (r (off + 3)).toNat_lt
  unfold word
  omega

/-- Words only look at their own four bytes. -/
theorem word_congr {r r' : Region} {off : Nat}
    (h : ∀ i, off ≤ i → i < off + 4 → r i = r' i) : word r off = word r' off := by
  unfold word
  rw [h off (by omega) (by omega), h (off + 1) (by omega) (by omega),
    h (off + 2) (by omega) (by omega), h (off + 3) (by omega) (by omega)]

@[simp] theorem word_zero (off : Nat) : word zero off = 0 := rfl

theorem wordByte_word (r : Region) (off : Nat) (hk : k < 4) :
    wordByte (word r off) k = r (off + k) := by
  have h0 := (r off).toNat_lt
  have h1 := (r (off + 1)).toNat_lt
  have h2 := (r (off + 2)).toNat_lt
  have h3 := (r (off + 3)).toNat_lt
  apply UInt8.toNat_inj.mp
  unfold wordByte word
  rw [UInt8.toNat_ofNat']
  obtain rfl | rfl | rfl | rfl : k = 0 ∨ k = 1 ∨ k = 2 ∨ k = 3 := by omega
  all_goals
    simp only [Nat.reducePow, Nat.div_one, Nat.add_zero]
    omega

theorem word_putWords {r : Region} {off n k : Nat} {w : Nat → Nat} (hk : k < n) :
    word (putWords r off n w) (off + 4 * k) = w k % 2 ^ 32 := by
  have hbyte : ∀ j, j < 4 → putWords r off n w (off + 4 * k + j) = wordByte (w k) j := by
    intro j hj
    unfold putWords
    rw [if_pos (by omega), show (off + 4 * k + j - off) / 4 = k by omega,
      show (off + 4 * k + j - off) % 4 = j by omega]
  have h0 := hbyte 0 (by omega)
  rw [Nat.add_zero] at h0
  unfold word
  rw [h0, hbyte 1 (by omega), hbyte 2 (by omega), hbyte 3 (by omega)]
  simp only [wordByte, UInt8.toNat_ofNat', Nat.reducePow, Nat.div_one]
  omega

theorem word_putWords_ne {n : Nat} {w : Nat → Nat} (h : off' + 4 ≤ off ∨ off + 4 * n ≤ off') :
    word (putWords r off n w) off' = word r off' :=
  word_congr fun i h1 h2 => if_neg (by omega)

theorem word_putWord (r : Region) (off v : Nat) :
    word (putWord r off v) off = v % 2 ^ 32 :=
  word_putWords (k := 0) (by omega)

theorem word_putWord_ne (h : off' + 4 ≤ off ∨ off + 4 ≤ off') :
    word (putWord r off v) off' = word r off' :=
  word_putWords_ne (by omega)

theorem dword_putDword (r : Region) (off v : Nat) :
    dword (putDword r off v) off = v % 2 ^ 64 := by
  have hlow := @word_putWords r off 2 0 (fun k => v / 2 ^ (32 * k)) (by omega)
  have hhigh := @word_putWords r off 2 1 (fun k => v / 2 ^ (32 * k)) (by omega)
  simp only [Nat.mul_zero, Nat.add_zero, Nat.pow_zero, Nat.div_one, Nat.mul_one] at hlow hhigh
  unfold dword putDword
  rw [hlow, hhigh]
  omega

theorem dword_congr {r' : Region} (h : ∀ i, off ≤ i → i < off + 8 → r i = r' i) :
    dword r off = dword r' off := by
  unfold dword
  rw [word_congr fun i h1 h2 => h i h1 (by omega),
    @word_congr r r' (off + 4) fun i h1 h2 => h i (by omega) (by omega)]

theorem word_putDword_ne (h : off' + 4 ≤ off ∨ off + 8 ≤ off') :
    word (putDword r off v) off' = word r off' :=
  word_putWords_ne (by omega)

theorem dword_putWord_ne (h : off' + 8 ≤ off ∨ off + 4 ≤ off') :
    dword (putWord r off v) off' = dword r off' :=
  dword_congr fun _ _ _ => if_neg (by omega)

theorem dword_putDword_ne (h : off' + 8 ≤ off ∨ off + 8 ≤ off') :
    dword (putDword r off v) off' = dword r off' :=
  dword_congr fun _ _ _ => if_neg (by omega)

theorem word_blit_out (h : off' + 4 ≤ off ∨ off + len ≤ off') :
    word (blit dst off src len) off' = word dst off' :=
  word_congr fun _ _ _ => blit_out (by omega)

/-! ## Bitmaps -/

/-- Bit `i` of a bitmap: bit `i % 8` of byte `i / 8`. -/
def testBit (r : Region) (i : Nat) : Bool := (r (i / 8)).toNat.testBit (i % 8)

/-- Set or clear bit `i`, by the mask of its byte. -/
def setBit (r : Region) (i : Nat) (v : Bool) : Region :=
  update r (i / 8) (if v then r (i / 8) ||| UInt8.ofNat (2 ^ (i % 8))
      else r (i / 8) &&& ~~~UInt8.ofNat (2 ^ (i % 8)))

@[simp] theorem testBit_zero (i : Nat) : testBit zero i = false := by
  simp [testBit, zero]

theorem testBit_congr {r' : Region} (h : r (i / 8) = r' (i / 8)) :
    testBit r i = testBit r' i := by
  unfold testBit
  rw [h]

private theorem byte_set (b : UInt8) (hk : k < 8) (j : Nat) :
    (b ||| UInt8.ofNat (2 ^ k)).toNat.testBit j = (b.toNat.testBit j || decide (j = k)) := by
  rw [UInt8.toNat_or, Nat.testBit_or, UInt8.toNat_ofNat',
    Nat.mod_eq_of_lt (Nat.pow_lt_pow_right (by omega) hk), Nat.testBit_two_pow]
  congr 1
  exact decide_eq_decide.mpr eq_comm

private theorem byte_clear (b : UInt8) {j : Nat} (hk : k < 8) (hj : j < 8) :
    (b &&& ~~~UInt8.ofNat (2 ^ k)).toNat.testBit j = (b.toNat.testBit j && !decide (j = k)) := by
  have hlt : 2 ^ k < 2 ^ 8 := Nat.pow_lt_pow_right (by omega) hk
  rw [UInt8.toNat_and, Nat.testBit_and, UInt8.toNat_not, UInt8.toNat_ofNat', Nat.mod_eq_of_lt hlt,
    show UInt8.size - 1 - 2 ^ k = 2 ^ 8 - (2 ^ k + 1) by simp [UInt8.size],
    Nat.testBit_two_pow_sub_succ hlt, Nat.testBit_two_pow]
  simp [hj, eq_comm]

/-- A bitmap read after a bitmap write: the bit written has the new value and
every other bit the old one, whether or not it shares the byte. -/
theorem testBit_setBit (r : Region) (i j : Nat) (v : Bool) :
    testBit (setBit r i v) j = if j = i then v else testBit r j := by
  have hi : i % 8 < 8 := Nat.mod_lt _ (by omega)
  have hj : j % 8 < 8 := Nat.mod_lt _ (by omega)
  unfold testBit setBit
  by_cases hbyte : j / 8 = i / 8
  · rw [hbyte, update_self]
    have hsame : j % 8 = i % 8 ↔ j = i := by omega
    cases v with
    | true =>
      rw [if_pos rfl, byte_set _ hi]
      split <;> rename_i h
      · simp [hsame.mpr h]
      · simp [mt hsame.mp h]
    | false =>
      rw [if_neg (by decide), byte_clear _ hi hj]
      split <;> rename_i h
      · simp [hsame.mpr h]
      · simp [mt hsame.mp h]
  · rw [update_of_ne hbyte, if_neg (by omega)]

theorem setBit_of_ne {v : Bool} (h : k ≠ i / 8) :
    setBit r i v k = r k :=
  update_of_ne h _ _

end Region
end MiniOs.Lib

import MiniOs.Lib.Dwords

/-!
# Numbers as bytes

The lowest byte first. `ofBytes` is the loop that puts a number together from a
row of bytes and `byte` takes one out of it. Memory is read and written by such
rows, in an address space that wraps around.
-/

namespace MiniOs.Lib

/-- Byte `i` of a number. -/
def byte (v : BitVec 64) (i : Nat) : UInt8 := UInt8.ofBitVec ((v >>> (8 * i)).setWidth 8)

/-- The number `n` bytes spell. -/
def ofBytes (f : Nat → UInt8) : Nat → BitVec 64
  | 0 => 0
  | n + 1 => ofBytes f n ||| (f n).toBitVec.setWidth 64 <<< (8 * n)

theorem getLsbD_byte (v : BitVec 64) (i k : Nat) :
    (byte v i).toBitVec.getLsbD k = (decide (k < 8) && v.getLsbD (8 * i + k)) := by
  simp [byte]

theorem getLsbD_ofBytes (f : Nat → UInt8) (n k : Nat) :
    (ofBytes f n).getLsbD k =
      (decide (k < 64) && decide (k < 8 * n) && (f (k / 8)).toBitVec.getLsbD (k % 8)) := by
  induction n with
  | zero => simp [ofBytes]
  | succ n ih =>
    have hbyte : (f n).toBitVec.getLsbD (k - 8 * n) = true → k < 8 * n + 8 ∨ k < 8 * n := by
      intro h
      have hlt := BitVec.lt_of_getLsbD h
      omega
    rw [ofBytes, BitVec.getLsbD_or, ih, BitVec.getLsbD_shiftLeft, BitVec.getLsbD_setWidth]
    by_cases h64 : k < 64
    · by_cases hlow : k < 8 * n
      · simp [h64, hlow, show k < 8 * (n + 1) by omega]
      · by_cases hnew : k < 8 * (n + 1)
        · have hdiv : k / 8 = n := by omega
          have hmod : k - 8 * n = k % 8 := by omega
          simp [h64, hlow, hnew, hdiv, hmod]
          omega
        · have hfalse : (f n).toBitVec.getLsbD (k - 8 * n) = false := by
            rw [Bool.eq_false_iff]
            intro h
            have := hbyte h
            omega
          simp [hlow, hnew, hfalse]
    · simp [h64]

/-- A byte of a number that bytes spell is one of them. -/
theorem byte_ofBytes {f : Nat → UInt8} {n i : Nat} (hi : i < n) (hn : n ≤ 8) :
    byte (ofBytes f n) i = f i := by
  apply UInt8.eq_of_toBitVec_eq
  apply BitVec.eq_of_getLsbD_eq
  intro k hk
  rw [getLsbD_byte, getLsbD_ofBytes]
  have hdiv : (8 * i + k) / 8 = i := by omega
  have hmod : (8 * i + k) % 8 = k := by omega
  simp [hk, hdiv, hmod, show 8 * i + k < 64 by omega, show 8 * i + k < 8 * n by omega]

/-- Eight bytes are the whole number. -/
theorem ofBytes_byte (v : BitVec 64) : ofBytes (byte v) 8 = v := by
  apply BitVec.eq_of_getLsbD_eq
  intro k hk
  rw [getLsbD_ofBytes, getLsbD_byte]
  simp [hk, Nat.mod_lt, Nat.div_add_mod]

theorem ofBytes_congr {f g : Nat → UInt8} {n : Nat} (h : ∀ i, i < n → f i = g i) :
    ofBytes f n = ofBytes g n := by
  induction n with
  | zero => rfl
  | succ n ih =>
    rw [ofBytes, ofBytes, ih fun i hi => h i (by omega), h n (by omega)]

/-! ## In memory -/

namespace Ram

/-- The number `n` bytes from `a` on spell, and the memory after it was put there. -/
def loadLe (mem : Ram) (a : BitVec 64) (n : Nat) : BitVec 64 :=
  ofBytes (fun i => mem (a + BitVec.ofNat 64 i)) n

def storeLe (mem : Ram) (a : BitVec 64) (n : Nat) (v : BitVec 64) : Ram := fun b =>
  if (b - a).toNat < n then byte v (b - a).toNat else mem b

variable {mem : Ram} {a b v : BitVec 64} {n : Nat}

theorem storeLe_in {i : Nat} (hi : i < n) (hn : n ≤ 8) :
    storeLe mem a n v (a + BitVec.ofNat 64 i) = byte v i := by
  have hoff : (a + BitVec.ofNat 64 i - a).toNat = i := by bv_omega
  rw [storeLe, hoff, if_pos hi]

theorem storeLe_out (h : n ≤ (b - a).toNat) : storeLe mem a n v b = mem b :=
  if_neg (by omega)

end Ram

end MiniOs.Lib

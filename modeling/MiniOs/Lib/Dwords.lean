import MiniOs.Lib.Bytes

/-!
# Doublewords in a 64-bit address space

Memory as the processor addresses it: bytes, at addresses that wrap around. A
doubleword is eight of them, the lowest first. A load after a store sees the
store, and a load from somewhere else does not; two places are apart when neither
lies within eight bytes after the other, which is the whole condition even at the
end of the address space.

The second half is about a row of doublewords, such as registers saved next to
each other: stores to different places of a row do not disturb each other, in
whatever order they are made.
-/

namespace MiniOs.Lib

/-- Bytes by address. -/
abbrev Ram := BitVec 64 → UInt8

namespace Ram

variable {mem : Ram} {a b v : BitVec 64}

/-- The doubleword at an address. -/
def load (mem : Ram) (a : BitVec 64) : BitVec 64 :=
  BitVec.ofNat 64 (Region.dword (fun k => mem (a + BitVec.ofNat 64 k)) 0)

def store (mem : Ram) (a v : BitVec 64) : Ram := fun b =>
  if (b - a).toNat < 8 then Region.wordByte v.toNat (b - a).toNat else mem b

/-- Doublewords at these addresses have no byte in common. -/
def Apart (a b : BitVec 64) : Prop := 8 ≤ (b - a).toNat ∧ 8 ≤ (a - b).toNat

theorem load_congr {mem' : Ram}
    (h : ∀ k, k < 8 → mem (a + BitVec.ofNat 64 k) = mem' (a + BitVec.ofNat 64 k)) :
    load mem a = load mem' a := by
  unfold load Region.dword
  congr 2
  · exact Region.word_congr fun k _ hk => h k (by omega)
  · congr 1
    exact Region.word_congr fun k _ hk => h k (by omega)

theorem load_store (mem : Ram) (a v : BitVec 64) : load (store mem a v) a = v := by
  have hbyte : ∀ k, k < 8 → store mem a v (a + BitVec.ofNat 64 k) = Region.wordByte v.toNat k := by
    intro k hk
    have hoff : (a + BitVec.ofNat 64 k - a).toNat = k := by bv_omega
    rw [store, hoff, if_pos hk]
  have hv := v.isLt
  unfold load Region.dword Region.word
  simp only [Nat.zero_add, Nat.reduceAdd, hbyte, Nat.reduceLT, Region.wordByte,
    UInt8.toNat_ofNat', Nat.reducePow, Nat.div_one]
  apply BitVec.eq_of_toNat_eq
  rw [BitVec.toNat_ofNat]
  omega

theorem load_store_of_apart (h : Apart a b) : load (store mem a v) b = load mem b := by
  refine load_congr fun k hk => ?_
  have hout : ¬ (b + BitVec.ofNat 64 k - a).toNat < 8 := by
    obtain ⟨h1, h2⟩ := h
    bv_omega
  rw [store, if_neg hout]

/-! ## Rows -/

/-- Place `i` of a row. -/
def place (base : BitVec 64) (i : Fin 32) : BitVec 64 := base + BitVec.ofNat 64 (8 * i.val)

theorem apart_place {base : BitVec 64} {i j : Fin 32} (h : i ≠ j) :
    Apart (place base i) (place base j) := by
  have hi := i.isLt
  have hj := j.isLt
  have hne : i.val ≠ j.val := fun heq => h (Fin.ext heq)
  unfold Apart place
  constructor <;> bv_omega

/-- Stores of `f i` to the places in a list. -/
def storeRow (mem : Ram) (base : BitVec 64) (f : Fin 32 → BitVec 64) (l : List (Fin 32)) : Ram :=
  l.foldl (fun mem i => store mem (place base i) (f i)) mem

theorem load_storeRow {base : BitVec 64} {f : Fin 32 → BitVec 64} {l : List (Fin 32)}
    (j : Fin 32) :
    load (storeRow mem base f l) (place base j) =
      if j ∈ l then f j else load mem (place base j) := by
  induction l generalizing mem with
  | nil => simp [storeRow]
  | cons i rest ih =>
    rw [storeRow, List.foldl_cons]
    refine (@ih (store mem (place base i) (f i))).trans ?_
    by_cases hrest : j ∈ rest
    · simp [hrest]
    · by_cases hji : j = i
      · subst hji
        simp [hrest, load_store]
      · simp [hrest, hji, load_store_of_apart (apart_place (Ne.symm hji))]

end Ram

end MiniOs.Lib

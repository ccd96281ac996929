import MiniOs.Boot.Loader
import MiniOs.Proofs.Block

/-!
# The loader copies the slot

`boot_main` reads one sector after the other and copies it byte by byte. Over the device
this is one copy, from the storage behind the header to the load address, with the sum of
the bytes on the side. The last sector is copied in part, and nothing else in memory
changes.

What a header has to say for the loader to get to the end is `checkHeader`. The rest of
`boot_main` cannot fail: the sectors of the slot are there, and the destination is memory.
-/

namespace MiniOs.Boot

open MiniOs.Lib MiniOs.Cemu

/-! ## Reading a sector -/

/-- On a sector that exists the loader's driver is the kernel's. -/
theorem blockRead_kernel (b : Bus) {sector : BitVec 32} (hs : sector.toNat < sectorCount)
    (buffer : Region) : Kernel.Block.blockRead b sector (some buffer) =
      (blockRead b sector buffer).map fun result => (result.1, some result.2.1, result.2.2) := by
  rw [Kernel.Block.blockRead, if_neg (Nat.not_le.mpr hs), blockRead]
  cases b.store Kernel.Block.blockRegSector 64 (sector.setWidth 64) with
  | error e => rfl
  | ok b1 =>
    dsimp only [bind, Except.bind]
    cases b1.store Kernel.Block.blockRegCmd 32 1 with
    | error e => rfl
    | ok b2 =>
      dsimp only
      cases b2.load Kernel.Block.blockRegStatus 32 with
      | error e => rfl
      | ok result =>
        dsimp only
        split
        · rfl
        · cases Kernel.Block.readWindow 64 0 result.2 buffer with
          | error e => rfl
          | ok result => rfl

theorem blockRead_ok (b : Bus) {sector : Nat} (hs : sector < sectorCount) (buffer : Region) :
    ∃ b' buffer', blockRead b (BitVec.ofNat 32 sector) buffer = .ok (0, buffer', b') ∧
      b'.block.storage = b.block.storage ∧ b'.dram = b.dram ∧
      ∀ i, i < 512 → buffer' i = b.block.storage (sector * 512 + i) := by
  have hnat : (BitVec.ofNat 32 sector).toNat = sector := by
    rw [sectorCount] at hs
    rw [BitVec.toNat_ofNat, Nat.mod_eq_of_lt (by omega)]
  rw [← hnat] at hs
  obtain ⟨b', buffer', heq, hstorage, -, hdram, hbytes⟩ := Kernel.Block.blockRead_ok b hs buffer
  rw [blockRead_kernel b hs] at heq
  cases hread : blockRead b (BitVec.ofNat 32 sector) buffer with
  | error e =>
    rw [hread] at heq
    cases heq
  | ok result =>
    obtain ⟨status, buffer1, b1⟩ := result
    rw [hread] at heq
    cases heq
    rw [hnat] at hbytes
    exact ⟨_, _, rfl, hstorage, hdram, hbytes⟩

/-! ## Copying it -/

/-- The sum of `n` bytes from `start` on. -/
def byteSum (r : Region) (start n : Nat) : Nat :=
  ((List.range n).map fun k => (r (start + k)).toNat).sum

theorem byteSum_zero (r : Region) (start : Nat) : byteSum r start 0 = 0 := rfl

theorem byteSum_succ (r : Region) (start n : Nat) :
    byteSum r start (n + 1) = (r start).toNat + byteSum r (start + 1) n := by
  rw [byteSum, byteSum, List.range_succ_eq_map, List.map_cons, List.map_map, List.sum_cons,
    Nat.add_zero]
  congr 3
  funext k
  dsimp only [Function.comp]
  congr 2
  omega

theorem byteSum_add (r : Region) (start m n : Nat) :
    byteSum r start (m + n) = byteSum r start m + byteSum r (start + m) n := by
  rw [byteSum, byteSum, byteSum, List.range_add, List.map_append, List.sum_append, List.map_map]
  simp only [Function.comp_def, Nat.add_assoc]

theorem byteSum_congr {r r' : Region} {start start' n : Nat}
    (h : ∀ k, k < n → r (start + k) = r' (start' + k)) :
    byteSum r start n = byteSum r' start' n := by
  refine congrArg List.sum (List.map_congr_left fun k hk => ?_)
  rw [h k (List.mem_range.mp hk)]

theorem byte_ofNat (v : UInt8) : byte (BitVec.ofNat 64 v.toNat) 0 = v := by
  unfold byte
  apply UInt8.toNat_inj.mp
  have hv := v.toNat_lt
  simp only [UInt8.toNat_ofBitVec, BitVec.toNat_setWidth, BitVec.toNat_ushiftRight,
    BitVec.toNat_ofNat]
  omega

theorem store_byte (b : Bus) {a : Nat} (hlo : 0x80000000 ≤ a) (hhi : a < 0x88000000) (v : UInt8) :
    ∃ dram, b.store (BitVec.ofNat 64 a) 8 (BitVec.ofNat 64 v.toNat) = .ok { b with dram := dram } ∧
      ∀ x, x < 2 ^ 64 → dram (BitVec.ofNat 64 x) = if x = a then v else b.dram (BitVec.ofNat 64 x) := by
  have htarget : targetAt (BitVec.ofNat 64 a) = some .dram := by
    unfold targetAt dramBase dramEnd
    rw [if_pos]
    bv_omega
  have hroom : ¬ BitVec.ofNat 64 a - dramBase + BitVec.ofNat 64 (8 / 8) > dramSize := by
    unfold dramBase dramSize
    bv_omega
  refine ⟨b.dram.storeLe (BitVec.ofNat 64 a) 1 (BitVec.ofNat 64 v.toNat), ?_, fun x hx => ?_⟩
  · rw [Bus.store, htarget]
    simp only [Dram.store, if_neg hroom]
    rfl
  · unfold Ram.storeLe
    by_cases hxa : x = a
    · subst hxa
      rw [if_pos rfl, BitVec.sub_self, if_pos (by decide)]
      exact byte_ofNat v
    · rw [if_neg hxa, if_neg]
      bv_omega

theorem copyChunk_ok {destination copied : Nat} {buffer : Region} {left : Nat} :
    ∀ {i : Nat} (b : Bus) {checksum : Nat}, 0x80000000 ≤ destination →
      destination + copied + i + left ≤ 0x88000000 → checksum < 2 ^ 32 →
      ∃ dram, copyChunk destination buffer copied left i b checksum =
          .ok ({ b with dram := dram }, (checksum + byteSum buffer i left) % 2 ^ 32) ∧
        ∀ x, x < 2 ^ 64 → dram (BitVec.ofNat 64 x) =
          if destination + copied + i ≤ x ∧ x < destination + copied + i + left then
            buffer (x - (destination + copied))
          else b.dram (BitVec.ofNat 64 x) := by
  induction left with
  | zero =>
    intro i b checksum _ _ hsum
    refine ⟨b.dram, ?_, fun x _ => by rw [if_neg (by omega)]⟩
    rw [copyChunk]
    rw [byteSum_zero, Nat.add_zero, Nat.mod_eq_of_lt hsum]
  | succ left ih =>
    intro i b checksum hlo hhi hsum
    obtain ⟨dram1, hstore, hdram1⟩ := store_byte b (show 0x80000000 ≤ destination + copied + i by
      omega) (by omega) (buffer i)
    obtain ⟨dram, hrest, hdram⟩ := @ih (i + 1) { b with dram := dram1 }
      ((checksum + (buffer i).toNat) % 2 ^ 32) hlo (by omega) (Nat.mod_lt _ (by decide))
    refine ⟨dram, ?_, fun x hx => ?_⟩
    · rw [copyChunk, hstore]
      refine hrest.trans ?_
      rw [byteSum_succ]
      congr 2
      omega
    · rw [hdram x hx]
      dsimp only
      rw [hdram1 x hx]
      by_cases hfirst : x = destination + copied + i
      · rw [if_neg (by omega), if_pos hfirst, if_pos (by omega), hfirst]
        congr 1
        omega
      · rw [if_neg hfirst]
        by_cases hin : destination + copied + (i + 1) ≤ x ∧
            x < destination + copied + (i + 1) + left
        · rw [if_pos hin, if_pos (by omega)]
        · rw [if_neg hin, if_neg (by omega)]

/-! ## Copying the kernel -/

/-- The byte of the device where the kernel begins. -/
def payloadStart : Nat := (kernelSlotStart + 1) * 512

theorem loadKernel_ok {imageSize : Nat} (hsize : imageSize ≤ kernelSlotPayloadMax) {fuel : Nat} :
    ∀ {b : Bus} {buffer : Region} {checksum copied sector : Nat}, imageSize - copied ≤ fuel →
      copied ≤ imageSize → sector * 512 = payloadStart + copied ∨ copied = imageSize →
      checksum < 2 ^ 32 →
      ∃ b', loadKernel imageSize kernelLoadAddress fuel b buffer checksum copied sector =
          .ok (b', some ((checksum + byteSum b.block.storage (payloadStart + copied)
            (imageSize - copied)) % 2 ^ 32)) ∧
        ∀ x, x < 2 ^ 64 → b'.dram (BitVec.ofNat 64 x) =
          if kernelLoadAddress + copied ≤ x ∧ x < kernelLoadAddress + imageSize then
            b.block.storage (payloadStart + (x - kernelLoadAddress))
          else b.dram (BitVec.ofNat 64 x) := by
  induction fuel with
  | zero =>
    intro b buffer checksum copied sector hfuel hle _ hsum
    refine ⟨b, ?_, fun x _ => by rw [if_neg (by omega)]⟩
    rw [loadKernel, show imageSize - copied = 0 by omega]
    rw [byteSum_zero, Nat.add_zero, Nat.mod_eq_of_lt hsum]
  | succ fuel ih =>
    intro b buffer checksum copied sector hfuel hle hsector hsum
    rw [loadKernel]
    by_cases hdone : copied = imageSize
    · refine ⟨b, ?_, fun x _ => by rw [if_neg (by omega)]⟩
      rw [if_neg (by omega), hdone, Nat.sub_self]
      rw [byteSum_zero, Nat.add_zero, Nat.mod_eq_of_lt hsum]
    rw [if_pos (by omega)]
    have hplace : sector * 512 = payloadStart + copied := hsector.resolve_right hdone
    have hexists : sector < sectorCount := by
      unfold payloadStart kernelSlotStart at hplace
      unfold kernelSlotPayloadMax at hsize
      unfold sectorCount
      omega
    obtain ⟨b1, buffer1, hread, hstorage, hdram1, hbytes⟩ := blockRead_ok b hexists buffer
    obtain ⟨chunk, hchunk⟩ : ∃ chunk, chunk = min (imageSize - copied) 512 := ⟨_, rfl⟩
    obtain ⟨dram2, hcopy, hdram2⟩ := @copyChunk_ok kernelLoadAddress copied buffer1 chunk 0 b1
      checksum (by decide) (by
        unfold kernelLoadAddress
        unfold kernelSlotPayloadMax at hsize
        omega) hsum
    have hnext : (sector + 1) * 512 = payloadStart + (copied + chunk) ∨
        copied + chunk = imageSize := by
      rcases Nat.lt_or_ge (imageSize - copied) 512 with hlast | hfull
      · right
        omega
      · left
        rw [Nat.add_mul, hplace, Nat.add_assoc, hchunk, Nat.min_eq_right hfull]
    obtain ⟨b', hrest, hdram'⟩ := @ih { b1 with dram := dram2 } buffer1
      ((checksum + byteSum buffer1 0 chunk) % 2 ^ 32) (copied + chunk) (sector + 1)
      (by omega) (by omega) hnext (Nat.mod_lt _ (by decide))
    have hbuffer : ∀ k, k < chunk → buffer1 k = b.block.storage (payloadStart + copied + k) := by
      intro k hk
      rw [hbytes k (by omega), hplace]
    refine ⟨b', ?_, fun x hx => ?_⟩
    · rw [hread]
      dsimp only [bind, Except.bind]
      rw [if_neg (by decide), ← hchunk, hcopy]
      refine hrest.trans ?_
      have hsplit : imageSize - copied = chunk + (imageSize - (copied + chunk)) := by omega
      have hfirst : byteSum buffer1 0 chunk =
          byteSum b.block.storage (payloadStart + copied) chunk :=
        byteSum_congr fun k hk => by rw [Nat.zero_add, hbuffer k hk]
      dsimp only
      rw [hstorage, hfirst, hsplit, byteSum_add, Nat.add_assoc payloadStart]
      congr 3
      omega
    · rw [hdram' x hx]
      dsimp only
      rw [hdram2 x hx, hstorage, hdram1]
      by_cases hlater : kernelLoadAddress + (copied + chunk) ≤ x ∧
          x < kernelLoadAddress + imageSize
      · rw [if_pos hlater, if_pos (by omega)]
      · rw [if_neg hlater]
        by_cases hhere : kernelLoadAddress + copied + 0 ≤ x ∧
            x < kernelLoadAddress + copied + 0 + chunk
        · rw [if_pos hhere, if_pos (by omega), hbuffer _ (by omega), Nat.add_assoc,
            show copied + (x - (kernelLoadAddress + copied)) = x - kernelLoadAddress by omega]
        · rw [if_neg hhere, if_neg (by omega)]

theorem checkHeader_none {header : Header} (h : checkHeader header = none) :
    header.loadAddress = kernelLoadAddress ∧ header.imageSize ≤ kernelSlotPayloadMax := by
  unfold checkHeader at h
  split at h
  · cases h
  split at h
  · cases h
  · split at h
    · cases h
    · next hload =>
      split at h
      · cases h
      · next hsize => exact ⟨not_ne_iff.mp hload, Nat.not_lt.mp (not_or.mp hsize).2⟩

/-- With a header in order and the right checksum, the loader reaches the kernel. -/
theorem bootMain_jumps (b : Bus) {header : Header}
    (hheader : ∀ buffer : Region,
      (∀ i, i < 512 → buffer i = b.block.storage (kernelSlotStart * 512 + i)) →
        Header.decode buffer = header)
    (hcheck : checkHeader header = none)
    (hsum : byteSum b.block.storage payloadStart header.imageSize % 2 ^ 32 = header.checksum) :
    ∃ b', bootMain b = .ok (.jump header.entry, b') ∧
      ∀ i, i < header.imageSize →
        b'.dram (BitVec.ofNat 64 (kernelLoadAddress + i)) = b.block.storage (payloadStart + i) := by
  obtain ⟨hload, hsize⟩ := checkHeader_none hcheck
  obtain ⟨b1, buffer, hread, hstorage, -, hbytes⟩ :=
    blockRead_ok b (show kernelSlotStart < sectorCount by decide) Region.zero
  obtain ⟨b2, hloop, hdram⟩ := @loadKernel_ok header.imageSize hsize header.imageSize b1 buffer 0 0
    (kernelSlotStart + 1) (Nat.sub_le _ _) (Nat.zero_le _) (Or.inl rfl) (by decide)
  rw [hstorage, Nat.zero_add, Nat.sub_zero, Nat.add_zero payloadStart, hsum] at hloop
  refine ⟨b2, ?_, fun i hi => ?_⟩
  · rw [bootMain, hread]
    dsimp only [bind, Except.bind]
    rw [if_neg (by decide), hheader buffer hbytes, hcheck, hload]
    dsimp only
    rw [hloop]
    dsimp only
    rw [if_neg (by simp)]
    rfl
  · have hmax : header.imageSize ≤ 1023 * 512 := hsize
    rw [hdram _ (by unfold kernelLoadAddress; omega), if_pos (by omega), hstorage,
      Nat.add_sub_cancel_left]

end MiniOs.Boot

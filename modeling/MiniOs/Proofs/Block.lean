import MiniOs.Kernel.Block
import MiniOs.Lib.Run

/-!
# The block driver over the block device

The driver and the device share a protocol: the sector and a command in two
registers, the data in a window. Neither remembers anything a call relies on. A
read sets the sector before the command and fills the window before it is copied
out, and a write fills the whole window first, so what earlier calls left in the
three places does not matter. That leaves an array of sectors.

The host's file follows because `flush_sector` copies what the device has, in the
one place that changed.
-/

namespace MiniOs.Kernel.Block

open MiniOs.Lib MiniOs.Cemu

variable {b : Bus}

/-! ## Registers and window -/

theorem ok_bind {ε α β : Type} {x : Except ε α} {a : α} (h : x = .ok a) (f : α → Except ε β) :
    (x >>= f) = f a := by
  rw [h]
  rfl

theorem store_sector (b : Bus) (v : Cemu.Word) :
    b.store blockRegSector 64 v = .ok { b with block := { b.block with sector := v } } := rfl

theorem blockData_spec : ∀ i : Fin 64, targetAt (blockData i) = some .block ∧
    blockData i - blockBase ≠ regSector ∧ dataWindow ≤ blockData i - blockBase ∧
    blockData i - blockBase - dataWindow + 8 ≤ 512 ∧
    (blockData i - blockBase - dataWindow).toNat = 8 * i.val := by
  decide

theorem load_data {i : Nat} (hi : i < 64) (b : Bus) :
    b.load (blockData i) 64 = .ok (ofBytes (fun k => b.block.window (8 * i + k)) 8, b) := by
  obtain ⟨htarget, hsector, hwindow, hend, hindex⟩ := blockData_spec ⟨i, hi⟩
  simp only at htarget hsector hwindow hend hindex
  have hload : b.block.load (blockData i) 64 =
      .ok (ofBytes (fun k => b.block.window (8 * i + k)) 8) := by
    simp [BlockDevice.load, sizeOk, hsector, hwindow, hindex]
    exact hend
  rw [Bus.load, htarget]
  simp only [hload]
  rfl

theorem store_data {i : Nat} (hi : i < 64) (b : Bus) (v : Cemu.Word) :
    b.store (blockData i) 64 v =
      .ok { b with block := { b.block with window := b.block.window.blit (8 * i) (byte v) 8 } } := by
  obtain ⟨htarget, hsector, hwindow, hend, hindex⟩ := blockData_spec ⟨i, hi⟩
  simp only at htarget hsector hwindow hend hindex
  have hstore : b.block.store (blockData i) 64 v =
      .ok { b.block with window := b.block.window.blit (8 * i) (byte v) 8 } := by
    simp [BlockDevice.store, sizeOk, hsector, hwindow, hindex]
    exact hend
  rw [Bus.store, htarget]
  simp only [hstore]
  rfl

/-- A round of either loop: eight bytes more are those of `f`. -/
theorem blit_round (old f : Region) (i left k : Nat) :
    (if 8 * (i + 1) ≤ k ∧ k < 8 * (i + 1 + left) then f k
      else old.blit (8 * i) (byte (ofBytes (fun k => f (8 * i + k)) 8)) 8 k) =
    if 8 * i ≤ k ∧ k < 8 * (i + (left + 1)) then f k else old k := by
  by_cases hnext : 8 * (i + 1) ≤ k ∧ k < 8 * (i + 1 + left)
  · rw [if_pos hnext, if_pos (by omega)]
  · rw [if_neg hnext]
    by_cases hhere : 8 * i ≤ k ∧ k < 8 * i + 8
    · rw [Region.blit_in hhere.1 hhere.2, byte_ofBytes (by omega) (Nat.le_refl 8), if_pos (by omega)]
      congr 1
      omega
    · rw [Region.blit_out (by omega), if_neg (by omega)]

theorem readWindow_eq {left i : Nat} (h : i + left ≤ 64) (b : Bus) (buffer : Region) :
    ∃ buffer', readWindow left i b buffer = .ok (buffer', b) ∧
      ∀ k, buffer' k = if 8 * i ≤ k ∧ k < 8 * (i + left) then b.block.window k else buffer k := by
  induction left generalizing i buffer with
  | zero => exact ⟨buffer, rfl, fun k => by rw [if_neg (by omega)]⟩
  | succ left ih =>
    obtain ⟨buffer', heq, hbytes⟩ := ih (show i + 1 + left ≤ 64 by omega)
      (buffer.blit (8 * i) (byte (ofBytes (fun k => b.block.window (8 * i + k)) 8)) 8)
    refine ⟨buffer', ?_, fun k => (hbytes k).trans (blit_round _ _ i left k)⟩
    rw [readWindow, load_data (by omega)]
    exact heq

theorem writeWindow_eq {left i : Nat} (h : i + left ≤ 64) (buffer : Region) (b : Bus) :
    ∃ window, writeWindow buffer left i b =
        .ok { b with block := { b.block with window := window } } ∧
      ∀ k, window k = if 8 * i ≤ k ∧ k < 8 * (i + left) then buffer k else b.block.window k := by
  induction left generalizing i b with
  | zero => exact ⟨b.block.window, rfl, fun k => by rw [if_neg (by omega)]⟩
  | succ left ih =>
    obtain ⟨window, heq, hbytes⟩ := ih (show i + 1 + left ≤ 64 by omega)
      { b with block := { b.block with
        window := b.block.window.blit (8 * i) (byte (ofBytes (fun k => buffer (8 * i + k)) 8)) 8 } }
    refine ⟨window, ?_, fun k => (hbytes k).trans (blit_round _ _ i left k)⟩
    rw [writeWindow, store_data (by omega)]
    exact heq

/-! ## One call -/

variable {sector : BitVec 32} {buffer : Region}

theorem toNat_setWidth_sector (sector : BitVec 32) : (sector.setWidth 64).toNat = sector.toNat := by
  have h := sector.isLt
  rw [BitVec.toNat_setWidth]
  omega

/-- The device with a sector selected. -/
def selected (d : BlockDevice) (sector : BitVec 32) : BlockDevice :=
  { d with sector := sector.setWidth 64 }

theorem selected_sector (d : BlockDevice) (sector : BitVec 32) :
    (selected d sector).sector.toNat = sector.toNat := toNat_setWidth_sector sector

/-- The two commands of the driver, on a sector that exists. -/
theorem execute_read (d : BlockDevice) (hs : sector.toNat < sectorCount) :
    (selected d sector).execute 1 = { selected d sector with
      window := d.window.blit 0 (fun i => d.storage (sector.toNat * sectorSize + i)) sectorSize
      status := 0 } := by
  rw [BlockDevice.execute, selected_sector, if_neg (Nat.not_le.mpr hs)]
  rfl

theorem execute_write (d : BlockDevice) (hs : sector.toNat < sectorCount) :
    (selected d sector).execute 2 = { selected d sector with
      storage := d.storage.blit (sector.toNat * sectorSize) d.window sectorSize
      image := d.image.map fun image => image.blit (sector.toNat * sectorSize)
        (fun i => d.storage.blit (sector.toNat * sectorSize) d.window sectorSize
          (sector.toNat * sectorSize + i)) sectorSize
      status := 0 } := by
  rw [BlockDevice.execute, selected_sector, if_neg (Nat.not_le.mpr hs)]
  rfl

/-- A read leaves the storage, the image and memory alone, and delivers the sector. -/
theorem blockRead_ok (b : Bus) (hs : sector.toNat < sectorCount) (buffer : Region) :
    ∃ b' buffer', blockRead b sector (some buffer) = .ok (0, some buffer', b') ∧
      b'.block.storage = b.block.storage ∧ b'.block.image = b.block.image ∧ b'.dram = b.dram ∧
      ∀ i, i < sectorSize → buffer' i = sectorByte b sector.toNat i := by
  generalize hd : (selected b.block sector).execute 1 = d
  have hexec := execute_read b.block hs
  rw [hd] at hexec
  obtain ⟨buffer', heq, hbytes⟩ := readWindow_eq (show 0 + 64 ≤ 64 by omega)
    { b with block := d } buffer
  refine ⟨{ b with block := d }, buffer', ?_, by rw [hexec]; rfl, by rw [hexec]; rfl, rfl,
    fun i hi => ?_⟩
  · have hcommand : ({ b with block := selected b.block sector } : Bus).store blockRegCmd 32 1 =
        .ok { b with block := d } := by rw [← hd]; rfl
    have hstatus : ({ b with block := d } : Bus).load blockRegStatus 32 =
        .ok (0, { b with block := d }) := by rw [hexec]; rfl
    rw [blockRead, if_neg (Nat.not_le.mpr hs)]
    refine (ok_bind (store_sector b _) _).trans ((ok_bind hcommand _).trans ?_)
    refine (ok_bind hstatus _).trans ?_
    dsimp only
    rw [if_neg (by decide)]
    exact ok_bind heq _
  · rw [hbytes, if_pos (by rw [sectorSize] at hi; omega)]
    show d.window i = _
    rw [hexec]
    dsimp only
    rw [Region.blit_in (Nat.zero_le i) (by rwa [Nat.zero_add])]
    rfl

/-- A write puts the buffer into one sector, of the storage and of the image. -/
theorem blockWrite_ok (b : Bus) (hs : sector.toNat < sectorCount) (buffer : Region) :
    ∃ b' window, blockWrite b sector (some buffer) = .ok (0, b') ∧
      (∀ i, i < sectorSize → window i = buffer i) ∧
      b'.block.storage = b.block.storage.blit (sector.toNat * sectorSize) window sectorSize ∧
      b'.block.image = b.block.image.map fun image =>
        image.blit (sector.toNat * sectorSize)
          (fun i => b'.block.storage (sector.toNat * sectorSize + i)) sectorSize := by
  obtain ⟨window, heq, hbytes⟩ := writeWindow_eq (show 0 + 64 ≤ 64 by omega) buffer b
  generalize hd : (selected { b.block with window := window } sector).execute 2 = d
  have hexec := execute_write { b.block with window := window } hs
  rw [hd] at hexec
  refine ⟨{ b with block := d }, window, ?_, fun i hi => ?_, by rw [hexec], by rw [hexec]⟩
  · have hcommand : ({ b with block := selected { b.block with window := window } sector } :
        Bus).store blockRegCmd 32 2 = .ok { b with block := d } := by rw [← hd]; rfl
    have hstatus : ({ b with block := d } : Bus).load blockRegStatus 32 =
        .ok (0, { b with block := d }) := by rw [hexec]; rfl
    rw [blockWrite, if_neg (Nat.not_le.mpr hs)]
    refine (ok_bind heq _).trans ((ok_bind (store_sector _ _) _).trans ?_)
    exact (ok_bind hcommand _).trans (ok_bind hstatus _)
  · rw [hbytes, if_pos (by rw [sectorSize] at hi; omega)]

theorem blockRead_refused (b : Bus) (hs : sectorCount ≤ sector.toNat) (buffer : Region) :
    blockRead b sector (some buffer) = .ok (-1, some buffer, b) := if_pos hs

theorem blockWrite_refused (b : Bus) (hs : sectorCount ≤ sector.toNat) (buffer : Region) :
    blockWrite b sector (some buffer) = .ok (-1, b) := if_pos hs

/-- The bytes of a sector after a write to another or to the same. -/
theorem sectorByte_blit {b' : Bus} {s t i : Nat} {window : Region} (hi : i < sectorSize)
    (h : b'.block.storage = b.block.storage.blit (s * sectorSize) window sectorSize) :
    sectorByte b' t i = if t = s then window i else sectorByte b t i := by
  rw [sectorByte, h]
  rw [sectorSize] at hi
  split
  · next heq =>
    rw [heq, Region.blit_in (by omega) (by rw [sectorSize]; omega)]
    congr 1
    omega
  · next hne =>
    rw [Region.blit_out]
    · rfl
    · rw [sectorSize]
      omega

/-! ## Runs -/

/-- The device has the sectors `disk`, and the host's file has them too. -/
structure Holds (b : Bus) (disk : Nat → Region) : Prop where
  sector : ∀ s i, s < sectorCount → i < sectorSize → sectorByte b s i = disk s i
  mirrored : Mirrored b

/-- One call keeps the two in step. -/
theorem Holds.serve {disk : Nat → Region} (h : Holds b disk) (c : Call) :
    Holds (serve b c) fun s => latest disk s [c] := by
  cases c with
  | read sector buffer =>
    rw [Block.serve]
    rcases Nat.lt_or_ge sector.toNat sectorCount with hs | hs
    · obtain ⟨b', buffer', heq, hstorage, himage, -⟩ := blockRead_ok b hs buffer
      rw [heq]
      refine ⟨fun s i hs hi => ?_, ?_⟩
      · rw [sectorByte, hstorage]
        exact h.sector s i hs hi
      · simp only [Mirrored, hstorage, himage]
        exact h.mirrored
    · rw [blockRead_refused b hs]
      exact h
  | write sector buffer =>
    rw [Block.serve]
    rcases Nat.lt_or_ge sector.toNat sectorCount with hs | hs
    · obtain ⟨b', window, heq, hwindow, hstorage, himage⟩ := blockWrite_ok b hs buffer
      rw [heq]
      refine ⟨fun t i ht hi => ?_, ?_⟩
      · rw [sectorByte_blit hi hstorage, latest, latest, if_pos hs, Function.update_apply]
        split
        · exact hwindow i hi
        · exact h.sector t i ht hi
      intro image himage' i hi
      rw [himage, Option.map_eq_some_iff] at himage'
      obtain ⟨old, hold, rfl⟩ := himage'
      by_cases hin : sector.toNat * sectorSize ≤ i ∧ i < sector.toNat * sectorSize + sectorSize
      · rw [Region.blit_in hin.1 hin.2]
        congr 1
        omega
      · rw [Region.blit_out (by omega), h.mirrored old hold i hi, hstorage,
          Region.blit_out (by omega)]
    · rw [blockWrite_refused b hs]
      refine ⟨fun t i ht hi => ?_, h.mirrored⟩
      rw [latest, latest, if_neg (Nat.not_lt.mpr hs)]
      exact h.sector t i ht hi

theorem Holds.run {disk : Nat → Region} (h : Holds b disk) (calls : List Call) :
    Holds (Lib.run Block.serve b calls) fun s => latest disk s calls := by
  induction calls generalizing b disk with
  | nil => exact h
  | cons c rest ih =>
    have hrest := ih (h.serve c)
    cases c <;> exact hrest

/-- The driver over the device is an array of sectors, with a copy of it in the file of
the host. -/
theorem driver_is_array (b : Bus) (hmirrored : Mirrored b) (calls : List Call)
    (sector : BitVec 32) (buffer : Region) :
    let b₁ := Lib.run serve b calls
    Mirrored b₁ ∧
    (sectorCount ≤ sector.toNat → blockRead b₁ sector (some buffer) = .ok (-1, some buffer, b₁) ∧
      blockWrite b₁ sector (some buffer) = .ok (-1, b₁)) ∧
    (sector.toNat < sectorCount →
      (∃ b₂ buffer', blockRead b₁ sector (some buffer) = .ok (0, some buffer', b₂) ∧
        (∀ i, i < sectorSize →
          buffer' i = latest (fun s i => sectorByte b s i) sector.toNat calls i) ∧
        b₂.block.storage = b₁.block.storage ∧ Mirrored b₂) ∧
      ∃ b₂, blockWrite b₁ sector (some buffer) = .ok (0, b₂) ∧ (∀ s i, i < sectorSize →
          sectorByte b₂ s i = if s = sector.toNat then buffer i else sectorByte b₁ s i) ∧
        Mirrored b₂) := by
  intro b₁
  have hstart : Holds b fun s i => sectorByte b s i := ⟨fun _ _ _ _ => rfl, hmirrored⟩
  have h : Holds b₁ _ := hstart.run calls
  refine ⟨h.mirrored, fun hs => ⟨blockRead_refused b₁ hs buffer, blockWrite_refused b₁ hs buffer⟩,
    fun hs => ⟨?_, ?_⟩⟩
  · obtain ⟨b₂, buffer', heq, hstorage, himage, -, hbytes⟩ := blockRead_ok b₁ hs buffer
    refine ⟨b₂, buffer', heq, fun i hi => (hbytes i hi).trans (h.sector _ i hs hi), hstorage, ?_⟩
    have hafter := (h.serve (.read sector buffer)).mirrored
    rwa [serve, heq] at hafter
  · obtain ⟨b₂, window, heq, hwindow, hstorage, -⟩ := blockWrite_ok b₁ hs buffer
    refine ⟨b₂, heq, fun s i hi => ?_, ?_⟩
    · rw [sectorByte_blit hi hstorage]
      split
      · exact hwindow i hi
      · rfl
    · have hafter := (h.serve (.write sector buffer)).mirrored
      rwa [serve, heq] at hafter

/-- A device that was just made, with a file of zeros. -/
def blankBus : Bus where
  dram _ := 0
  uart := ⟨Region.zero, []⟩
  clint := ⟨0, 0⟩
  plic := ⟨0, 0, 0, 0⟩
  block := ⟨Region.zero, Region.zero, some Region.zero, 0, 0⟩
  halted := false

/-- A sector is written twice, and another one; the read sees the second write. -/
theorem driver_is_array_twice :
    ∃ b buffer, blockRead (Lib.run serve blankBus
        [.write 5 fun _ => 1, .write 5 fun _ => 2, .write 6 fun _ => 3]) 5 (some Region.zero) =
      .ok (0, some buffer, b) ∧ (∀ i, i < sectorSize → buffer i = 2) ∧ Mirrored b := by
  obtain ⟨b, buffer, heq, hbytes, -, hmirrored⟩ := ((driver_is_array blankBus
    (fun _ h _ _ => by cases h; rfl)
    [.write 5 fun _ => 1, .write 5 fun _ => 2, .write 6 fun _ => 3] 5 Region.zero).2.2
      (by decide)).1
  exact ⟨b, buffer, heq, fun i hi => hbytes i hi, hmirrored⟩

end MiniOs.Kernel.Block

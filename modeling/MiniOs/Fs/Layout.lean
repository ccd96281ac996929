import Mathlib.Data.List.DropRight
import Mathlib.Data.List.GetD
import MiniOs.Lib.Bytes

/-!
# The MiniFS v2 format

The records of `os/kernel/minifs.c` and `os/kernel/block.h`, and the C string
helpers the rest of the file system is written with.

Sizes appear as the numbers the headers define them to be. They are few:

* 512 bytes a sector, 16384 sectors a device, of which MiniFS has the first
  15360; sector 0 is the superblock, sector 1 the inode bitmap, sectors 2..5 the
  data bitmap, sectors 6..37 the inode table and 38 the first data block;
* 256 inodes of 64 bytes, eight to a sector, with 10 direct blocks and one
  indirect block of 128 entries, so 138 logical blocks an inode;
* directory entries of 64 bytes, eight to a block, with names of at most 55
  bytes; paths of at most 255 bytes; files of at most 65536 bytes;
* 64 open files, 16 processes, 16 descriptors a process.

A `uint32_t` is a natural number below `2 ^ 32`. A record's fields keep that
bound because they are read off four bytes each, and storing a value reduces
it, so nothing else has to be said about it.
-/

namespace MiniOs.Fs

open MiniOs.Lib

/-- One sector, or a buffer that holds one: the offsets below 512 matter. -/
abbrev Sector := Region

/-- The block device, sector by sector. -/
abbrev Disk := Nat → Sector

/-- `block_read`: a sector past the device is refused, every other one is read
(`BlockDevice::execute` reports an error for nothing else). -/
def blockRead (d : Disk) (sector : Nat) : Option Sector :=
  if sector < 16384 then some (d sector) else none

/-- `block_write`, with the same range check. -/
def blockWrite (d : Disk) (sector : Nat) (buffer : Sector) : Option Disk :=
  if sector < 16384 then some (Function.update d sector buffer) else none

theorem blockRead_of_lt {d : Disk} {sector : Nat} (h : sector < 16384) :
    blockRead d sector = some (d sector) := if_pos h

theorem blockWrite_of_lt {d : Disk} {sector : Nat} {buffer : Sector}
    (h : sector < 16384) :
    blockWrite d sector buffer = some (Function.update d sector buffer) := if_pos h

/-! ## Inodes -/

/-- `struct minifs_inode`. -/
structure Inode where
  mode : Nat
  size : Nat
  parent : Nat
  links : Nat
  direct : Fin 10 → Nat
  indirect : Nat
  reserved : Nat

namespace Inode

/-- An inode of zero bytes. -/
def zero : Inode := ⟨0, 0, 0, 0, fun _ => 0, 0, 0⟩

/-- The sixteen words of the record, in the order of its fields. -/
def word (inode : Inode) (k : Nat) : Nat :=
  if k = 0 then inode.mode
  else if k = 1 then inode.size
  else if k = 2 then inode.parent
  else if k = 3 then inode.links
  else if h : k - 4 < 10 then inode.direct ⟨k - 4, h⟩
  else if k = 14 then inode.indirect
  else inode.reserved

/-- The record sixteen words spell. -/
def ofWords (w : Nat → Nat) : Inode :=
  ⟨w 0, w 1, w 2, w 3, fun i => w (4 + i), w 14, w 15⟩

/-- The inode a `copy_bytes` out of a buffer leaves in the local variable. -/
def decode (r : Region) (off : Nat) : Inode := ofWords fun k => r.word (off + 4 * k)

/-- The buffer after a `copy_bytes` of the inode into it. -/
def encode (r : Region) (off : Nat) (inode : Inode) : Region :=
  r.putWords off 16 inode.word

/-- Every field is a `uint32_t`. -/
structure Fits (inode : Inode) : Prop where
  mode : inode.mode < 2 ^ 32
  size : inode.size < 2 ^ 32
  parent : inode.parent < 2 ^ 32
  links : inode.links < 2 ^ 32
  direct : ∀ i, inode.direct i < 2 ^ 32
  indirect : inode.indirect < 2 ^ 32
  reserved : inode.reserved < 2 ^ 32

@[ext] theorem ext' {a b : Inode} (hmode : a.mode = b.mode) (hsize : a.size = b.size)
    (hparent : a.parent = b.parent) (hlinks : a.links = b.links)
    (hdirect : a.direct = b.direct) (hindirect : a.indirect = b.indirect)
    (hreserved : a.reserved = b.reserved) : a = b := by
  cases a
  cases b
  simp_all

theorem word_direct (inode : Inode) (i : Fin 10) :
    inode.word (4 + i) = inode.direct i := by
  have hi := i.isLt
  unfold word
  rw [if_neg (by omega), if_neg (by omega), if_neg (by omega), if_neg (by omega),
    dif_pos (by omega)]
  congr 1
  exact Fin.ext (by simp)

theorem ofWords_word (inode : Inode) : ofWords inode.word = inode := by
  refine ext' rfl rfl rfl rfl ?_ rfl rfl
  funext i
  exact word_direct inode i

theorem ofWords_congr {w w' : Nat → Nat} (h : ∀ k, k < 16 → w k = w' k) :
    ofWords w = ofWords w' := by
  refine ext' (h 0 ?_) (h 1 ?_) (h 2 ?_) (h 3 ?_) ?_ (h 14 ?_) (h 15 ?_)
  any_goals omega
  funext i
  exact h (4 + i) (by omega)

theorem Fits.word_lt {inode : Inode} (h : inode.Fits) (k : Nat) :
    inode.word k < 2 ^ 32 := by
  unfold word
  repeat' split
  · exact h.mode
  · exact h.size
  · exact h.parent
  · exact h.links
  · exact h.direct _
  · exact h.indirect
  · exact h.reserved

/-- What comes out of a buffer fits. -/
theorem fits_decode (r : Region) (off : Nat) : (decode r off).Fits :=
  ⟨r.word_lt _, r.word_lt _, r.word_lt _, r.word_lt _, fun _ => r.word_lt _,
    r.word_lt _, r.word_lt _⟩

theorem fits_zero : zero.Fits :=
  ⟨Nat.two_pow_pos _, Nat.two_pow_pos _, Nat.two_pow_pos _, Nat.two_pow_pos _,
    fun _ => Nat.two_pow_pos _, Nat.two_pow_pos _, Nat.two_pow_pos _⟩

/-- The write and the read agree on the layout of the record. -/
theorem decode_encode {r : Region} {off : Nat} {inode : Inode} (h : inode.Fits) :
    decode (encode r off inode) off = inode := by
  have hword : ∀ k, k < 16 →
      (encode r off inode).word (off + 4 * k) = inode.word k := by
    intro k hk
    unfold encode
    rw [Region.word_putWords hk, Nat.mod_eq_of_lt (h.word_lt k)]
  rw [show decode (encode r off inode) off = ofWords inode.word from
    ofWords_congr hword, ofWords_word]

/-- An inode elsewhere in the sector is not touched. -/
theorem decode_encode_ne {r : Region} {off off' : Nat} {inode : Inode}
    (h : off' + 64 ≤ off ∨ off + 64 ≤ off') :
    decode (encode r off inode) off' = decode r off' :=
  ofWords_congr fun k hk => Region.word_putWords_ne (by omega)

end Inode

/-! ## C strings

A string is the list of its bytes up to the terminating NUL. A character array
is a longer list, of which `cstr` reads the string. -/

/-- `'/'`. -/
def slash : UInt8 := 47

/-- `'.'`. -/
def dot : UInt8 := 46

/-- The string in a character array: what stands before the first NUL. -/
def cstr (l : List UInt8) : List UInt8 := l.takeWhile (· != 0)

/-- A string argument, by the bytes before its terminator. -/
structure CStr where
  bytes : List UInt8
  noNul : 0 ∉ bytes

/-- The bytes of a `const char *` argument. `NULL` reads as the empty string:
`str_len` answers 0 for it, and every function that tests for it gives an empty
path the same answer. -/
def pathBytes : Option CStr → List UInt8
  | none => []
  | some path => path.bytes

theorem pathBytes_noNul (path : Option CStr) : 0 ∉ pathBytes path := by
  cases path with
  | none => exact List.not_mem_nil
  | some path => exact path.noNul

/-- `str_equal`: byte by byte until the two differ or both end. Past the end of
a list stands its terminator. -/
def strEqual : List UInt8 → List UInt8 → Bool
  | [], [] => true
  | [], b :: _ => b == 0
  | a :: _, [] => a == 0
  | a :: as, b :: bs =>
    if a == b then (if a == 0 then true else strEqual as bs) else false

theorem strEqual_iff : ∀ {a b : List UInt8}, strEqual a b = true ↔ cstr a = cstr b
  | [], [] => by simp [strEqual, cstr]
  | [], b :: bs => by
      by_cases hb : b = 0 <;> simp [strEqual, cstr, hb]
  | a :: as, [] => by
      by_cases ha : a = 0 <;> simp [strEqual, cstr, ha]
  | a :: as, b :: bs => by
      have ih := strEqual_iff (a := as) (b := bs)
      rw [cstr, cstr] at ih
      by_cases hab : a = b
      · subst hab
        by_cases ha : a = 0
        · simp [strEqual, cstr, ha]
        · simp [strEqual, cstr, ha, ih]
      · by_cases ha : a = 0
        · subst ha
          have hb : b ≠ 0 := fun h => hab h.symm
          simp [strEqual, cstr, hab, hb]
        · by_cases hb : b = 0 <;> simp [strEqual, cstr, hab, ha, hb]

/-- A string is its own reading. -/
theorem cstr_noNul (l : List UInt8) : 0 ∉ cstr l := by
  intro hin
  have hne := List.mem_takeWhile_imp hin
  simp at hne

theorem cstr_of_noNul {l : List UInt8} (h : 0 ∉ l) : cstr l = l := by
  unfold cstr
  rw [List.takeWhile_eq_self_iff]
  intro x hx
  simp only [bne_iff_ne]
  rintro rfl
  exact h hx

/-! ## Directory entries -/

/-- `struct minifs_dirent`, with the 56 bytes of its name field. -/
structure Dirent where
  inode : Nat
  mode : Nat
  name : List UInt8

namespace Dirent

/-- The entry at an offset of a buffer. -/
def decode (r : Region) (off : Nat) : Dirent :=
  ⟨r.word off, r.word (off + 4), (List.range 56).map fun i => r (off + 8 + i)⟩

/-- How `dir_add` fills an entry: zero the record, store the two words, copy the
name with its terminator. -/
def put (r : Region) (off child mode : Nat) (name : List UInt8) : Region :=
  let r := r.blit off Region.zero 64
  let r := r.putWord off child
  let r := r.putWord (off + 4) mode
  r.blit (off + 8) (fun i => name.getD i 0) (name.length + 1)

/-- How `dir_remove` clears one: only the inode word changes. -/
def bury (r : Region) (off : Nat) : Region := r.putWord off 0xffffffff

/-- The entry is in use: `dir_remove` marks a free one with all ones. -/
def Live (e : Dirent) : Prop := e.inode ≠ 0xffffffff

instance (e : Dirent) : Decidable e.Live := inferInstanceAs (Decidable (_ ≠ _))

theorem decode_congr {r r' : Region} {off : Nat}
    (h : ∀ i, off ≤ i → i < off + 64 → r i = r' i) : decode r off = decode r' off := by
  have hinode : r.word off = r'.word off :=
    Region.word_congr fun i h1 h2 => h i (by omega) (by omega)
  have hmode : r.word (off + 4) = r'.word (off + 4) :=
    Region.word_congr fun i h1 h2 => h i (by omega) (by omega)
  unfold decode
  rw [hinode, hmode]
  congr 1
  refine List.map_congr_left fun i hi => h _ (by omega) ?_
  rw [List.mem_range] at hi
  omega

theorem put_out {r : Region} {off child mode i : Nat} {name : List UInt8}
    (hname : name.length ≤ 55) (h : i < off ∨ off + 64 ≤ i) :
    put r off child mode name i = r i := by
  unfold put Region.putWord Region.putWords
  rw [Region.blit_out (by omega), if_neg (by omega), if_neg (by omega),
    Region.blit_out (by omega)]

theorem decode_put_ne {r : Region} {off off' child mode : Nat} {name : List UInt8}
    (hname : name.length ≤ 55) (h : off' + 64 ≤ off ∨ off + 64 ≤ off') :
    decode (put r off child mode name) off' = decode r off' :=
  decode_congr fun i h1 h2 => put_out hname (by omega)

theorem decode_put (r : Region) (off child mode : Nat) {name : List UInt8}
    (hname : name.length ≤ 55) :
    decode (put r off child mode name) off =
      ⟨child % 2 ^ 32, mode % 2 ^ 32, (List.range 56).map fun i => name.getD i 0⟩ := by
  unfold decode put
  dsimp only
  rw [Region.word_blit_out (by omega), Region.word_putWord_ne (by omega),
    Region.word_putWord, Region.word_blit_out (by omega), Region.word_putWord]
  congr 1
  refine List.map_congr_left fun i hi => ?_
  rw [List.mem_range] at hi
  rcases Nat.lt_or_ge i (name.length + 1) with hlt | hge
  · rw [Region.blit_in (by omega) (by omega), show off + 8 + i - (off + 8) = i by omega]
  · rw [Region.blit_out (by omega), List.getD_eq_default _ _ (by omega)]
    unfold Region.putWord Region.putWords
    rw [if_neg (by omega), if_neg (by omega), Region.blit_in (by omega) (by omega)]
    rfl

theorem decode_bury (r : Region) (off : Nat) :
    decode (bury r off) off = { decode r off with inode := 0xffffffff } := by
  unfold decode bury
  rw [Region.word_putWord, Region.word_putWord_ne (by omega)]
  have hname : ∀ i, r.putWord off 4294967295 (off + 8 + i) = r (off + 8 + i) := by
    intro i
    unfold Region.putWord Region.putWords
    rw [if_neg (by omega)]
  simp only [hname, Nat.reducePow, Nat.reduceMod]

theorem decode_bury_ne {r : Region} {off off' : Nat}
    (h : off' + 64 ≤ off ∨ off + 64 ≤ off') :
    decode (bury r off) off' = decode r off' := by
  refine decode_congr fun i h1 h2 => ?_
  unfold bury Region.putWord Region.putWords
  rw [if_neg (by omega)]

/-- A name that leaves room for its terminator reads back as itself. -/
theorem cstr_name {name : List UInt8} (hname : name.length ≤ 55) (hnul : 0 ∉ name) :
    cstr ((List.range 56).map fun i => name.getD i 0) = name := by
  have hsplit : ((List.range 56).map fun i => name.getD i 0) =
      name ++ List.replicate (56 - name.length) 0 := by
    refine List.ext_getElem (by simp; omega) fun i h1 h2 => ?_
    rw [List.getElem_map, List.getElem_range]
    rcases Nat.lt_or_ge i name.length with hlt | hge
    · rw [List.getElem_append_left hlt, List.getD_eq_getElem _ _ hlt]
    · rw [List.getElem_append_right hge, List.getElem_replicate,
        List.getD_eq_default _ _ hge]
  rw [hsplit, show 56 - name.length = (55 - name.length) + 1 by omega,
    List.replicate_succ]
  unfold cstr
  rw [List.takeWhile_append_of_pos]
  · simp
  · intro x hx
    simp only [bne_iff_ne]
    rintro rfl
    exact hnul hx

end Dirent
end MiniOs.Fs

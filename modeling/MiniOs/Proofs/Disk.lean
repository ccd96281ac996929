import MiniOs.Proofs.Calls
import MiniOs.Proofs.Mount

/-!
# Every call keeps the disk sound

No assumption about the tree of names goes in here: whatever the arguments are,
however broken the directories a path leads through, a call leaves every block
with one owner, the bitmap cache equal to the bitmap, and the sectors that are
not the file system's alone. `Sealed` says so about two states, and each call
earns it from the case lemma of the function behind it.
-/

namespace MiniOs.Fs

open MiniOs.Lib MiniOs.Spec MiniOs.Tools

/-- `s'` is sound, and agrees with `s` outside the file system's own sectors. -/
structure Sealed (s s' : FsSt) : Prop where
  sound : s'.Sound
  outside : ∀ c, c = 0 ∨ 15360 ≤ c → s'.disk c = s.disk c

section Sealed

variable {s s₁ s₂ : FsSt}

theorem Sealed.of_store (h : s.Sound) (hstore : s₁.toStore = s.toStore) : Sealed s s₁ :=
  ⟨hstore ▸ h, fun _ _ => by rw [hstore]⟩

theorem Sealed.trans (h1 : Sealed s s₁) (h2 : Sealed s₁ s₂) : Sealed s s₂ :=
  ⟨h2.sound, fun c hc => (h2.outside c hc).trans (h1.outside c hc)⟩

theorem Sealed.withBuffer {b : Region} (h : Sealed (s.withBuffer b) s₁) : Sealed s s₁ :=
  ⟨h.sound, h.outside⟩

theorem Becomes.sealed {V : Volume} {ok : Prop} (h : Becomes s s₁ V ok) : Sealed s s₁ :=
  ⟨h.sound, h.outside⟩

end Sealed

/-! ## The calls, edit by edit -/

/-- What the calls about names do to a volume. The inodes that are erased or change their
bit are among `P`; the other edits are made to directories. -/
inductive Edits (P : Nat → Prop) (V : Volume) : Volume → Prop
  | refl : Edits P V V
  | erase {V' : Volume} {n : Nat} {node : Node} (h : Edits P V V') (hn : P n)
      (hsize : node.size = 0) : Edits P V ((V'.clear n).setNode n node)
  | setIbit {V' : Volume} {n : Nat} (h : Edits P V V') (hn : P n) (b : Bool) :
      Edits P V (V'.setIbit n b)
  | addEntry {V' : Volume} {n : Nat} (h : Edits P V V') (hdir : (V'.node n).IsDir)
      (index child mode : Nat) (name : List UInt8) :
      Edits P V (V'.addEntry n index child mode name)
  | bury {V' : Volume} {n : Nat} (h : Edits P V V') (hdir : (V'.node n).IsDir) (index : Nat) :
      Edits P V (V'.bury n index)

theorem Edits.trans {P : Nat → Prop} {V V₁ V₂ : Volume} (h1 : Edits P V V₁)
    (h2 : Edits P V₁ V₂) : Edits P V V₂ := by
  induction h2 with
  | refl => exact h1
  | erase _ hn hsize ih => exact .erase ih hn hsize
  | setIbit _ hn b ih => exact .setIbit ih hn b
  | addEntry _ hdir index child mode name ih => exact .addEntry ih hdir index child mode name
  | bury _ hdir index ih => exact .bury ih hdir index

/-- `s'` is `s` after such edits. -/
structure Edited (P : Nat → Prop) (s s' : FsSt) : Prop extends Sealed s s' where
  edits : Edits P s.volume s'.volume

/-- The call empties file `n`: an `open` that passes its checks and has `O_TRUNC`. -/
def Truncates (s : FsSt) (call : Call) (n : Nat) : Prop :=
  ∃ pid cwd path flags, call = .open pid cwd path flags ∧
    findProcess s.toFdTables pid ≠ none ∧ badFlags flags = false ∧ wantsTrunc flags = true ∧
    s.volume.resolve cwd (pathBytes path) = some n

/-- The call is an unlink that takes inode `k` away. -/
def Removes (s : FsSt) (call : Call) (k : Nat) : Prop :=
  ∃ cwd path parent name, call = .unlink cwd path ∧ Unlinkable s cwd (pathBytes path) parent name k

/-- The inodes a call may erase. -/
def Erasable (s : FsSt) (call : Call) (n : Nat) : Prop :=
  s.volume.ibit n = false ∨ Truncates s call n ∨ Removes s call n

section Calls

variable {s s₁ s₂ : FsSt} {P : Nat → Prop}

theorem Edited.of_store (h : s.Sound) (hstore : s₁.toStore = s.toStore) : Edited P s s₁ :=
  ⟨.of_store h hstore, congrArg Store.volume hstore ▸ .refl⟩

theorem Edited.trans (h1 : Edited P s s₁) (h2 : Edited P s₁ s₂) : Edited P s s₂ :=
  ⟨h1.toSealed.trans h2.toSealed, h1.edits.trans h2.edits⟩

theorem Edited.withBuffer {b : Region} (h : Edited P (s.withBuffer b) s₁) : Edited P s s₁ :=
  ⟨h.toSealed.withBuffer, h.edits⟩

theorem Becomes.edited {V : Volume} {ok : Prop} (h : Becomes s s₁ V ok)
    (he : Edits P s.volume V) : Edited P s s₁ :=
  ⟨h.sealed, h.volume ▸ he⟩

theorem createNode_edited (h : s.Sound) {parent mode : Nat} (name : List UInt8)
    (hp : parent < 2 ^ 32) (hm : mode < 2 ^ 32) (hfree : ∀ k, s.volume.ibit k = false → P k) :
    Edited P s (createNode s parent name mode).1 := by
  rcases createNode_cases h name hp hm with
    ⟨s', hc, hb, -⟩ | ⟨s', k, -, -, hk, hc, hb, -⟩ | ⟨s', k, index, -, -, hk, hc, hadd, hb⟩
  · rw [hc]
    exact hb.edited .refl
  · rw [hc]
    exact hb.edited (.erase .refl (hfree k hk) rfl)
  · rw [hc]
    have hplant : Edits P s.volume (s.volume.plant k (freshInode mode parent).node) :=
      .erase (.setIbit .refl (hfree k hk) true) (hfree k hk) rfl
    exact hb.edited (.addEntry hplant hadd.dir ..)

/-- An `open` finds what was there, or makes an inode that was free. -/
theorem openTarget_edited (h : s.Sound) (cwd : Nat) (path : List UInt8) (flags : BitVec 32)
    (hfree : ∀ k, s.volume.ibit k = false → P k) :
    Edited P s (openTarget s cwd path flags).1 ∧
      ∀ m, (openTarget s cwd path flags).2 = some m →
        s.volume.resolve cwd path = some m ∨ s.volume.ibit m = false := by
  rcases openTarget_cases s cwd path flags with
    ⟨b, hc, -⟩ | ⟨b, parent, name, -, -, htarget, hc⟩
  · rw [hc]
    exact ⟨.of_store h rfl, fun m => Or.inl⟩
  rw [hc]
  have hp := resolveParent_lt htarget
  refine ⟨(@createNode_edited (s.withBuffer b) P h parent 1 name (by omega) (by decide)
    hfree).withBuffer, fun m hm => Or.inr ?_⟩
  rcases @createNode_cases (s.withBuffer b) 1 parent h name (by omega) (by decide) with
    ⟨s', hcn, -⟩ | ⟨s', k, -, -, -, hcn, -⟩ | ⟨s', k, index, -, -, hk, hcn, -⟩
  all_goals
    rw [hcn] at hm
    cases hm
  exact hk

theorem openTruncate_edited (h : s.Sound) (n : Nat) (flags : BitVec 32)
    (htrunc : wantsTrunc flags = true → P n) : Edited P s (openTruncate s n flags).1 := by
  rcases openTruncate_cases h n flags with
    ⟨b, hc, -⟩ | ⟨b, -, -, -, hc⟩ | ⟨s', -, -, hwants, hc, hb⟩
  · rw [hc]
    exact .of_store h rfl
  · rw [hc]
    exact .of_store h rfl
  · rw [hc]
    exact hb.edited (.erase .refl (htrunc hwants) rfl)

theorem minifsOpen_edited (h : s.Sound) (pid : Int) (cwd : Nat) (path : Option CStr)
    (flags : BitVec 32) :
    Edited (Erasable s (.open pid cwd path flags)) s (minifsOpen s pid cwd path flags).1 := by
  rcases minifsOpen_cases s pid cwd path flags with ⟨hc, -⟩ | ⟨p, hp, hbad, hc⟩
  · rw [hc]
    exact .of_store h rfl
  obtain ⟨htarget, hsome⟩ := @openTarget_edited s (Erasable s (.open pid cwd path flags)) h cwd
    (pathBytes path) flags fun k => Or.inl
  rcases hc with ⟨s₁, heq, hc⟩ | ⟨s₁, n, heq, hc⟩
  · rw [heq] at htarget
    rw [hc]
    exact htarget
  rw [heq] at htarget hsome
  have htrunc := htarget.trans (openTruncate_edited htarget.sound n flags fun hwants =>
    (hsome n rfl).symm.imp_right fun hresolve => Or.inl ⟨pid, cwd, path, flags, rfl,
      by rw [hp]; exact Option.some_ne_none p, hbad, hwants, hresolve⟩)
  rcases hc with ⟨s₂, heq, hc⟩ | ⟨s₂, inode, heq, hc⟩
  · rw [heq] at htrunc
    rw [hc]
    exact htrunc
  · rw [heq] at htrunc
    rw [hc]
    exact htrunc.trans (.of_store htrunc.sound rfl)

theorem minifsMkdir_edited (h : s.Sound) (cwd : Nat) (path : Option CStr) :
    Edited (Erasable s (.mkdir cwd path)) s (minifsMkdir s cwd path).1 := by
  rcases minifsMkdir_cases s cwd path with ⟨b, hc, -⟩ | ⟨b, parent, name, htarget, hc⟩
  · rw [hc]
    exact .of_store h rfl
  · rw [hc]
    have hp := resolveParent_lt htarget
    exact (@createNode_edited (s.withBuffer b) _ h parent 2 name (by omega) (by decide)
      fun k => Or.inl).withBuffer

/-- Only a directory has names to look up. -/
theorem isDir_of_lookup {V : Volume} {n k : Nat} {name : List UInt8}
    (h : V.lookup n name = some k) : (V.node n).IsDir := by
  unfold Volume.lookup at h
  split at h
  · next hdir => exact hdir.2
  · cases h

theorem minifsUnlink_edited (h : s.Sound) (cwd : Nat) (path : Option CStr) :
    Edited (Erasable s (.unlink cwd path)) s (minifsUnlink s cwd path).1 := by
  rcases minifsUnlink_cases s cwd path with ⟨⟨b, hc⟩, -⟩ | ⟨b, parent, name, k, hu, hc⟩
  · rw [hc]
    exact .of_store h rfl
  have hk : Erasable s (.unlink cwd path) k := .inr (.inr ⟨cwd, path, parent, name, rfl, hu⟩)
  have herase : Edits (Erasable s (.unlink cwd path)) s.volume
      ((s.volume.clear k).setNode k Node.zero) := .erase .refl hk rfl
  rw [hc]
  refine Edited.withBuffer (b := b) ?_
  rcases @unlinkInode_cases (s.withBuffer b) k h hu.pos hu.lt parent name with
    ⟨s', hun, -, hb⟩ | ⟨s', j, e, hun, -, hfound, hb⟩
  · rw [show unlinkInode (s.withBuffer b) parent name k (s.table k) = (s', false) from hun]
    exact hb.edited herase
  rw [show unlinkInode (s.withBuffer b) parent name k (s.table k) = (s', true) from hun]
  -- the name was found after the inode was cleared, so it is in another one
  have hpk : parent ≠ k := by
    rintro rfl
    have hcount : ((s.volume.clear parent).setNode parent Node.zero).count parent = 0 := by
      rw [Volume.count, Volume.setNode_node, Function.update_self]
      rfl
    rw [FsSt.withBuffer_toStore, hcount] at hfound
    cases hfound
  refine hb.edited (.setIbit (.bury herase ?_ j) hk false)
  rw [Volume.setNode_node, Function.update_of_ne hpk, Volume.clear_node]
  exact isDir_of_lookup hu.found

theorem minifsWrite_sealed (h : s.Sound) (pid fd : Int) (buffer : Option Region)
    (length : Nat) : Sealed s (minifsWrite s pid fd buffer length).1 := by
  rcases minifsWrite_cases h pid fd buffer length with
    ⟨s', r, hc, hstore, -, -⟩ | ⟨i, buf, s', done, -, -, hw, hc⟩
  · rw [hc]
    exact Sealed.of_store h hstore
  · rw [hc]
    obtain ⟨s₁, hstore, -, hb⟩ := hw.becomes
    exact (Sealed.of_store h hstore).trans (hb.sealed.trans (Sealed.of_store hb.sound rfl))

/-- Every call but a write is a series of edits. -/
theorem step_edited (h : s.Sound) {call : Call}
    (hwrite : ∀ pid fd buffer length, call ≠ .write pid fd buffer length) :
    Edited (Erasable s call) s (step s call) := by
  cases call with
  | «open» pid cwd path flags => exact minifsOpen_edited h pid cwd path flags
  | write pid fd buffer length => exact absurd rfl (hwrite pid fd buffer length)
  | mkdir cwd path => exact minifsMkdir_edited h cwd path
  | unlink cwd path => exact minifsUnlink_edited h cwd path
  | _ => exact .of_store h (step_store trivial)

/-- Whatever is called, with whatever arguments. -/
theorem step_sealed (h : s.Sound) (call : Call) : Sealed s (step s call) := by
  cases call with
  | write pid fd buffer length => exact minifsWrite_sealed h pid fd buffer length
  | _ => exact (step_edited h (by simp)).toSealed

theorem runCalls_sealed (h : s.Sound) (calls : List Call) : Sealed s (runCalls s calls) :=
  @run_inv _ _ step (Sealed s) (fun _ call hs => hs.trans (step_sealed hs.sound call)) s
    (Sealed.of_store h rfl) calls

end Calls

/-- From any image the builder makes, through any calls: every block number an
inode in use holds lies in the data area, occurs once and is marked in
`bitmap_buffer`; the buffer is what sectors 2 to 5 hold; and the superblock and
the kernel slot are as they were at mount. -/
theorem runCalls_blocks_owned_once (img : Image) (slot : Disk) (s₀ : FsSt)
    (calls : List Call) :
    let mounted := img.mount slot s₀
    let s := runCalls mounted calls
    (∀ n p, s.ibit n = true → slotPtr s.disk (s.table n) p ≠ 0 →
      38 ≤ slotPtr s.disk (s.table n) p ∧ slotPtr s.disk (s.table n) p < 15360) ∧
    (∀ n p m q, s.ibit n = true → s.ibit m = true → slotPtr s.disk (s.table n) p ≠ 0 →
      slotPtr s.disk (s.table n) p = slotPtr s.disk (s.table m) q → n = m ∧ p = q) ∧
    (∀ n p, s.ibit n = true → slotPtr s.disk (s.table n) p ≠ 0 →
      bitmapTest s.bitmapBuffer (slotPtr s.disk (s.table n) p) = true) ∧
    (∀ k, k < 2048 → s.bitmapBuffer k = s.disk (2 + k / 512) (k % 512)) ∧
    (∀ sector, ¬ (1 ≤ sector ∧ sector ≤ 15359) → s.disk sector = mounted.disk sector) := by
  intro mounted s
  have hsealed : Sealed mounted s := runCalls_sealed (img.mount_sound slot s₀) calls
  have howned := hsealed.sound.owned
  refine ⟨fun n p _ hne => howned.real (owner_of_ne hne), fun n p m q _ _ hne heq => ?_,
    fun n p _ hne => howned.marked (owner_of_ne hne), hsealed.sound.coherent,
    fun sector hs => hsealed.outside sector (by omega)⟩
  have hk := howned.unique (owner_of_ne hne) (heq ▸ owner_of_ne (heq ▸ hne))
  simpa only [Prod.mk.injEq] using hk

/-! ## Reboots -/

/-- The device after some sessions. Each boots with anything in its memory, mounts
what the last one left and serves some calls. -/
def runSessions (d : Disk) (sessions : List (FsSt × List Call)) : Disk :=
  run (fun d p => (runCalls (minifsInit { p.1 with disk := d }).1 p.2).disk) d sessions

/-- What a session left is mounted, and the cache of the bitmap comes back. -/
theorem minifsInit_sealed {m s : FsSt} (h : Sealed m s) (hsuper : superOk (m.disk 0) = true)
    (s₀ : FsSt) : ∃ s', minifsInit { s₀ with disk := s.disk } = (s', true) ∧
      s'.disk = s.disk ∧ Sealed m s' := by
  rw [← h.outside 0 (Or.inl rfl)] at hsuper
  obtain ⟨r, hbytes, hinit⟩ := minifsInit_eq hsuper s₀
  have howned := h.sound.owned
  refine ⟨_, hinit, rfl, ⟨⟨howned.real, fun {k c} hk => ?_, howned.unique⟩, hbytes⟩, h.outside⟩
  have hlt := (howned.real hk).2
  have hbyte := (hbytes (c / 8) (by omega)).trans (h.sound.coherent _ (by omega)).symm
  exact (Region.testBit_congr hbyte).trans (howned.marked hk)

/-- Whatever is called and however often the machine restarts, the device can be mounted:
every block has one owner, and the superblock and the kernel slot are the image's. -/
theorem runSessions_mountable (img : Image) (slot : Disk) (sessions : List (FsSt × List Call))
    (s₀ : FsSt) :
    let d := runSessions (img.disk slot) sessions
    ∃ s, minifsInit { s₀ with disk := d } = (s, true) ∧ s.disk = d ∧
      Sealed (img.mount slot s₀) s := by
  intro d
  have hsuper : superOk ((img.mount slot s₀).disk 0) = true := by
    rw [img.mount_disk]
    exact img.builder.superOk_sectors
  obtain ⟨s, hs, hdisk⟩ : ∃ s, Sealed (img.mount slot s₀) s ∧ s.disk = d := by
    refine @run_inv _ _ _ (fun d => ∃ s, Sealed (img.mount slot s₀) s ∧ s.disk = d) ?_ _
      ⟨_, .of_store (img.mount_sound slot s₀) rfl, img.mount_disk slot s₀⟩ sessions
    rintro _ ⟨s₁, calls⟩ ⟨s, hs, rfl⟩
    obtain ⟨s', hinit, -, hs'⟩ := minifsInit_sealed hs hsuper s₁
    rw [hinit]
    exact ⟨_, hs'.trans (runCalls_sealed hs'.sound calls), rfl⟩
  rw [← hdisk]
  exact minifsInit_sealed hs hsuper s₀

end MiniOs.Fs

import MiniOs.Proofs.ChunkedWrites
import MiniOs.Proofs.WorkingDirs

/-!
# Appending to a file

A write through a descriptor with `O_APPEND` starts at the size the inode has at that
moment, whatever the offset of the descriptor is and whoever shares it. So what a file
holds after any turns is what it held before and then what each `write` handed over, in
the order of the turns, as much of it as the call returned.

That one `sys_write` extends the file by what it returns is `sysWriteLoop_lands`: the
pieces do not show. Everything else a process can do spares the file, as long as it
neither empties nor removes it. An `open` that creates a file takes an inode that was
free, and names go to directories.
-/

namespace MiniOs.Fs

open MiniOs.Lib MiniOs.Spec

/-! ## Calls that leave a file alone -/

/-- File `n` is as it was. -/
structure Spared (s s' : FsSt) (n : Nat) : Prop where
  same : s'.volume.SameAt s.volume n
  used : s'.volume.ibit n = s.volume.ibit n

section Spared

variable {s s₁ s₂ : FsSt} {n : Nat}

theorem Spared.of_volume (h : s₁.volume = s.volume) : Spared s s₁ n :=
  ⟨h ▸ ⟨rfl, rfl⟩, h ▸ rfl⟩

theorem Spared.of_store (h : s₁.toStore = s.toStore) : Spared s s₁ n :=
  .of_volume (congrArg Store.volume h)

theorem Spared.trans (h1 : Spared s s₁ n) (h2 : Spared s₁ s₂ n) : Spared s s₂ n :=
  ⟨h2.same.trans h1.same, h2.used.trans h1.used⟩

/-- Edits of other inodes and of directories leave a file alone. -/
theorem Edits.spared {P : Nat → Prop} {V V' : Volume} (h : Edits P V V') (hn : ¬ P n)
    (hfile : (V.node n).IsFile) : V'.SameAt V n ∧ V'.ibit n = V.ibit n := by
  have hne : ∀ {m}, P m → n ≠ m := by
    rintro m hm rfl
    exact hn hm
  induction h with
  | refl => exact ⟨⟨rfl, rfl⟩, rfl⟩
  | erase _ hm _ ih =>
    exact ⟨((Volume.sameAt_setNode (hne hm) _).trans (Volume.sameAt_clear (hne hm))).trans ih.1,
      ih.2⟩
  | setIbit _ hm b ih =>
    exact ⟨(Volume.sameAt_setIbit _ b).trans ih.1, (Function.update_of_ne (hne hm) ..).trans ih.2⟩
  | addEntry _ hdir index child mode name ih =>
    have hother : n ≠ _ := fun heq => not_isFile_of_isDir (heq ▸ hdir) (ih.1.1 ▸ hfile)
    exact ⟨((Volume.sameAt_setNode hother _).trans (Volume.sameAt_setBlock hother)).trans ih.1,
      ih.2⟩
  | bury _ hdir index ih =>
    have hother : n ≠ _ := fun heq => not_isFile_of_isDir (heq ▸ hdir) (ih.1.1 ▸ hfile)
    exact ⟨(Volume.sameAt_setBlock hother).trans ih.1, ih.2⟩

variable {cwd : Nat} {flags : BitVec 32}

/-- A call that can change a name spares a file that it neither empties nor removes. -/
theorem step_spared (h : s.Sound) (hn : s.volume.ibit n = true)
    (hfile : (s.volume.node n).IsFile) {call : Call} (hno : ¬ Truncates s call n)
    (hkeep : ¬ Removes s call n) (hwrite : ∀ pid fd buffer length, call ≠ .write pid fd buffer length) :
    Spared s (step s call) n := by
  have herase : ¬ Erasable s call n := by
    rintro (hfree | htrunc | hremoves)
    · exact Bool.false_ne_true (hfree.symm.trans hn)
    · exact hno htrunc
    · exact hkeep hremoves
  obtain ⟨hsame, hused⟩ := (step_edited h hwrite).edits.spared herase hfile
  exact ⟨hsame, hused⟩

/-- So does a write through a descriptor of another file, or of none. -/
theorem minifsWrite_spared (h : s.Sound) {pid fd : Int}
    (hother : ∀ i, Writable s pid fd i → (s.openFiles i).inode ≠ n) (buffer : Option Region)
    (length : Nat) :
    Spared s (minifsWrite s pid fd buffer length).1 n ∧
      SameSlots s.toFdTables (minifsWrite s pid fd buffer length).1.toFdTables := by
  rcases minifsWrite_cases h pid fd buffer length with
    ⟨s', r, hc, hstore, hslots, -⟩ | ⟨i, buf, s', done, hi, -, hw, hc⟩
  · rw [hc]
    exact ⟨.of_store hstore, hslots⟩
  obtain ⟨s₁, -, -, hb⟩ := hw.becomes
  have hvol : s'.volume =
      afterWrite s.volume (s.openFiles i).inode (writeOffset s i) buf done := hb.volume
  rw [hc]
  refine ⟨⟨?_, ?_⟩, hw.slots.trans (sameSlots_setOffset s' i _)⟩
  · show s'.volume.SameAt s.volume n
    rw [hvol]
    exact afterWrite_sameAt (hother i hi).symm
  · show s'.volume.ibit n = s.volume.ibit n
    rw [hvol]
    rfl

theorem SameSlots.writable (h : SameSlots s.toFdTables s₁.toFdTables) {pid fd : Int} {i : Fin 64}
    (hw : Writable s₁ pid fd i) :
    Writable s pid fd i ∧ (s₁.openFiles i).inode = (s.openFiles i).inode := by
  have hentry := h.entry i
  refine ⟨⟨?_, ?_, ?_⟩, ?_⟩
  · rw [← h.getOpenFile]
    exact hw.open_
  · have hfile := hw.file
    rw [hentry] at hfile
    exact hfile
  · have haccess := hw.access
    rw [hentry] at haccess
    exact haccess
  · rw [hentry]

end Spared

end MiniOs.Fs

namespace MiniOs.Kernel

open MiniOs.Lib MiniOs.Fs MiniOs.Spec MiniOs.Tools

variable {n : Nat} {k : System} {t : Turn}

theorem sysWriteLoop_spared (mem : UserMemory) {pid fd : Int} (userBuffer length : Nat) {fuel : Nat}
    {s : FsSt} {done : Nat} (h : s.Sound)
    (hother : ∀ i, Writable s pid fd i → (s.openFiles i).inode ≠ n) :
    Spared s (sysWriteLoop mem pid fd userBuffer length fuel s done).1 n := by
  induction fuel generalizing s done with
  | zero => exact .of_store rfl
  | succ fuel ih =>
    unfold sysWriteLoop
    split
    · exact .of_store rfl
    dsimp only
    split
    · exact .of_store rfl
    next bytes hcopy =>
      obtain ⟨hspared, hslots⟩ := @minifsWrite_spared s n h pid fd hother
        (some fun i => bytes.getD i 0) (min (length - done) 512)
      have hsound := (minifsWrite_sealed h pid fd (some fun i => bytes.getD i 0)
        (min (length - done) 512)).sound
      split
      · exact hspared
      · split
        · exact hspared
        · refine hspared.trans (ih hsound fun i hi => ?_)
          obtain ⟨hw, hinode⟩ := hslots.writable hi
          rw [hinode]
          exact hother i hw

/-! ## What a turn appends -/

/-- The bytes a turn hands to file `n`: of a `write` through a descriptor of the file, as many
bytes of the buffer as it returns. -/
def handed (n : Nat) (k : System) (t : Turn) : Option (List UInt8) :=
  match t.request with
  | .write fd userBuffer length =>
    match getOpenFile k.fs.toFdTables (currentPid k t.current) (toInt fd) with
    | some i =>
      if Runnable (k.tasks t.current) ∧ (k.fs.openFiles i).type = .file ∧
          (k.fs.openFiles i).inode = n then
        (List.range (sysWrite k t.current t.mem fd userBuffer length).2.toNat).mapM fun j =>
          t.mem.read ((userBuffer + j) % 2 ^ 64)
      else some []
    | none => some []
  | _ => some []

/-- The bytes that turns hand to file `n`, in their order. -/
def appended (n : Nat) : System → List Turn → Option (List UInt8)
  | _, [] => some []
  | k, t :: rest => do
      let bytes ← handed n k t
      let others ← appended n (turn k t) rest
      return bytes ++ others

/-- A turn that writes to file `n` by appending only, and neither empties nor removes it. -/
structure AppendsOnly (n : Nat) (k : System) (t : Turn) : Prop where
  append : ∀ fd userBuffer length i, t.request = .write fd userBuffer length →
    getOpenFile k.fs.toFdTables (currentPid k t.current) (toInt fd) = some i →
    (k.fs.openFiles i).type = .file → (k.fs.openFiles i).inode = n →
    wantsAppend (k.fs.openFiles i).flags = true
  keeps : ∀ call, nameCall k t.current t.mem t.request = some call →
    ¬ Truncates k.fs call n ∧ ¬ Removes k.fs call n

section Write

variable {k : System} {current : Fin 16} {mem : UserMemory} {fd userBuffer length : Nat}
  {i : Fin 64} {n : Nat} {data : List UInt8}

theorem sysWrite_refused
    (hopen : getOpenFile k.fs.toFdTables (currentPid k current) (toInt fd) = some i)
    (hfile : (k.fs.openFiles i).type = .file) (haccess : (k.fs.openFiles i).flags &&& 3 = 0) :
    (sysWrite k current mem fd userBuffer length).1 = k ∧
      (sysWrite k current mem fd userBuffer length).2.toNat = 0 := by
  have hrefused : ∀ buffer length, minifsWrite k.fs (currentPid k current) (toInt fd)
      (some buffer) length = (k.fs, -1) := by
    intro buffer length
    unfold minifsWrite
    rw [hopen]
    dsimp only
    rw [if_neg (by rw [hfile]; decide), if_pos (Or.inr haccess)]
  unfold sysWrite
  split
  · exact ⟨rfl, rfl⟩
  next hzero =>
    split
    · exact ⟨rfl, rfl⟩
    obtain ⟨fuel, rfl⟩ := Nat.exists_eq_succ_of_ne_zero hzero
    unfold sysWriteLoop
    rw [if_neg (by omega)]
    dsimp only
    cases copyFromUser mem ((userBuffer + 0) % 2 ^ 64) (min (fuel + 1 - 0) 512) with
    | none => exact ⟨rfl, rfl⟩
    | some bytes =>
      dsimp only
      rw [hrefused]
      exact ⟨rfl, rfl⟩

/-- A `sys_write` through an appending descriptor of a file extends its string. -/
theorem sysWrite_appends (h : k.fs.Sound)
    (hopen : getOpenFile k.fs.toFdTables (currentPid k current) (toInt fd) = some i)
    (hfile : (k.fs.openFiles i).type = .file) (hinode : (k.fs.openFiles i).inode = n)
    (happend : wantsAppend (k.fs.openFiles i).flags = true) (hdata : Reads k.fs.volume n data) :
    ∃ bytes, ((List.range (sysWrite k current mem fd userBuffer length).2.toNat).mapM fun j =>
        mem.read ((userBuffer + j) % 2 ^ 64)) = some bytes ∧
      Reads (sysWrite k current mem fd userBuffer length).1.fs.volume n (data ++ bytes) ∧
      (sysWrite k current mem fd userBuffer length).1.fs.volume.ibit n = k.fs.volume.ibit n := by
  have hnothing : ∀ outcome : System × Int, outcome.1 = k ∧ outcome.2.toNat = 0 →
      ∃ bytes, ((List.range outcome.2.toNat).mapM fun j =>
          mem.read ((userBuffer + j) % 2 ^ 64)) = some bytes ∧
        Reads outcome.1.fs.volume n (data ++ bytes) ∧
        outcome.1.fs.volume.ibit n = k.fs.volume.ibit n := by
    rintro _ ⟨hsame, hcount⟩
    rw [hsame, hcount]
    exact ⟨[], rfl, by rwa [List.append_nil], rfl⟩
  by_cases haccess : (k.fs.openFiles i).flags &&& 3 = 0
  · exact hnothing _ (sysWrite_refused hopen hfile haccess)
  by_cases hempty : length = 0 ∨ userBuffer = 0
  · refine hnothing _ ?_
    unfold sysWrite
    split
    · exact ⟨rfl, rfl⟩
    · next hzero =>
      rw [if_pos (hempty.resolve_left hzero)]
      exact ⟨rfl, rfl⟩
  obtain ⟨hzero, hnull⟩ := not_or.mp hempty
  have hstart : writeOffset k.fs i = data.length := by
    rw [writeOffset, if_pos happend, hinode, hdata.size]
  have hw : Writer k.fs (currentPid k current) (toInt fd) i := by
    refine ⟨⟨hopen, hfile, haccess⟩, ?_, ?_, ?_⟩ <;> rw [hinode]
    · exact hdata.lt
    · exact hdata.file
    · rw [hstart, hdata.size]
  obtain ⟨s', r, hloop, hland, -, hread, -⟩ := @sysWriteLoop_lands k.fs mem (currentPid k current)
    (toInt fd) i userBuffer length length k.fs 0 (Landed.refl h hw _) hw (Nat.zero_le _) (by omega)
    fun j hj => absurd hj (Nat.not_lt_zero j)
  have hcall : sysWrite k current mem fd userBuffer length = ({ k with fs := s' }, r) := by
    rw [sysWrite, if_neg hzero, if_neg hnull, hloop]
  have hvol := hland.volume
  rw [hinode, hstart] at hvol
  rw [hcall]
  refine ⟨(List.range r.toNat).map (userBytes mem userBuffer),
    mapM_of_some fun j hj => hread j (List.mem_range.mp hj), ?_, ?_⟩
  · show Reads s'.volume n _
    have hafter := hdata.afterWrite (Nat.le_refl _) (userBytes mem userBuffer) r.toNat
    rw [splice_length] at hafter
    rwa [hvol]
  · show s'.volume.ibit n = _
    rw [hvol]
    rfl

end Write

/-! ## Turns -/

/-- The turn is a `write` of the running task through a descriptor of file `n`. -/
def TurnWrites (n : Nat) (k : System) (t : Turn) (fd userBuffer length : Nat) (i : Fin 64) : Prop :=
  t.request = .write fd userBuffer length ∧
    getOpenFile k.fs.toFdTables (currentPid k t.current) (toInt fd) = some i ∧
    (k.fs.openFiles i).type = .file ∧ (k.fs.openFiles i).inode = n

theorem handed_of_write {fd userBuffer length : Nat} {i : Fin 64}
    (hrun : Runnable (k.tasks t.current)) (h : TurnWrites n k t fd userBuffer length i) :
    handed n k t =
      (List.range (sysWrite k t.current t.mem fd userBuffer length).2.toNat).mapM fun j =>
        t.mem.read ((userBuffer + j) % 2 ^ 64) := by
  obtain ⟨hreq, hopen, hfile⟩ := h
  unfold handed
  rw [hreq]
  dsimp only
  rw [hopen]
  exact if_pos ⟨hrun, hfile⟩

theorem handed_of_not (h : ¬ (Runnable (k.tasks t.current) ∧
      ∃ fd userBuffer length i, TurnWrites n k t fd userBuffer length i)) :
    handed n k t = some [] := by
  unfold handed
  split
  · next fd userBuffer length hreq =>
    split
    · next i hopen =>
      exact if_neg fun hall => h ⟨hall.1, fd, userBuffer, length, i, hreq, hopen, hall.2⟩
    · rfl
  · rfl

theorem nameCall_ne_write {current : Fin 16} {mem : UserMemory} {request : Request} {call : Call}
    (h : nameCall k current mem request = some call) (pid fd : Int) (buffer : Option Region)
    (length : Nat) : call ≠ .write pid fd buffer length := by
  rintro rfl
  obtain ⟨path, ⟨_, _, -, hne⟩ | ⟨_, -, hne⟩ | ⟨_, -, hne⟩⟩ := nameCall_cases h
  all_goals cases hne

theorem turn_spared (h : k.fs.Sound) (hused : k.fs.volume.ibit n = true)
    (hfile : (k.fs.volume.node n).IsFile) (honly : AppendsOnly n k t)
    (hnot : ¬ (Runnable (k.tasks t.current) ∧
      ∃ fd userBuffer length i, TurnWrites n k t fd userBuffer length i)) :
    Spared k.fs (turn k t).fs n := by
  rw [turn]
  split
  · next hrun =>
    rcases serve_cases k t.current t.mem t.request with
      ⟨call, hcall, hfs⟩ | ⟨fd, userBuffer, length, hreq⟩ | ⟨-, hreach⟩
    · obtain ⟨htrunc, hkeep⟩ := honly.keeps call hcall
      rw [hfs]
      exact step_spared h hused hfile htrunc hkeep (nameCall_ne_write hcall)
    · have hother : ∀ i, Writable k.fs (currentPid k t.current) (toInt fd) i →
          (k.fs.openFiles i).inode ≠ n := fun i hi heq =>
        hnot ⟨hrun, fd, userBuffer, length, i, hreq, hi.open_, hi.file, heq⟩
      rw [hreq]
      simp only [serve, sysWrite]
      split
      · exact .of_store rfl
      · split
        · exact .of_store rfl
        · exact sysWriteLoop_spared t.mem userBuffer length h hother
    · exact .of_store hreach.store
  · exact .of_store rfl

/-- One turn extends the file by what it hands over. -/
theorem turn_appends {data : List UInt8} (h : k.fs.Sound) (hused : k.fs.volume.ibit n = true)
    (hdata : Reads k.fs.volume n data) (honly : AppendsOnly n k t) :
    ∃ bytes, handed n k t = some bytes ∧ Reads (turn k t).fs.volume n (data ++ bytes) ∧
      (turn k t).fs.volume.ibit n = true := by
  by_cases hwrite : Runnable (k.tasks t.current) ∧
      ∃ fd userBuffer length i, TurnWrites n k t fd userBuffer length i
  · obtain ⟨hrun, fd, userBuffer, length, i, hto⟩ := hwrite
    obtain ⟨hreq, hopen, hfile, hinode⟩ := hto
    have happend := honly.append fd userBuffer length i hreq hopen hfile hinode
    obtain ⟨bytes, hbytes, hreads, hbit⟩ := @sysWrite_appends k t.current t.mem fd userBuffer
      length i n data h hopen hfile hinode happend hdata
    rw [handed_of_write hrun ⟨hreq, hopen, hfile, hinode⟩, turn, if_pos hrun, hreq]
    exact ⟨bytes, hbytes, hreads, hbit.trans hused⟩
  · have hspared := turn_spared h hused hdata.file honly hwrite
    refine ⟨[], handed_of_not hwrite, ?_, hspared.used.trans hused⟩
    rw [List.append_nil]
    exact hdata.same hspared.same

theorem runTurns_appends {turns : List Turn} {data : List UInt8} (h : k.fs.Sound)
    (hused : k.fs.volume.ibit n = true) (hdata : Reads k.fs.volume n data)
    (honly : Meets turn (AppendsOnly n) k turns) :
    ∃ bytes, appended n k turns = some bytes ∧
      Reads (runTurns k turns).fs.volume n (data ++ bytes) := by
  induction turns generalizing k data with
  | nil => exact ⟨[], rfl, by rwa [List.append_nil]⟩
  | cons t rest ih =>
    obtain ⟨bytes, hbytes, hreads, hbit⟩ := turn_appends h hused hdata honly.1
    obtain ⟨others, hothers, hfinal⟩ := ih (turn_sound h t) hbit hreads honly.2
    refine ⟨bytes ++ others, ?_, ?_⟩
    · rw [appended, hbytes, Option.bind_eq_bind, Option.bind_some, hothers]
      rfl
    · rw [← List.append_assoc]
      exact hfinal

/-- Appends are neither lost nor overwritten. From any state the system can come to, a file
that is written through `O_APPEND` descriptors only, and neither truncated nor removed, holds
in the end what it held and then, in the order of the calls, the bytes that each `sys_write`
to it said it took. -/
theorem appends_concatenate (img : Image) (slot : Disk) (k₀ : System) (before turns : List Turn)
    {k : System} (hk : k = runTurns (started img slot k₀) before) {n : Nat} {data : List UInt8}
    (hused : k.fs.volume.ibit n = true) (hdata : Content k.fs n data)
    (honly : Meets turn (AppendsOnly n) k turns) :
    ∃ bytes, appended n k turns = some bytes ∧ Content (runTurns k turns).fs n (data ++ bytes) := by
  have h : k.fs.Sound := by
    rw [hk]
    exact runTurns_sound img slot k₀ before
  obtain ⟨bytes, hbytes, hreads⟩ := runTurns_appends h hused (content_iff.mp hdata) honly
  exact ⟨bytes, hbytes, content_iff.mpr hreads⟩

/-- The shell appends a byte through a descriptor that stands at the beginning. -/
theorem appends_concatenate_rewound :
    ∃ (img : Image) (k : System) (n : Nat) (t : Turn), img.tree = stagedFile ∧
      k = runTurns (started img bareSlot powerOn) (shellTurns rewound) ∧
      t = ⟨1, ⟨fun _ => some 33, fun _ => true⟩, .write 3 0x10000 1⟩ ∧
      Content k.fs n [104, 105] ∧ Meets turn (AppendsOnly n) k [t] ∧
      ∃ bytes, appended n k [t] = some bytes ∧
        Content (runTurns k [t]).fs n ([104, 105] ++ bytes) := by
  obtain ⟨img, k, htree, hk⟩ := shell_runs rewound
  obtain ⟨n, hentry, hopen, hused, hreads⟩ := shell_rewound htree hk
  have hdata := content_iff.mpr hreads
  have honly : Meets turn (AppendsOnly n) k
      [⟨1, ⟨fun _ => some 33, fun _ => true⟩, .write 3 0x10000 1⟩] := by
    refine ⟨⟨?_, nofun⟩, trivial⟩
    rintro fd userBuffer length i hreq hi - -
    cases hreq
    obtain rfl : (6 : Fin 64) = i := Option.some.inj (hopen.symm.trans hi)
    rw [hentry]
    show wantsAppend 0x402 = true
    decide
  exact ⟨img, k, n, _, htree, hk, rfl, hdata, honly,
    appends_concatenate img _ _ (shellTurns rewound) _ hk hused hdata honly⟩

end MiniOs.Kernel

import MiniOs.Proofs.Exec
import MiniOs.Proofs.UserCopies
import MiniOs.User.Shell

/-!
# What a program finds on its stack

`build_initial_stack` pushes strings downwards, the last one first, so that they lie in
order from the lowest address on; the vectors come below them, in five writes that follow one
another upwards. Each half is one list laid over the stack. Between the two there are less
than sixteen bytes for the alignment, and that is all there is to show: the vectors end before
the strings begin.
-/

namespace MiniOs.Kernel

open MiniOs.Lib MiniOs.Fs

variable {layout : Layout} {others : List Nat} {m : Memory} {space : AddressSpace}

/-! ## Reading it back -/

theorem getElem?_dwords (values : List Nat) (i : Nat) {j : Nat} (hj : j < 8) :
    (values.flatMap dwordBytes)[8 * i + j]? = values[i]?.map (Region.wordByte · j) := by
  induction values generalizing i with
  | nil => rfl
  | cons v rest ih =>
    rw [List.flatMap_cons]
    have hlength : (dwordBytes v).length = 8 := by simp [dwordBytes]
    cases i with
    | zero =>
      rw [List.getElem?_append_left (by omega)]
      simp [dwordBytes, hj]
    | succ i =>
      rw [List.getElem?_append_right (by omega), hlength,
        show 8 * (i + 1) + j - 8 = 8 * i + j by omega, ih, List.getElem?_cons_succ]

section Read

variable {mem : UserMemory} {base : Nat} {values : List Nat}
  (hread : ∀ k, k < 8 * values.length → mem.read (base + k) = (values.flatMap dwordBytes)[k]?)
  (htop : base + 8 * values.length ≤ userStackTop)
include hread htop

theorem holdsPointer_of_dwords {i v : Nat} (hi : values[i]? = some v) (hv : v < 2 ^ 64) :
    HoldsPointer mem (base + 8 * i) v := by
  have hlt : i < values.length := (List.getElem?_eq_some_iff.mp hi).1
  have hbyte : ∀ j, j < 8 → mem.read (base + 8 * i + j) = some (Region.wordByte v j) := by
    intro j hj
    rw [Nat.add_assoc, hread _ (by omega), getElem?_dwords values i hj, hi]
    rfl
  refine ⟨by omega, fun j hj => by rw [hbyte j hj]; rfl, ?_⟩
  unfold Region.dword Region.word
  simp only [Nat.zero_add, Nat.reduceAdd, hbyte, Nat.reduceLT, Option.getD_some, Region.wordByte,
    UInt8.toNat_ofNat', Nat.reducePow, Nat.div_one]
  omega

end Read

variable {strings argv envp : List CStr}

/-- A vector whose pointers lead to strings that lie one behind the other. -/
theorem holdsVector_of_blob {mem : UserMemory} :
    ∀ {a p : Nat}, 0 < p → p + cost (strings.map CStr.bytes) ≤ userStackTop →
      (∀ i v, (placesFrom p strings ++ [0])[i]? = some v → HoldsPointer mem (a + 8 * i) v) →
      (∀ i, i < (blob strings).length → mem.read (p + i) = (blob strings)[i]?) →
      HoldsVector mem a (strings.map CStr.bytes) := by
  induction strings with
  | nil =>
    intro a p _ _ hpointers _
    exact hpointers 0 0 rfl
  | cons string rest ih =>
    intro a p hpos htop hpointers hbytes
    rw [List.map_cons, cost_cons] at htop
    have hblob : blob (string :: rest) = (string.bytes ++ [0]) ++ blob rest := rfl
    have hsize : (string.bytes ++ [0]).length = string.bytes.length + 1 := by simp
    rw [hblob, List.length_append, hsize] at hbytes
    refine ⟨⟨p, by omega, hpointers 0 p rfl, by omega, fun i hi => ?_⟩, ?_⟩
    · rw [hbytes i (by omega), List.getElem?_append_left (by omega)]
      rcases Nat.lt_or_ge i string.bytes.length with hlt | hge
      · rw [List.getElem?_append_left hlt, List.getD_eq_getElem?_getD,
          List.getElem?_eq_getElem hlt, Option.getD_some]
      · rw [List.getElem?_append_right hge, show i - string.bytes.length = 0 by omega,
          List.getD_eq_getElem?_getD, List.getElem?_eq_none hge]
        rfl
    · refine ih (p := p + (string.bytes.length + 1)) (by omega) (by omega) (fun i v hv => ?_)
        fun i hi => ?_
      · rw [show a + 8 + 8 * i = a + 8 * (i + 1) by omega]
        exact hpointers (i + 1) v hv
      · rw [Nat.add_assoc, hbytes _ (by omega), List.getElem?_append_right (by omega), hsize,
          Nat.add_sub_cancel_left]

theorem placesFrom_lt :
    ∀ {p v : Nat}, v ∈ placesFrom p strings → v < p + cost (strings.map CStr.bytes) := by
  induction strings with
  | nil => exact fun h => absurd h List.not_mem_nil
  | cons string rest ih =>
    intro p v hv
    rw [List.map_cons, cost_cons]
    rcases List.mem_cons.mp hv with rfl | hrest
    · omega
    · have := ih hrest
      omega

/-! ## The limits -/

theorem measureStrings_none {maximum : Nat} :
    ∀ {count bytes : Nat}, count ≤ maximum → bytes ≤ userStringsMax →
      ¬ (count + strings.length ≤ maximum ∧
        bytes + cost (strings.map CStr.bytes) ≤ userStringsMax) →
      measureStrings maximum strings count bytes = none := by
  induction strings with
  | nil =>
    intro count bytes hcount hbytes hover
    exact absurd ⟨hcount, hbytes⟩ hover
  | cons string rest ih =>
    intro count bytes hcount hbytes hover
    rw [List.map_cons, cost_cons, List.length_cons] at hover
    unfold measureStrings
    split
    · rfl
    · split
      · rfl
      · exact ih (by omega) (by omega) (by omega)

theorem buildInitialStack_none (h : ¬ WithinLimits argv envp) :
    (buildInitialStack m space argv envp).2 = none := by
  have hmeasure : (measureStrings userArgMax argv 0 0).bind (measureStrings userEnvMax envp 0) =
      none := by
    by_cases hargv : 0 + argv.length ≤ userArgMax ∧ 0 + cost (argv.map CStr.bytes) ≤ userStringsMax
    · rw [measureStrings_some hargv.1 hargv.2, Option.bind_some]
      refine measureStrings_none (Nat.zero_le _) hargv.2 fun henvp => h ?_
      unfold userArgMax userStringsMax at hargv
      unfold userEnvMax userStringsMax at henvp
      exact ⟨by omega, by omega, by omega⟩
    · rw [measureStrings_none (Nat.zero_le _) (Nat.zero_le _) hargv]
      rfl
  unfold buildInitialStack
  rw [hmeasure]

/-! ## What `_start` finds -/

/-- What the pages of a process hold. -/
def pageContents (m : Memory) (space : AddressSpace) : UserMemory where
  read := peek m space
  writable := pageAllows space pteW

/-- The stack pointer is aligned and in the stack, and `_start` finds the number of arguments
and the two vectors from it, where the kernel says they are. -/
structure Decodes (m : Memory) (space : AddressSpace) (stack : InitialStack)
    (argv envp : List CStr) : Prop where
  aligned : stack.stackPointer % 16 = 0
  inside : userStackBottom ≤ stack.stackPointer ∧ stack.stackPointer < userStackTop
  argc : stack.argc = argv.length
  start : User.start (peek m space) (BitVec.ofNat 64 stack.stackPointer) =
    some (BitVec.ofNat 64 argv.length, BitVec.ofNat 64 stack.argvPointer,
      BitVec.ofNat 64 stack.envpPointer)
  argv : HoldsVector (pageContents m space) stack.argvPointer (argv.map CStr.bytes)
  envp : HoldsVector (pageContents m space) stack.envpPointer (envp.map CStr.bytes)

theorem start_of_pointer {mem : UserMemory} {base argc : Nat} (hbase : base < userStackTop)
    (h : HoldsPointer mem base argc) :
    User.start mem.read (BitVec.ofNat 64 base) =
      some (BitVec.ofNat 64 argc, BitVec.ofNat 64 (base + 8),
        BitVec.ofNat 64 (base + 8 + (argc + 1) * 8)) := by
  obtain ⟨-, hbytes, hdword⟩ := h
  have haddr : (BitVec.ofNat 64 base).toNat = base := by
    rw [BitVec.toNat_ofNat]
    unfold userStackTop at hbase
    omega
  have hld : User.ld mem.read (BitVec.ofNat 64 base) = some (BitVec.ofNat 64 argc) := by
    unfold User.ld
    rw [haddr, if_pos, hdword]
    simpa using hbytes
  unfold User.start
  rw [hld]
  refine congrArg some (Prod.ext rfl (Prod.ext ?_ ?_))
  · exact (BitVec.ofNat_add _ _).symm
  · have height : (8 : BitVec 64).toNat = 8 := rfl
    apply BitVec.eq_of_toNat_eq
    simp only [BitVec.toNat_add, BitVec.toNat_shiftLeft, BitVec.toNat_ofNat, Nat.shiftLeft_eq,
      height]
    omega

theorem getElem?_vectors (argv envp : List Nat) {i v : Nat} :
    ((argv ++ [0])[i]? = some v → (vectors argv envp)[1 + i]? = some v) ∧
      ((envp ++ [0])[i]? = some v → (vectors argv envp)[argv.length + 2 + i]? = some v) := by
  constructor
  · intro hi
    have hlt := (List.getElem?_eq_some_iff.mp hi).1
    rw [List.length_append, List.length_singleton] at hlt
    rw [← hi, show vectors argv envp = [argv.length] ++ ((argv ++ [0]) ++ (envp ++ [0])) by
        simp [vectors],
      List.getElem?_append_right (by simp), List.length_singleton, Nat.add_sub_cancel_left,
      List.getElem?_append_left (by simpa using hlt)]
  · intro hi
    rw [← hi, show vectors argv envp = ([argv.length] ++ argv ++ [0]) ++ (envp ++ [0]) by
        simp [vectors],
      List.getElem?_append_right (by simp)]
    congr 1
    simp

/-- Vectors that end before the strings begin are found, and lead to the strings. -/
theorem decodes_of_overlay {f : Nat → Option UInt8} {base argAt envAt : Nat}
    (hargAt : argAt + (blob argv).length = envAt)
    (henvAt : envAt + (blob envp).length = userStackTop) (hargc : argv.length ≤ 16)
    (hbelow : base + 8 * (argv.length + envp.length + 3) ≤ argAt) (haligned : base % 16 = 0)
    (hinside : userStackBottom ≤ base)
    (hpeek : peek m space = overlay (overlay (overlay f envAt (blob envp)) argAt (blob argv)) base
      ((vectors (placesFrom argAt argv) (placesFrom envAt envp)).flatMap dwordBytes)) :
    Decodes m space ⟨base, argv.length, base + 8, base + 8 + (argv.length + 1) * 8⟩ argv envp := by
  obtain ⟨values, hvalues⟩ :
      ∃ values, values = vectors (placesFrom argAt argv) (placesFrom envAt envp) := ⟨_, rfl⟩
  have hlength : values.length = argv.length + envp.length + 3 := by
    rw [hvalues]
    simp [vectors, length_placesFrom]
    omega
  have hdwords := length_dwords values
  have htop : userStackTop = 0x200000 := rfl
  rw [← hvalues] at hpeek
  have hread : ∀ k, k < 8 * values.length →
      (pageContents m space).read (base + k) = (values.flatMap dwordBytes)[k]? := by
    intro k hk
    change peek m space _ = _
    rw [hpeek, overlay, if_pos (by omega), Nat.add_sub_cancel_left]
  have hargs : ∀ i, i < (blob argv).length →
      (pageContents m space).read (argAt + i) = (blob argv)[i]? := by
    intro i hi
    change peek m space _ = _
    rw [hpeek, overlay, if_neg (by omega), overlay, if_pos (by omega), Nat.add_sub_cancel_left]
  have henvs : ∀ i, i < (blob envp).length →
      (pageContents m space).read (envAt + i) = (blob envp)[i]? := by
    intro i hi
    change peek m space _ = _
    rw [hpeek, overlay, if_neg (by omega), overlay, if_neg (by omega), overlay,
      if_pos (by omega), Nat.add_sub_cancel_left]
  have hpointer : ∀ {i v : Nat}, values[i]? = some v → v < 2 ^ 64 →
      HoldsPointer (pageContents m space) (base + 8 * i) v :=
    fun hi hv => holdsPointer_of_dwords hread (by omega) hi hv
  -- the pointers are below the top of the stack, so none of them is cut
  have hsmall : ∀ {p : Nat} {strings : List CStr} {i v : Nat},
      p + (blob strings).length ≤ userStackTop →
      (placesFrom p strings ++ [0])[i]? = some v → v < 2 ^ 64 := by
    intro p strings i v hp hv
    rw [length_blob] at hp
    rcases List.mem_append.mp (List.mem_of_getElem? hv) with hplace | hzero
    · have := placesFrom_lt hplace
      omega
    · rw [List.mem_singleton.mp hzero]
      decide
  have hbase : base < userStackTop := by omega
  refine ⟨haligned, ⟨hinside, hbase⟩, rfl, ?_, ?_, ?_⟩
  · refine @start_of_pointer (pageContents m space) base argv.length hbase ?_
    have hfirst : values[0]? = some argv.length := by
      rw [hvalues]
      simp [vectors, length_placesFrom]
    exact hpointer hfirst (by omega)
  · refine holdsVector_of_blob (p := argAt) (by omega) (by rw [← length_blob]; omega)
      (fun i v hv => ?_) hargs
    rw [show base + 8 + 8 * i = base + 8 * (1 + i) by omega]
    refine hpointer ?_ (hsmall (by omega) hv)
    rw [hvalues]
    exact (getElem?_vectors _ _).1 hv
  · refine holdsVector_of_blob (p := envAt) (by omega) (by rw [← length_blob]; omega)
      (fun i v hv => ?_) henvs
    rw [show base + 8 + (argv.length + 1) * 8 + 8 * i = base + 8 * (argv.length + 2 + i) by omega]
    refine hpointer ?_ (hsmall (by omega) hv)
    rw [hvalues, ← length_placesFrom argAt argv]
    exact (getElem?_vectors _ _).2 hv

theorem buildInitialStack_decodes (h : OwnPages layout others m space) (hstack : StackMapped space)
    (hlimits : WithinLimits argv envp) :
    ∃ m' stack, buildInitialStack m space argv envp = (m', some stack) ∧
      Decodes m' space stack argv envp := by
  obtain ⟨m', base, argAt, envAt, hbuild, hargAt, henvAt, hbelow, haligned, hinside, hpeek⟩ :=
    buildInitialStack_lays hstack hlimits m
  exact ⟨m', _, hbuild, decodes_of_overlay hargAt henvAt hlimits.1 hbelow haligned hinside
    (hpeek _ _ h)⟩

/-- For every space with a stack: vectors within the limits come out of the stack of the new
program as they went in, and there is no stack for others. -/
theorem initial_stack_decodes {m : Memory} (hheap : m.Uses layout others) {satp : Cemu.Word}
    (hvm : (vmInit m).2 = some satp) (events : List SpaceEvent) {space : AddressSpace}
    (hspace : space ∈ (Spaces.after m events).spaces) (hstack : StackMapped space)
    (argv envp : List CStr) :
    (WithinLimits argv envp → ∃ m' stack,
      buildInitialStack (Spaces.after m events).memory space argv envp = (m', some stack) ∧
        Decodes m' space stack argv envp) ∧
    (¬ WithinLimits argv envp →
      (buildInitialStack (Spaces.after m events).memory space argv envp).2 = none) := by
  obtain ⟨rest, hown⟩ := after_own hheap hvm events hspace
  exact ⟨buildInitialStack_decodes hown hstack, buildInitialStack_none⟩

/-- A space with a stack and nothing else. -/
def stackEvents : List SpaceEvent :=
  [.create, .map 0 0x1fc000 true true false, .map 0 0x1fd000 true true false,
    .map 0 0x1fe000 true true false, .map 0 0x1ff000 true true false]

def stackSpace : AddressSpace :=
  ⟨0x80503000, 0x80504000, 0x80505000, [⟨0x1fc000, 0x80506000, 6⟩, ⟨0x1fd000, 0x80507000, 6⟩,
    ⟨0x1fe000, 0x80508000, 6⟩, ⟨0x1ff000, 0x80509000, 6⟩], satpOf 0x80503000⟩

theorem stackSpace_mapped : StackMapped stackSpace := by
  intro va hlo hhi
  unfold userStackBottom userStackTop pageSize at *
  rw [← mappingAt_page]
  obtain hpage | hpage | hpage | hpage : va / pageSize * pageSize = 0x1fc000 ∨
      va / pageSize * pageSize = 0x1fd000 ∨ va / pageSize * pageSize = 0x1fe000 ∨
      va / pageSize * pageSize = 0x1ff000 := by
    unfold pageSize
    omega
  all_goals
    rw [hpage]
    decide

/-- One argument, and the stack of its program. -/
theorem initial_stack_decodes_hi :
    stackSpace ∈ (Spaces.after sampleMemory stackEvents).spaces ∧
      ∃ (argv : List CStr) (m' : Memory) (stack : InitialStack),
        argv.map CStr.bytes = [[104, 105]] ∧
        buildInitialStack (Spaces.after sampleMemory stackEvents).memory stackSpace argv [] =
          (m', some stack) ∧ Decodes m' stackSpace stack argv [] := by
  have hspaces : (Spaces.after sampleMemory stackEvents).spaces = [stackSpace] := rfl
  have hspace : stackSpace ∈ (Spaces.after sampleMemory stackEvents).spaces := by
    rw [hspaces]
    exact List.mem_singleton_self _
  obtain ⟨m', stack, hbuild⟩ := (initial_stack_decodes (memInit_uses sampleLayout) rfl stackEvents
    hspace stackSpace_mapped [⟨[104, 105], by decide⟩] []).1 ⟨by decide, by decide, by decide⟩
  exact ⟨hspace, _, m', stack, rfl, hbuild⟩

end MiniOs.Kernel

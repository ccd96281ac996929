import MiniOs.Kernel.Trap
import MiniOs.Proofs.Readers
import MiniOs.Proofs.UserPages

/-!
# The strings of `execve`

Two functions stand between the vectors of a caller and the stack of a new program, and
each counts for itself. `copy_string_vector` copies the strings into slots of 128
bytes; `build_initial_stack` measures them again and pushes them. What has to be true
of two vectors to get through both is a matter of three numbers: how many strings, how
long each is, how long they are together. Once the kernel has accepted them the stack
has room, since it is four pages and the strings are half a page.
-/

namespace MiniOs.Kernel

open MiniOs.Lib MiniOs.Fs

/-! ## Strings and vectors in memory -/

/-- A string with its terminator. -/
def HoldsString (mem : UserMemory) (p : Nat) (bytes : List UInt8) : Prop :=
  p + bytes.length < userStackTop ∧ ∀ i, i ≤ bytes.length → mem.read (p + i) = some (bytes.getD i 0)

/-- A pointer. -/
def HoldsPointer (mem : UserMemory) (a p : Nat) : Prop :=
  a + 8 ≤ userStackTop ∧ (∀ i, i < 8 → (mem.read (a + i)).isSome = true) ∧
    Region.dword (fun i => (mem.read (a + i)).getD 0) 0 = p

/-- A vector of strings with the null pointer at its end. -/
def HoldsVector (mem : UserMemory) : Nat → List (List UInt8) → Prop
  | a, [] => HoldsPointer mem a 0
  | a, string :: rest =>
    (∃ p, p ≠ 0 ∧ HoldsPointer mem a p ∧ HoldsString mem p string) ∧ HoldsVector mem (a + 8) rest

/-- The bytes of strings, with their terminators. -/
def cost (strings : List (List UInt8)) : Nat :=
  (strings.map fun string => string.length + 1).sum

@[simp] theorem cost_nil : cost [] = 0 := rfl

@[simp] theorem cost_cons (string : List UInt8) (rest : List (List UInt8)) :
    cost (string :: rest) = string.length + 1 + cost rest := rfl

theorem cost_eq (strings : List (List UInt8)) :
    cost strings = (strings.map List.length).sum + strings.length := by
  induction strings with
  | nil => rfl
  | cons string rest ih =>
    rw [cost_cons, ih, List.map_cons, List.sum_cons, List.length_cons]
    omega

section Copy

variable {mem : UserMemory}

theorem copyFromUser_some {a length : Nat} (hpos : 0 < length) (htop : a + length ≤ userStackTop)
    (hread : ∀ i, i < length → (mem.read (a + i)).isSome = true) :
    copyFromUser mem a length = some ((List.range' a length).map fun i => (mem.read i).getD 0) := by
  unfold userStackTop at htop
  unfold copyFromUser
  rw [if_neg (Nat.ne_of_gt hpos), if_neg (by omega)]
  refine mapM_of_some fun i hi => ?_
  obtain ⟨hlo, hhi⟩ := List.mem_range'_1.mp hi
  obtain ⟨k, rfl⟩ : ∃ k, i = a + k := ⟨i - a, by omega⟩
  obtain ⟨c, hc⟩ := Option.isSome_iff_exists.mp (hread k (by omega))
  rw [hc]
  rfl

/-- The string, if it fits. -/
theorem copyStringFromUser_eq (capacity : Nat) :
    ∀ {p : Nat} {bytes : List UInt8}, HoldsString mem p bytes → 0 ∉ bytes →
      (copyStringFromUser mem p capacity).map CStr.bytes =
        if bytes.length < capacity then some bytes else none := by
  induction capacity with
  | zero => exact fun _ _ => rfl
  | succ capacity ih =>
    intro p bytes hholds hnul
    obtain ⟨htop, hread⟩ := hholds
    have hfirst := hread 0 (Nat.zero_le _)
    rw [Nat.add_zero] at hfirst
    have hbyte : copyFromUser mem p 1 = some [bytes.getD 0 0] := by
      rw [copyFromUser_some (by decide) (by omega) fun i hi => ?_]
      · rw [List.range'_one, List.map_singleton, hfirst]
        rfl
      · rw [hread i (by omega)]
        rfl
    unfold copyStringFromUser
    rw [hbyte]
    dsimp only
    cases bytes with
    | nil => rfl
    | cons c rest =>
      have hc : ¬ (c :: rest).getD 0 0 = 0 := fun hzero => hnul (by rw [← hzero]; simp)
      rw [dif_neg hc, Option.map_map]
      have hrest : HoldsString mem (p + 1) rest := by
        refine ⟨by rw [List.length_cons] at htop; omega, fun i hi => ?_⟩
        have hnext := hread (i + 1) (by rw [List.length_cons]; omega)
        rw [show p + 1 + i = p + (i + 1) by omega, hnext]
        rfl
      have hstep := ih hrest fun hin => hnul (List.mem_cons_of_mem _ hin)
      cases hcopy : copyStringFromUser mem (p + 1) capacity with
      | none =>
        rw [hcopy] at hstep
        by_cases hlt : rest.length < capacity
        · rw [if_pos hlt] at hstep
          cases hstep
        · rw [if_neg (by rw [List.length_cons]; omega)]
          rfl
      | some copied =>
        rw [hcopy] at hstep
        by_cases hlt : rest.length < capacity
        · rw [if_pos hlt] at hstep
          rw [if_pos (by rw [List.length_cons]; omega)]
          have hbytes : copied.bytes = rest := Option.some.inj hstep
          simp [hbytes]
        · rw [if_neg hlt] at hstep
          cases hstep

theorem copyFromUser_pointer {a p : Nat} (h : HoldsPointer mem a p) :
    ∃ bytes, copyFromUser mem (a % 2 ^ 64) 8 = some bytes ∧
      Region.dword (fun i => bytes.getD i 0) 0 = p := by
  obtain ⟨htop, hread, hvalue⟩ := h
  have hmod : a % 2 ^ 64 = a := Nat.mod_eq_of_lt (by unfold userStackTop at htop; omega)
  rw [hmod]
  refine ⟨_, copyFromUser_some (by decide) htop hread, ?_⟩
  have hbyte : ∀ i, 0 ≤ i → i < 8 →
      ((List.range' a 8).map fun i => (mem.read i).getD 0).getD i 0 = (mem.read (a + i)).getD 0 := by
    intro i _ hi
    rw [List.getD_eq_getElem?_getD, List.getElem?_map, List.getElem?_range' hi]
    simp
  rw [← hvalue]
  unfold Region.dword
  rw [Region.word_congr fun i hlo hhi => hbyte i hlo (by omega),
    Region.word_congr fun i hlo hhi => hbyte i (by omega) (by omega)]

/-- The vector gets through if there are not too many strings, each fits a slot and
together they are not too long. -/
theorem copyStrings_some {a : Nat} {strings : List (List UInt8)} :
    ∀ {left i total : Nat}, HoldsVector mem (a + 8 * i) strings →
      strings.length ≤ left → (∀ string ∈ strings, string.length < 128 ∧ 0 ∉ string) →
      total + cost strings ≤ userStringsMax →
      ∃ copied, copyStrings mem a left i total = some (copied, total + cost strings) ∧
        copied.map CStr.bytes = strings := by
  induction strings with
  | nil =>
    intro left i total hholds _ _ _
    obtain ⟨bytes, hbytes, hzero⟩ := copyFromUser_pointer hholds
    refine ⟨[], ?_, rfl⟩
    unfold copyStrings
    rw [hbytes]
    dsimp only
    rw [if_pos hzero]
    rfl
  | cons string rest ih =>
    intro left i total hholds hleft hfit htotal
    obtain ⟨⟨p, hp, hpointer, hstring⟩, hrest⟩ := hholds
    obtain ⟨bytes, hbytes, hvalue⟩ := copyFromUser_pointer hpointer
    obtain ⟨hlength, hnul⟩ := hfit string List.mem_cons_self
    obtain ⟨left, rfl⟩ : ∃ l, left = l + 1 := ⟨left - 1, by rw [List.length_cons] at hleft; omega⟩
    have hcopy := copyStringFromUser_eq 128 hstring hnul
    rw [if_pos hlength] at hcopy
    obtain ⟨copied, hcopied, hsame⟩ := Option.map_eq_some_iff.mp hcopy
    rw [cost_cons] at htotal ⊢
    have hnext : HoldsVector mem (a + 8 * (i + 1)) rest := by
      rw [Nat.mul_add, ← Nat.add_assoc]
      exact hrest
    have hroom : rest.length ≤ left := by
      rw [List.length_cons] at hleft
      omega
    have hbound : total + string.length + 1 + cost rest ≤ userStringsMax := by omega
    obtain ⟨more, hmore, hsames⟩ :=
      ih hnext hroom (fun s hs => hfit s (List.mem_cons_of_mem _ hs)) hbound
    refine ⟨copied :: more, ?_, by rw [List.map_cons, hsame, hsames]⟩
    unfold copyStrings
    rw [hbytes]
    dsimp only
    rw [hvalue, if_neg hp, hcopied]
    dsimp only
    rw [hsame, if_neg (by omega), hmore, Option.map_some,
      show total + string.length + 1 + cost rest = total + (string.length + 1 + cost rest) by omega]

/-- A string that does not fit a slot stops it. -/
theorem copyStrings_none {a : Nat} {strings : List (List UInt8)} :
    ∀ {left i total : Nat}, HoldsVector mem (a + 8 * i) strings →
      (∀ string ∈ strings, 0 ∉ string) → (∃ string ∈ strings, 128 ≤ string.length) →
      copyStrings mem a left i total = none := by
  induction strings with
  | nil => exact fun _ _ ⟨_, hmem, _⟩ => absurd hmem List.not_mem_nil
  | cons string rest ih =>
    intro left i total hholds hnul hlong
    obtain ⟨⟨p, hp, hpointer, hstring⟩, hrest⟩ := hholds
    obtain ⟨bytes, hbytes, hvalue⟩ := copyFromUser_pointer hpointer
    have hcopy := copyStringFromUser_eq 128 hstring (hnul string List.mem_cons_self)
    have hnext : HoldsVector mem (a + 8 * (i + 1)) rest := by
      rw [Nat.mul_add, ← Nat.add_assoc]
      exact hrest
    unfold copyStrings
    rw [hbytes]
    dsimp only
    rw [hvalue, if_neg hp]
    cases left with
    | zero => rfl
    | succ left =>
      cases hcopied : copyStringFromUser mem p 128 with
      | none => rfl
      | some copied =>
        rw [hcopied] at hcopy
        have hshort : string.length < 128 := by
          by_contra hlt
          rw [if_neg hlt] at hcopy
          cases hcopy
        obtain ⟨long, hmem, hlength⟩ := hlong
        have hmore : ∃ string ∈ rest, 128 ≤ string.length := by
          rcases List.mem_cons.mp hmem with rfl | hmem
          · omega
          · exact ⟨long, hmem, hlength⟩
        dsimp only
        rw [ih hnext (fun s hs => hnul s (List.mem_cons_of_mem _ hs)) hmore]
        exact ite_self _

end Copy

/-! ## The initial stack -/

theorem measureStrings_some {maximum : Nat} {strings : List CStr} :
    ∀ {count bytes : Nat}, count + strings.length ≤ maximum →
      bytes + cost (strings.map CStr.bytes) ≤ userStringsMax →
      measureStrings maximum strings count bytes =
        some (bytes + cost (strings.map CStr.bytes)) := by
  induction strings with
  | nil => exact fun _ _ => rfl
  | cons string rest ih =>
    intro count bytes hcount hbytes
    rw [List.map_cons, cost_cons] at hbytes ⊢
    rw [List.length_cons] at hcount
    unfold measureStrings
    rw [if_neg (by omega), if_neg (by omega), ih (by omega) (by omega)]
    congr 1
    omega

/-- The four pages of the stack are there. -/
def StackMapped (space : AddressSpace) : Prop :=
  ∀ va, userStackBottom ≤ va → va < userStackTop → (mappingAt space va).isSome = true

/-- Strings one behind the other, with their terminators. -/
def blob (strings : List CStr) : List UInt8 := strings.flatMap fun string => string.bytes ++ [0]

/-- Where they begin. -/
def placesFrom : Nat → List CStr → List Nat
  | _, [] => []
  | p, string :: rest => p :: placesFrom (p + (string.bytes.length + 1)) rest

theorem length_blob (strings : List CStr) :
    (blob strings).length = cost (strings.map CStr.bytes) := by
  induction strings with
  | nil => rfl
  | cons string rest ih =>
    change ((string.bytes ++ [0]) ++ blob rest).length = _
    rw [List.length_append, ih, List.map_cons, cost_cons, List.length_append]
    rfl

theorem length_placesFrom (p : Nat) (strings : List CStr) :
    (placesFrom p strings).length = strings.length := by
  induction strings generalizing p with
  | nil => rfl
  | cons string rest ih => rw [placesFrom, List.length_cons, ih, List.length_cons]

/-- The doublewords of the vectors, from the stack pointer on. -/
def vectors (argv envp : List Nat) : List Nat := [argv.length] ++ argv ++ [0] ++ envp ++ [0]

theorem length_dwords (values : List Nat) : (values.flatMap dwordBytes).length = 8 * values.length := by
  induction values with
  | nil => rfl
  | cons v rest ih =>
    rw [List.flatMap_cons, List.length_append, ih, List.length_cons]
    show 8 + 8 * rest.length = _
    omega

/-- Lists of doublewords, each written where the one before it ends. -/
def puts (space : AddressSpace) : List (List Nat) → Nat → Memory → Memory × Bool
  | [], _, m => (m, true)
  | values :: rest, base, m =>
    match copyToSpace space (8 * values.length) m base (values.flatMap dwordBytes) with
    | (m, false) => (m, false)
    | (m, true) => puts space rest (base + 8 * values.length) m

/-- One write, and those that follow it. -/
theorem puts_cons_eq {space : AddressSpace} {values : List Nat} {rest : List (List Nat)}
    {base next : Nat} {P : Prop} [Decidable P] {r : InitialStack}
    {go : Memory → Memory × Option InitialStack} (m : Memory) (hnext : base + 8 * values.length = next)
    (hgo : ∀ m, go m = ((puts space rest next m).1,
      if (puts space rest next m).2 = false ∨ P then none else some r)) :
    (match copyToSpace space (8 * values.length) m base (values.flatMap dwordBytes) with
      | (m, false) => (m, none)
      | (m, true) => go m) =
      ((puts space (values :: rest) base m).1,
        if (puts space (values :: rest) base m).2 = false ∨ P then none else some r) := by
  rw [puts, hnext]
  rcases copyToSpace space (8 * values.length) m base (values.flatMap dwordBytes) with ⟨m', _ | _⟩
  · dsimp only
    rw [if_pos (Or.inl rfl)]
  · exact hgo m'

/-- The five writes at the end of `build_initial_stack` follow one another. -/
theorem pushVectors_eq (m : Memory) (space : AddressSpace) {stack base : Nat} {argv envp : List Nat}
    (hbase : base = (stack - (1 + argv.length + 1 + envp.length + 1) * 8) / 16 * 16) :
    pushVectors m space stack argv envp =
      ((puts space [[argv.length], argv, [0], envp, [0]] base m).1,
        if (puts space [[argv.length], argv, [0], envp, [0]] base m).2 = false ∨
          base < userStackBottom then none
        else some ⟨base, argv.length, base + 8, base + 8 + (argv.length + 1) * 8⟩) := by
  unfold pushVectors
  rw [← hbase]
  refine puts_cons_eq m rfl fun m => puts_cons_eq m ?_ fun m => puts_cons_eq m ?_ fun m =>
    puts_cons_eq m ?_ fun m => puts_cons_eq m rfl fun m => ?_
  · rw [Nat.mul_comm 8]
  · rw [List.length_singleton]
    omega
  · rw [Nat.mul_comm 8]
  · simp only [puts, Bool.true_eq_false, false_or]

section Push

variable {space : AddressSpace} (hstack : StackMapped space)
include hstack

theorem copyToSpace_stack (m : Memory) {destination : Nat} (source : List UInt8)
    (hlo : userStackBottom ≤ destination) (hhi : destination + source.length ≤ userStackTop) :
    ∃ m', copyToSpace space source.length m destination source = (m', true) ∧
      Lays space destination source m m' := by
  have htop : userStackTop < 2 ^ 64 := by decide
  obtain ⟨ram, ok, hcopy, -, hlays, hdone⟩ := @copyToSpace_spec space source.length m destination
    source (by omega)
  obtain rfl := hdone (Nat.le_refl _) fun a ha hlt => hstack a (by omega) (by omega)
  exact ⟨_, hcopy, hlays rfl⟩

theorem pushStrings_lays {strings : List CStr} (m : Memory) {stack : Nat}
    (hlo : userStackBottom + cost (strings.map CStr.bytes) ≤ stack) (hhi : stack ≤ userStackTop) :
    ∃ m', pushStrings space strings m stack = (m', stack - cost (strings.map CStr.bytes),
          some (placesFrom (stack - cost (strings.map CStr.bytes)) strings)) ∧
      Lays space (stack - cost (strings.map CStr.bytes)) (blob strings) m m' := by
  induction strings with
  | nil => exact ⟨m, rfl, .nil m⟩
  | cons string rest ih =>
    rw [List.map_cons, cost_cons] at hlo ⊢
    obtain ⟨m1, hpush, hlays1⟩ := ih (by omega)
    obtain ⟨bottom, hbottom⟩ : ∃ bottom, bottom = stack - (string.bytes.length + 1 +
      cost (rest.map CStr.bytes)) := ⟨_, rfl⟩
    have hnext : stack - cost (rest.map CStr.bytes) = bottom + (string.bytes.length + 1) := by
      omega
    have hsize : (string.bytes ++ [0]).length = string.bytes.length + 1 := by simp
    obtain ⟨m2, hcopy, hlays2⟩ := copyToSpace_stack hstack m1 (string.bytes ++ [0])
      (show userStackBottom ≤ bottom by omega) (by omega)
    rw [hsize] at hcopy
    rw [hnext] at hpush hlays1
    rw [← hbottom]
    refine ⟨m2, ?_, .prepend (by rwa [hsize]) hlays2⟩
    unfold pushStrings
    rw [hpush]
    dsimp only
    rw [Nat.add_sub_cancel, hcopy]
    rfl

theorem puts_lays (vectors : List (List Nat)) :
    ∀ (m : Memory) {base : Nat}, userStackBottom ≤ base →
      base + 8 * vectors.flatten.length ≤ userStackTop →
      ∃ m', puts space vectors base m = (m', true) ∧
        Lays space base (vectors.flatten.flatMap dwordBytes) m m' := by
  induction vectors with
  | nil => exact fun m _ _ _ => ⟨m, rfl, .nil m⟩
  | cons values rest ih =>
    intro m base hlo hhi
    rw [List.flatten_cons, List.length_append] at hhi
    obtain ⟨m1, hcopy, hlays⟩ := copyToSpace_stack hstack m (values.flatMap dwordBytes) hlo
      (by rw [length_dwords]; omega)
    obtain ⟨m', hrun, hrest⟩ := @ih m1 (base + 8 * values.length) (by omega) (by omega)
    rw [← length_dwords] at hrest
    rw [length_dwords] at hcopy
    refine ⟨m', by rw [puts, hcopy]; exact hrun, ?_⟩
    rw [List.flatten_cons, List.flatMap_append]
    exact hlays.append hrest

/-- Room for the vectors is room enough. -/
theorem pushVectors_lays (m : Memory) {stack : Nat} {argv envp : List Nat}
    (hlo : userStackBottom + 8 * (argv.length + envp.length + 5) ≤ stack)
    (hhi : stack ≤ userStackTop) {base : Nat}
    (hbase : base = (stack - (1 + argv.length + 1 + envp.length + 1) * 8) / 16 * 16) :
    ∃ m', pushVectors m space stack argv envp =
        (m', some ⟨base, argv.length, base + 8, base + 8 + (argv.length + 1) * 8⟩) ∧
      Lays space base ((vectors argv envp).flatMap dwordBytes) m m' := by
  have hbounds : userStackBottom ≤ base ∧
      base + (1 + argv.length + 1 + envp.length + 1) * 8 ≤ userStackTop := by
    omega
  obtain ⟨m', hputs, hlays⟩ := puts_lays hstack [[argv.length], argv, [0], envp, [0]] m hbounds.1
    (by simp; omega)
  refine ⟨m', ?_, by simpa [vectors] using hlays⟩
  rw [pushVectors_eq m space hbase, hputs, if_neg (by simpa using hbounds.1)]

omit hstack in
/-- `USER_ARG_MAX` and `USER_ENV_MAX` strings at most, and `USER_STRINGS_MAX` bytes. -/
def WithinLimits (argv envp : List CStr) : Prop :=
  argv.length ≤ 16 ∧ envp.length ≤ 8 ∧
    cost (argv.map CStr.bytes) + cost (envp.map CStr.bytes) ≤ 2048

/-- Vectors the kernel has accepted find room on the stack: the strings at its top, the vectors
below them. -/
theorem buildInitialStack_lays {argv envp : List CStr} (hlimits : WithinLimits argv envp)
    (m : Memory) :
    ∃ m' base argAt envAt, buildInitialStack m space argv envp =
        (m', some ⟨base, argv.length, base + 8, base + 8 + (argv.length + 1) * 8⟩) ∧
      argAt + (blob argv).length = envAt ∧ envAt + (blob envp).length = userStackTop ∧
      base + 8 * (argv.length + envp.length + 3) ≤ argAt ∧ base % 16 = 0 ∧
      userStackBottom ≤ base ∧ ∀ layout others, OwnPages layout others m space → peek m' space =
          overlay (overlay (overlay (peek m space) envAt (blob envp)) argAt (blob argv)) base
            ((vectors (placesFrom argAt argv) (placesFrom envAt envp)).flatMap dwordBytes) := by
  obtain ⟨hargc, henvc, hbytes⟩ := hlimits
  have hmeasure : (measureStrings userArgMax argv 0 0).bind (measureStrings userEnvMax envp 0) =
      some (0 + cost (argv.map CStr.bytes) + cost (envp.map CStr.bytes)) := by
    rw [measureStrings_some (by unfold userArgMax; omega) (by unfold userStringsMax; omega),
      Option.bind_some, measureStrings_some (by unfold userEnvMax; omega)
        (by unfold userStringsMax; omega)]
  have htop : userStackTop = 0x200000 ∧ userStackBottom = 0x1fc000 := ⟨rfl, rfl⟩
  rw [← length_blob, ← length_blob] at hbytes
  obtain ⟨m1, hpush1, hlays1⟩ := @pushStrings_lays space hstack envp m userStackTop
    (by rw [← length_blob]; omega) (Nat.le_refl _)
  rw [← length_blob] at hpush1 hlays1
  generalize henvAt : userStackTop - (blob envp).length = envAt at hpush1 hlays1
  obtain ⟨m2, hpush2, hlays2⟩ := @pushStrings_lays space hstack argv m1 envAt
    (by rw [← length_blob]; omega) (by omega)
  rw [← length_blob] at hpush2 hlays2
  generalize hargAt : envAt - (blob argv).length = argAt at hpush2 hlays2
  have hargPlaces := length_placesFrom argAt argv
  have henvPlaces := length_placesFrom envAt envp
  obtain ⟨base, hbase⟩ : ∃ base, base = (argAt - (1 + (placesFrom argAt argv).length + 1 +
    (placesFrom envAt envp).length + 1) * 8) / 16 * 16 := ⟨_, rfl⟩
  obtain ⟨m3, hpush3, hlays3⟩ := pushVectors_lays hstack m2 (by omega) (by omega) hbase
  rw [hargPlaces] at hpush3
  refine ⟨m3, base, argAt, envAt, ?_, by omega, by omega, by omega, by omega, by omega,
    fun layout others hown => ?_⟩
  · unfold buildInitialStack
    rw [hmeasure]
    rw [hpush1]
    dsimp only
    rw [hpush2]
    exact hpush3
  · obtain ⟨hown1, hpeek1⟩ := hlays1 _ _ hown
    obtain ⟨hown2, hpeek2⟩ := hlays2 _ _ hown1
    rw [(hlays3 _ _ hown2).2, hpeek2, hpeek1]

theorem buildInitialStack_some {argv envp : List CStr} (hargc : argv.length ≤ userArgMax)
    (henvc : envp.length ≤ userEnvMax)
    (hbytes : cost (argv.map CStr.bytes) + cost (envp.map CStr.bytes) ≤ userStringsMax)
    (m : Memory) : (buildInitialStack m space argv envp).2.isSome = true := by
  obtain ⟨m', base, argAt, envAt, hbuild, -⟩ :=
    buildInitialStack_lays hstack (show WithinLimits argv envp from ⟨hargc, henvc, hbytes⟩) m
  rw [hbuild]
  rfl

end Push

/-! ## Programs -/

theorem mapUserPage_at {m m' : Memory} {space space' : AddressSpace} {va flags : Nat}
    (h : mapUserPage m space va flags = (m', space', true)) :
    ∃ mapping, ∀ page, mappingAt space' page =
      if page / pageSize * pageSize = va then some mapping else mappingAt space page := by
  unfold mapUserPage at h
  split at h
  · cases h
  next hva =>
  have halign : va % pageSize = 0 := by omega
  split at h
  · next existing hexisting =>
    cases h
    exact ⟨_, mappingAt_merge _ halign hexisting⟩
  next hnone =>
  split at h
  · cases h
  · split at h
    · cases h
    · next page _ =>
      cases h
      exact ⟨_, mappingAt_append hnone halign⟩

theorem mapPages_mapped {flags : Nat} (count : Nat) :
    ∀ {m m' : Memory} {space space' : AddressSpace} {va : Nat}, va % pageSize = 0 →
      mapPages flags count m space va = (m', space', true) →
      ∀ page, (mappingAt space page).isSome = true ∨ va ≤ page ∧ page < va + count * pageSize →
        (mappingAt space' page).isSome = true := by
  induction count with
  | zero =>
    intro m m' space space' va _ h page hpage
    cases h
    exact hpage.resolve_right (by omega)
  | succ count ih =>
    intro m m' space space' va halign h page hpage
    unfold mapPages at h
    split at h
    · cases h
    next m1 space1 hmap =>
    obtain ⟨mapping, hat⟩ := mapUserPage_at hmap
    refine ih (by rw [Nat.add_mod_right]; exact halign) h page ?_
    rw [hat]
    split
    · exact .inl rfl
    · next hne =>
      refine hpage.imp_right fun hin => ?_
      unfold pageSize at *
      omega

theorem loadElf_stack {s : FsSt} {m : Memory} {inode entry : Nat} {space : AddressSpace}
    (h : (loadElf s m inode).2.2 = some (space, entry)) : StackMapped space := by
  unfold loadElf at h
  split at h
  · cases h
  split at h
  · cases h
  split at h
  · next s2 m2 space2 himage =>
    cases h
    unfold loadImage at himage
    split at himage
    · cases himage
    split at himage
    · cases himage
    · next m3 space3 ok _ =>
      generalize hmap : mapPages (pteR ||| pteW) 4 _ _ userStackBottom = mapped at himage
      obtain ⟨m4, space4, ok⟩ := mapped
      cases himage
      intro va hlo hhi
      exact mapPages_mapped 4 (by decide) hmap va (.inr ⟨hlo, hhi⟩)
  · cases h

/-- The file of a program can be run: it is there, and the loader accepts it. -/
structure Machine.CanRun (m : Machine) (path : CStr) : Prop where
  user : (m.tasks m.current).hasUserSpace = true
  loads : ∃ s inode program, minifsResolveFile m.fs (m.tasks m.current).cwdInode (some path) =
    (s, some inode) ∧ (loadElf s m.memory inode).2.2 = some program

/-- Then `execve` has only the strings to refuse. -/
theorem Machine.CanRun.execve {m : Machine} {path : CStr} (h : m.CanRun path)
    {argv envp : List CStr} (hargc : argv.length ≤ userArgMax) (henvc : envp.length ≤ userEnvMax)
    (hbytes : cost (argv.map CStr.bytes) + cost (envp.map CStr.bytes) ≤ userStringsMax) :
    (m.userExecve path argv envp).2 = true := by
  obtain ⟨s, inode, ⟨space, entry⟩, hresolve, hload⟩ := h.loads
  have hbuild := buildInitialStack_some (loadElf_stack hload) hargc henvc hbytes
  unfold Machine.userExecve prepareProgram
  rw [hresolve]
  dsimp only
  generalize loadElf s m.memory inode = loaded at hload
  obtain ⟨s', m', program⟩ := loaded
  subst hload
  dsimp only
  have hstack := hbuild m'
  generalize buildInitialStack m' space argv envp = built at hstack
  obtain ⟨m'', stack⟩ := built
  cases stack with
  | none => cases hstack
  | some stack =>
    dsimp only
    rw [if_neg (by rw [h.user]; decide)]

end MiniOs.Kernel

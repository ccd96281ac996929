import MiniOs.Proofs.Agreement
import MiniOs.Proofs.Exec
import MiniOs.Proofs.Getcwd
import MiniOs.Proofs.Shell

/-!
# From the shell to `execve`

The limits on both sides of the call, put together. The words of a line are no trouble:
there are at most sixteen, each fits a slot of the kernel because it fitted one of the
shell, and together they are as long as the line at most. Two of the three strings of
the environment are constants. The third is the working directory behind `PWD=`, and
`getcwd` gives paths of up to 255 bytes, where the kernel has room for 123.
-/

namespace MiniOs.User

open MiniOs.Lib MiniOs.Fs MiniOs.Kernel MiniOs.Spec MiniOs.Tools

/-- Two vectors get through `copy_string_vector`, and their strings on any stack. -/
def Passes (mem : UserMemory) (userArgv userEnvp : Nat) : Prop :=
  ∃ argv envp total total', copyStringVector mem userArgv userArgMax 0 = some (argv, total) ∧
    copyStringVector mem userEnvp userEnvMax total = some (envp, total') ∧
    ∀ m space, StackMapped space → (buildInitialStack m space argv envp).2.isSome = true

/-- `execve` with these vectors runs every program that can be run. -/
def Runs (mem : UserMemory) (userArgv userEnvp : Nat) : Prop :=
  ∀ (m : Machine) (userPath : Nat) (program : CStr), copyPath mem userPath = some program →
    m.CanRun program → (m.sysExecve mem userPath userArgv userEnvp).2 = true

/-- The environment is three strings without a terminator in them. -/
theorem buildEnvironment_strings {path : List UInt8} (hnul : 0 ∉ path) :
    (∀ string ∈ buildEnvironment (some path), 0 ∉ string) ∧
      cost (buildEnvironment (some path)) = path.length + 29 ∧
      ∀ string ∈ buildEnvironment (some path), string.length ≤ max 16 (path.length + 4) := by
  have hpwd : (Machine.ascii "PWD=" ++ path).length = path.length + 4 := by
    rw [List.length_append]
    exact Nat.add_comm _ _
  refine ⟨fun string hmem => ?_, ?_, fun string hmem => ?_⟩
  · simp only [buildEnvironment, Option.getD_some, List.mem_cons, List.not_mem_nil, or_false] at hmem
    rcases hmem with rfl | rfl | rfl
    · decide
    · decide
    · rw [List.mem_append]
      exact not_or.mpr ⟨by decide, hnul⟩
  · unfold buildEnvironment
    rw [cost_cons, cost_cons, cost_cons, cost_nil, Option.getD_some, hpwd]
    show 16 + 1 + (6 + 1 + (path.length + 4 + 1 + 0)) = _
    omega
  · simp only [buildEnvironment, Option.getD_some, List.mem_cons, List.not_mem_nil, or_false] at hmem
    rcases hmem with rfl | rfl | rfl
    · exact Nat.le_max_left _ _
    · exact Nat.le_trans (by decide : homeEntry.length ≤ 16) (Nat.le_max_left _ _)
    · rw [hpwd]
      exact Nat.le_max_right _ _

section Vectors

variable {mem : UserMemory} {userArgv userEnvp : Nat} {words environment : List (List UInt8)}
  (hargv : HoldsVector mem userArgv words) (henvp : HoldsVector mem userEnvp environment)

theorem copyStringVector_some {a maximum total : Nat} {strings : List (List UInt8)} (ha : a ≠ 0)
    (h : HoldsVector mem a strings) (hcount : strings.length ≤ maximum)
    (hfit : ∀ string ∈ strings, string.length < 128 ∧ 0 ∉ string)
    (htotal : total + cost strings ≤ userStringsMax) :
    ∃ copied, copyStringVector mem a maximum total = some (copied, total + cost strings) ∧
      copied.map CStr.bytes = strings := by
  unfold copyStringVector
  rw [if_neg ha]
  exact copyStrings_some (i := 0) h hcount hfit htotal

theorem copyStringVector_none {a maximum total : Nat} {strings : List (List UInt8)} (ha : a ≠ 0)
    (h : HoldsVector mem a strings) (hnul : ∀ string ∈ strings, 0 ∉ string)
    (hlong : ∃ string ∈ strings, 128 ≤ string.length) :
    copyStringVector mem a maximum total = none := by
  unfold copyStringVector
  rw [if_neg ha]
  exact copyStrings_none (i := 0) h hnul hlong

include hargv henvp

/-- Vectors within the limits pass, and run what can be run. -/
theorem passes_and_runs (ha : userArgv ≠ 0) (he : userEnvp ≠ 0)
    (hargc : words.length ≤ userArgMax) (hne : words ≠ []) (henvc : environment.length ≤ userEnvMax)
    (hwords : ∀ word ∈ words, word.length < 128 ∧ 0 ∉ word)
    (hstrings : ∀ string ∈ environment, string.length < 128 ∧ 0 ∉ string)
    (hbytes : cost words + cost environment ≤ userStringsMax) :
    Passes mem userArgv userEnvp ∧ Runs mem userArgv userEnvp := by
  have hfirst : 0 + cost words ≤ userStringsMax := by omega
  obtain ⟨argv, hargv', hsame⟩ := copyStringVector_some ha hargv hargc hwords hfirst
  rw [Nat.zero_add] at hargv'
  obtain ⟨envp, henvp', hsame'⟩ := copyStringVector_some he henvp henvc hstrings hbytes
  have hlen : argv.length ≤ userArgMax := by
    rw [← List.length_map CStr.bytes, hsame]
    exact hargc
  have hlen' : envp.length ≤ userEnvMax := by
    rw [← List.length_map CStr.bytes, hsame']
    exact henvc
  have hcost : cost (argv.map CStr.bytes) + cost (envp.map CStr.bytes) ≤ userStringsMax := by
    rw [hsame, hsame']
    exact hbytes
  have hargvne : argv ≠ [] := by
    rintro rfl
    exact hne hsame.symm
  refine ⟨⟨argv, envp, _, _, hargv', henvp', fun m space hstack =>
    buildInitialStack_some hstack hlen hlen' hcost m⟩, fun m userPath program hpath hrun => ?_⟩
  have hexec := hrun.execve hlen hlen' hcost
  unfold Machine.sysExecve
  rw [hpath]
  dsimp only
  rw [hargv']
  dsimp only
  rw [henvp']
  dsimp only
  rw [if_neg hargvne]
  generalize m.userExecve program argv envp = result at hexec
  obtain ⟨m', ok⟩ := result
  dsimp only at hexec
  subst hexec
  rfl

end Vectors

/-- What the shell makes of a line and of a working directory can be passed to a
program if and only if the path of the directory has at most 123 bytes. -/
theorem exec_carries_iff {line : CStr} (hline : line.bytes.length < lineMax) {command : Command}
    (hparse : parseCommand line.bytes = some (command, 0)) {s : FsSt} {d : Nat}
    {path : List UInt8} (hcwd : (minifsGetcwd s d 256).2 = some path) {mem : UserMemory}
    {userArgv userEnvp : Nat} (ha : userArgv ≠ 0) (he : userEnvp ≠ 0)
    (hargv : HoldsVector mem userArgv command.words)
    (henvp : HoldsVector mem userEnvp (buildEnvironment (some path))) :
    Passes mem userArgv userEnvp ∧ Runs mem userArgv userEnvp ↔ path.length ≤ 123 := by
  have hnul : 0 ∉ path := by
    obtain ⟨b, hb⟩ := minifsGetcwd_eq s d 256
    rw [hb] at hcwd
    have hpath : s.volume.getcwd d 256 = some path := hcwd
    exact Volume.getcwd_noNul hpath
  obtain ⟨hstrings, hcost, hlength⟩ := buildEnvironment_strings hnul
  constructor
  · rintro ⟨⟨argv, envp, total, total', -, henvp', -⟩, -⟩
    by_contra hlong
    have hmem : Machine.ascii "PWD=" ++ path ∈ buildEnvironment (some path) := by
      simp [buildEnvironment]
    have hpwd : 128 ≤ (Machine.ascii "PWD=" ++ path).length := by
      rw [List.length_append]
      show 128 ≤ 4 + path.length
      omega
    rw [copyStringVector_none he henvp hstrings ⟨_, hmem, hpwd⟩] at henvp'
    cases henvp'
  · intro hshort
    obtain ⟨hargc, hwords, hsum⟩ := parseCommand_words line.noNul hparse
    have hwordCost : cost command.words ≤ 271 := by
      rw [cost_eq]
      unfold lineMax at hline
      unfold argMax at hargc
      omega
    refine passes_and_runs hargv henvp ha he hargc (parseCommand_ne_nil hparse)
      (show 3 ≤ 8 by decide) (fun word hword => ?_)
      (fun string hmem => ⟨?_, hstrings string hmem⟩) ?_
    · obtain ⟨-, hfits, hzero⟩ := hwords word hword
      exact ⟨hfits, hzero⟩
    · have hle := hlength string hmem
      omega
    · rw [hcost]
      unfold userStringsMax
      omega

/-! ## Two working directories -/

/-- The memory of a shell that is about to run `ls`: `argv` at 0x10000, the environment
at 0x10010, and the strings behind them. -/
def shellMemory (path : List UInt8) : UserMemory where
  read a :=
    if a < 0x10000 then none
    else
      ([0x10030, 0, 0x10033, 0x10044, 0x1004b, 0].flatMap dwordBytes ++
        Machine.ascii "ls" ++ [0] ++ pathEntry ++ [0] ++ homeEntry ++ [0] ++
        Machine.ascii "PWD=" ++ path ++ [0])[a - 0x10000]?
  writable _ := false

def lsLine : CStr := ⟨Machine.ascii "ls", by decide⟩

def lsCommand : Command := ⟨[Machine.ascii "ls"], [0], none, none, false, false⟩

theorem parseCommand_ls : parseCommand lsLine.bytes = some (lsCommand, 0) := by decide

instance (mem : UserMemory) (p : Nat) (bytes : List UInt8) : Decidable (HoldsString mem p bytes) :=
  inferInstanceAs (Decidable (_ ∧ ∀ i, i ≤ bytes.length → _))

instance (mem : UserMemory) (a p : Nat) : Decidable (HoldsPointer mem a p) :=
  inferInstanceAs (Decidable (_ ∧ (∀ i, i < 8 → _) ∧ _))

/-- A pointer and what it leads to. -/
def Leads (mem : UserMemory) (a p : Nat) (string : List UInt8) : Prop :=
  p ≠ 0 ∧ HoldsPointer mem a p ∧ HoldsString mem p string

instance (mem : UserMemory) (a p : Nat) (string : List UInt8) : Decidable (Leads mem a p string) :=
  inferInstanceAs (Decidable (_ ∧ _ ∧ _))

section Vectors

variable {path : List UInt8}

theorem shellMemory_argv (hls : Leads (shellMemory path) 0x10000 0x10030 (Machine.ascii "ls"))
    (hend : HoldsPointer (shellMemory path) 0x10008 0) :
    HoldsVector (shellMemory path) 0x10000 lsCommand.words := ⟨⟨_, hls⟩, hend⟩

theorem shellMemory_envp (hpath : Leads (shellMemory path) 0x10010 0x10033 pathEntry)
    (hhome : Leads (shellMemory path) 0x10018 0x10044 homeEntry)
    (hpwd : Leads (shellMemory path) 0x10020 0x1004b (Machine.ascii "PWD=" ++ path))
    (hend : HoldsPointer (shellMemory path) 0x10028 0) :
    HoldsVector (shellMemory path) 0x10010 (buildEnvironment (some path)) :=
  ⟨⟨_, hpath⟩, ⟨_, hhome⟩, ⟨_, hpwd⟩, hend⟩

end Vectors

/-- In the root everything can be run. -/
theorem exec_carries_root :
    Passes (shellMemory [slash]) 0x10000 0x10010 ∧ Runs (shellMemory [slash]) 0x10000 0x10010 := by
  have hcwd : (minifsGetcwd boot 0 256).2 = some [slash] := rfl
  have hargv := @shellMemory_argv [slash] (by decide +kernel) (by decide +kernel)
  have henvp := @shellMemory_envp [slash] (by decide +kernel) (by decide +kernel)
    (by decide +kernel) (by decide +kernel)
  exact (exec_carries_iff (by decide) parseCommand_ls hcwd (by decide) (by decide) hargv
    henvp).mpr (by decide)

/-- A staging directory with three directories in one another, each with a name of 55
bytes. -/
def longName : List UInt8 := List.replicate 55 97

def stagedDeep : StagedTree where
  root := .cons ⟨longName, true⟩
    (.dir (.cons ⟨longName, true⟩ (.dir (.cons ⟨longName, true⟩ (.dir .nil) .nil)) .nil)) .nil
  legal := by
    have hlegal : (HostName.mk longName true).Legal := by unfold HostName.Legal; decide
    exact ⟨hlegal, List.not_mem_nil, ⟨hlegal, List.not_mem_nil,
      ⟨hlegal, List.not_mem_nil, trivial, trivial⟩, trivial⟩, trivial⟩

theorem stagedDeep_fits : stagedDeep.Fits where
  storable := ⟨⟨rfl, by decide⟩, ⟨⟨rfl, by decide⟩, ⟨⟨rfl, by decide⟩, trivial, trivial⟩, trivial⟩,
    trivial⟩
  inodes := by decide
  blocks := by decide

def deepPath : List UInt8 :=
  slash :: longName ++ (slash :: longName ++ (slash :: longName ++ []))

/-- The way up from what is staged in a directory. -/
theorem pathFrom_staged {V : Volume} (ht : V.Tree) {n : Nat} {children : HostDir}
    (h : HoldsNode V n (.dir children)) {name : List UInt8} (hnul : 0 ∉ name) {node : HostNode}
    (hfind : stagedChild name children = some node) :
    ∃ k, 1 ≤ k ∧ HoldsNode V k node ∧ ∀ fuel below, below.length + name.length + 1 < 256 →
      V.pathFrom (fuel + 1) k below = V.pathFrom fuel n (slash :: name ++ below) := by
  obtain ⟨k, hlookup, -, hnode⟩ := h.names ht hnul hfind
  obtain ⟨i, e, hnames, rfl, hname, -⟩ := Volume.lookup_names h.used hlookup
  rw [cstr_of_noNul hnul] at hname
  refine ⟨e.inode, ht.pos hnames, hnode, fun fuel below hlen => ?_⟩
  rw [← hname] at hlen ⊢
  exact ht.pathFrom_child hnames hlen

/-- The working directory at the bottom of that tree has a path of 168 bytes, and no
program can be run from there. -/
theorem exec_refused_deep :
    ∃ img : Image, img.tree = stagedDeep ∧
      ∃ d, (minifsGetcwd (img.mount bareSlot boot) d 256).2 = some deepPath ∧
        parseCommand lsLine.bytes = some (lsCommand, 0) ∧
        HoldsVector (shellMemory deepPath) 0x10000 lsCommand.words ∧
        HoldsVector (shellMemory deepPath) 0x10010 (buildEnvironment (some deepPath)) ∧
        ¬ Passes (shellMemory deepPath) 0x10000 0x10010 ∧
        ∀ (m : Machine) (userPath : Nat),
          (m.sysExecve (shellMemory deepPath) userPath 0x10000 0x10010).2 = false := by
  obtain ⟨img, htree, -⟩ := importTree_fits stagedDeep_fits
  have ht := img.mount_tree bareSlot boot
  have hroot : HoldsNode (img.mount bareSlot boot).volume 0 (.dir stagedDeep.root) := by
    have hholds := img.holds
    rw [htree] at hholds
    rw [img.mount_volume]
    exact hholds
  have hnul : 0 ∉ longName := by decide
  obtain ⟨k₁, -, hnode₁, hup₁⟩ := pathFrom_staged ht hroot hnul rfl
  obtain ⟨k₂, -, hnode₂, hup₂⟩ := pathFrom_staged ht hnode₁ hnul rfl
  obtain ⟨k₃, hpos, -, hup₃⟩ := pathFrom_staged ht hnode₂ hnul rfl
  have hargv := @shellMemory_argv deepPath (by decide +kernel) (by decide +kernel)
  have henvp := @shellMemory_envp deepPath (by decide +kernel) (by decide +kernel)
    (by decide +kernel) (by decide +kernel)
  have hnone : ∀ total, copyStringVector (shellMemory deepPath) 0x10010 userEnvMax total = none := by
    intro total
    refine copyStringVector_none (by decide) henvp
      (buildEnvironment_strings (by decide +kernel)).1 ⟨Machine.ascii "PWD=" ++ deepPath, ?_, ?_⟩
    · simp [buildEnvironment]
    · decide +kernel
  refine ⟨img, htree, k₃, ?_, parseCommand_ls, hargv, henvp, ?_, fun m userPath => ?_⟩
  · obtain ⟨b, hb⟩ := minifsGetcwd_eq (img.mount bareSlot boot) k₃ 256
    rw [hb]
    show Volume.getcwd _ k₃ 256 = some deepPath
    unfold Volume.getcwd
    rw [if_neg (by decide), if_neg (by omega), hup₃ _ _ (by decide), hup₂ _ _ (by decide),
      hup₁ _ _ (by decide), Volume.pathFrom_root, ← deepPath, Option.filter_some,
      if_pos (by decide +kernel)]
  · rintro ⟨argv, envp, total, total', -, henvp', -⟩
    rw [hnone total] at henvp'
    cases henvp'
  · unfold Machine.sysExecve
    cases copyPath (shellMemory deepPath) userPath with
    | none => rfl
    | some program =>
      dsimp only
      cases copyStringVector (shellMemory deepPath) 0x10000 userArgMax 0 with
      | none => rfl
      | some copied =>
        dsimp only
        rw [hnone]

end MiniOs.User

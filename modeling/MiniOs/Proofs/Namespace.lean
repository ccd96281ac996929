import MiniOs.Proofs.Disk
import MiniOs.Proofs.Tree

/-!
# The tree of names over a run

What a call does to the tree, said once for all calls: everything in use is
still there, in the same mode and under the same name, except for the inode an
unlink took away. `Removes` is that exception, and it says what the unlink had
checked, so that later arguments about open files and working directories need
not look into a call again.
-/

namespace MiniOs.Fs

open MiniOs.Lib MiniOs.Spec MiniOs.Tools

/-- The paths a call adds or removes names by lead into the tree. -/
def Call.Rooted (V : Volume) : Call → Prop
  | .open _ cwd path _ => V.Rooted cwd (pathBytes path)
  | .mkdir cwd path => V.Rooted cwd (pathBytes path)
  | .unlink cwd path => V.Rooted cwd (pathBytes path)
  | _ => True

theorem Call.Absolute.rooted {call : Call} (h : call.Absolute) (V : Volume) :
    call.Rooted V := by
  cases call with
  | «open» pid cwd path flags => exact Or.inl h
  | mkdir cwd path => exact Or.inl h
  | unlink cwd path => exact Or.inl h
  | _ => trivial

section Step

variable {s : FsSt}

theorem persists_of_store {s' : FsSt} (ht : s.volume.Tree) (hstore : s'.toStore = s.toStore)
    (gone : Nat → Prop) : s.volume.Persists s'.volume gone := by
  rw [hstore]
  exact ht.refl

theorem minifsOpen_persists (h : s.Sound) (ht : s.volume.Tree) (pid : Int) {cwd : Nat}
    {path : Option CStr} (hr : s.volume.Rooted cwd (pathBytes path)) (flags : BitVec 32)
    (gone : Nat → Prop) :
    s.volume.Persists (minifsOpen s pid cwd path flags).1.volume gone := by
  obtain ⟨s', V, hb, hpers, heq | ⟨p, n, size, -, -, -, -, heq⟩⟩ :=
    minifsOpen_tree h ht pid hr flags
  · rw [heq, hb.volume]
    exact hpers gone
  · rw [heq]
    exact hb.volume ▸ hpers gone

theorem minifsWrite_persists (h : s.Sound) (ht : s.volume.Tree) (pid fd : Int)
    (buffer : Option Region) (length : Nat) (gone : Nat → Prop) :
    s.volume.Persists (minifsWrite s pid fd buffer length).1.volume gone := by
  rcases minifsWrite_cases h pid fd buffer length with
    ⟨s', r, hc, hstore, -, -⟩ | ⟨i, buf, s', done, -, -, hw, hc⟩
  · rw [hc]
    exact persists_of_store ht hstore gone
  · rw [hc]
    exact hw.sameTree.persists ht

theorem minifsUnlink_persists (h : s.Sound) (ht : s.volume.Tree) {cwd : Nat}
    {path : Option CStr} (hr : s.volume.Rooted cwd (pathBytes path)) :
    s.volume.Persists (minifsUnlink s cwd path).1.volume (Removes s (.unlink cwd path)) := by
  rcases minifsUnlink_tree h ht hr with
    ⟨⟨b, hc⟩, -⟩ | ⟨s', parent, name, k, j, e, hu, hc, hprune, hb⟩
  · rw [hc]
    exact persists_of_store ht rfl _
  · rw [hc, hb.volume]
    exact (hprune.persists ht).mono fun n hn => ⟨cwd, path, parent, name, rfl, hn ▸ hu⟩

/-- A call keeps the tree, and everything in it but what it unlinked. -/
theorem step_persists (h : s.Sound) (ht : s.volume.Tree) {call : Call}
    (hr : call.Rooted s.volume) :
    s.volume.Persists (step s call).volume (Removes s call) := by
  have quiet : call.StoresNothing → s.volume.Persists (step s call).volume (Removes s call) :=
    fun hnothing => persists_of_store ht (step_store hnothing) _
  cases call with
  | «open» pid cwd path flags => exact minifsOpen_persists h ht pid hr flags _
  | write pid fd buffer length => exact minifsWrite_persists h ht pid fd buffer length _
  | mkdir cwd path =>
    obtain ⟨V, hb, hpers⟩ := minifsMkdir_tree h ht hr
    exact hb.volume ▸ hpers _
  | unlink cwd path => exact minifsUnlink_persists h ht hr
  | _ => exact quiet trivial

end Step

/-- Through calls with absolute paths the store stays sound and the names a tree. -/
theorem runCalls_tree {s : FsSt} (h : s.Sound) (ht : s.volume.Tree) {calls : List Call}
    (habs : ∀ call ∈ calls, call.Absolute) :
    (runCalls s calls).Sound ∧ (runCalls s calls).volume.Tree := by
  induction calls generalizing s with
  | nil => exact ⟨h, ht⟩
  | cons call rest ih =>
    have hr := (habs call List.mem_cons_self).rooted s.volume
    exact ih (step_sealed h call).sound (step_persists h ht hr).tree
      fun c hc => habs c (List.mem_cons_of_mem call hc)

/-- From any image the builder makes, through any calls by absolute paths: the
inodes in use are those the root reaches; each but the root has exactly one live
entry, in the directory its parent field names and with its own mode; and the
names of a directory are distinct and well formed. -/
theorem runCalls_namespace (img : Image) (slot : Disk) (s₀ : FsSt) (calls : List Call)
    (habs : ∀ call ∈ calls, call.Absolute) :
    let V := (runCalls (img.mount slot s₀) calls).volume
    (∀ n, V.ibit n = true ↔ V.Reachable n) ∧
    (∀ n, V.ibit n = true → n ≠ 0 →
      ∃ d i e, V.Names d i e ∧ e.inode = n ∧ (V.node n).parent = d ∧ (V.node n).mode = e.mode ∧
        ∀ d' i' e', V.Names d' i' e' → e'.inode = n → d' = d ∧ i' = i) ∧
    (∀ d i e, V.Names d i e → cstr e.name ≠ [] ∧ (cstr e.name).length ≤ 55 ∧ slash ∉ cstr e.name ∧
        cstr e.name ≠ [dot] ∧ cstr e.name ≠ [dot, dot] ∧
        ∀ i' e', V.Names d i' e' → cstr e'.name = cstr e.name → i' = i) := by
  intro V
  have ht : V.Tree := (runCalls_tree (img.mount_sound slot s₀) (img.mount_tree slot s₀) habs).2
  refine ⟨fun n => ⟨ht.reach n, ht.reachable_used⟩, fun n hn h0 => ?_, fun d i e hnames => ?_⟩
  · obtain ⟨d, i, e, hnames, rfl⟩ := ht.exists_names hn h0
    exact ⟨d, i, e, hnames, rfl, ht.childParent hnames, ht.childMode hnames,
      fun d' i' e' hnames' heq => ht.unique hnames' hnames heq⟩
  · have hgood := ht.name hnames
    refine ⟨?_, hgood.short, hgood.noSlash, hgood.notDot, hgood.notDots,
      fun i' e' hnames' heq => ht.distinct hnames' hnames heq⟩
    exact List.length_pos_iff.mp hgood.pos

theorem runCalls_namespace_mkdir :
    let calls := [Call.mkdir 0 (some ⟨[slash, 100], by decide⟩)]
    let V := (runCalls (Image.empty.mount bareSlot boot) calls).volume
    (∀ call ∈ calls, call.Absolute) ∧ ∀ n, V.ibit n = true ↔ V.Reachable n := by
  intro calls V
  have habs : ∀ call ∈ calls, call.Absolute := by
    intro call hcall
    rw [List.mem_singleton.mp hcall]
    rfl
  exact ⟨habs, (runCalls_namespace Image.empty _ boot calls habs).1⟩

end MiniOs.Fs

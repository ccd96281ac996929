import MiniOs.Proofs.Reach
import MiniOs.Proofs.UserPages

/-!
# Copies between the kernel and a process

`copy_from_user` and `copy_to_user` ask for permission in one loop and copy in another. The
first goes from page to page and looks at the first byte it has in each, the second cuts the
range at the page boundaries; they meet because a page is all of one kind. After the first
loop the second cannot fail, so a copy that fails has not begun.

All of this is in addresses modulo `2 ^ 64`. The last page of all would be followed by
page 0, but no space has it: `map_user_page` refuses what is not below the stack's top.
-/

namespace MiniOs.Kernel

open MiniOs.Lib

variable {layout : Layout} {others : List Nat} {m m' : Memory} {space : AddressSpace}

/-! ## The spaces of a history -/

theorem createEmptySpace_pages (h : (createEmptySpace m).2 = some space) : space.pages = [] := by
  unfold createEmptySpace at h
  split at h
  · cases h
  · dsimp only at h
    split at h
    · cases h
      rfl
    · cases h

/-- Every space of a history has its pages at addresses of their own. -/
theorem step_orderly {s : Spaces} (h : ∀ space ∈ s.spaces, Orderly space) (e : SpaceEvent) :
    ∀ space ∈ (s.step e).spaces, Orderly space := by
  cases e with
  | create =>
    dsimp only [Spaces.step]
    intro space hspace
    rcases List.mem_append.mp hspace with hold | hnew
    · exact h space hold
    · rw [Option.mem_toList] at hnew
      have hpages := createEmptySpace_pages hnew
      refine ⟨?_, ?_, ?_⟩ <;> simp [AddressSpace.vas, hpages]
  | map i va r w x =>
    dsimp only [Spaces.step]
    split
    · exact h
    · next space hi =>
      intro other hother
      rcases List.mem_or_eq_of_mem_set hother with hold | rfl
      · exact h other hold
      · exact (h space (List.mem_of_getElem? hi)).mapUserPage _ _ _
  | fill i va contents =>
    dsimp only [Spaces.step]
    split
    · exact h
    · exact h
  | destroy i =>
    dsimp only [Spaces.step]
    split
    · exact h
    · exact fun space hspace => h space (List.mem_of_mem_eraseIdx hspace)
  | access csrs vaddr type mode => exact h

theorem after_orderly (m : Memory) (events : List SpaceEvent) :
    ∀ space ∈ (Spaces.after m events).spaces, Orderly space := by
  have hstep : ∀ (s : Spaces) (e : SpaceEvent), (∀ space ∈ s.spaces, Orderly space) →
      ∀ space ∈ (s.step e).spaces, Orderly space := fun _ e h => step_orderly h e
  have hstart : ∀ space ∈ (⟨(vmInit m).1, []⟩ : Spaces).spaces, Orderly space :=
    fun space hspace => absurd hspace List.not_mem_nil
  exact run_inv hstep hstart events

/-- What a space has is taken from all the pages in use. -/
theorem after_own (hheap : m.Uses layout others) {satp : Cemu.Word}
    (hvm : (vmInit m).2 = some satp) (events : List SpaceEvent)
    (hspace : space ∈ (Spaces.after m events).spaces) :
    ∃ rest, OwnPages layout rest (Spaces.after m events).memory space := by
  have hok : (Spaces.after m events).Ok layout others := run_ok (vmInit_ok hheap hvm) events
  have horderly := after_orderly m events space hspace
  generalize Spaces.after m events = s at hok hspace ⊢
  obtain ⟨before, after, hsplit⟩ := List.append_of_mem hspace
  refine ⟨before.flatMap AddressSpace.owned ++ (after.flatMap AddressSpace.owned ++
    (kernelPages s.memory ++ others)), .of_orderly (hok.uses.perm ?_) horderly⟩
  unfold Spaces.pages
  rw [hsplit, List.flatMap_append, List.flatMap_cons]
  simp only [List.append_assoc]
  exact List.perm_append_comm_assoc _ _ _

/-! ## The copies -/

/-- The bytes of one page, from an address on. -/
theorem peek_in_page {mapping : Mapping} {source i : Nat}
    (hat : mappingAt space source = some mapping) (hi : source % pageSize + i < pageSize) :
    peek m space (source + i) = some (m.ram (mapping.page + source % pageSize + i)) := by
  have hpage : (source + i) / pageSize = source / pageSize ∧
      (source + i) % pageSize = source % pageSize + i := by
    unfold pageSize at *
    omega
  have hsame : mappingAt space (source + i) = some mapping := by
    rw [← mappingAt_page, hpage.1, mappingAt_page, hat]
  unfold peek
  rw [hsame, hpage.2, Option.map_some, Nat.add_assoc]

/-- `copy_from_space` delivers the bytes of the range where every byte has a page. -/
theorem copyFromSpace_eq {fuel : Nat} :
    ∀ {destination : Region} {done source length : Nat}, length ≤ fuel → source + length < 2 ^ 64 →
      (∀ a, source ≤ a → a < source + length → (mappingAt space a).isSome = true) →
      copyFromSpace m space fuel destination done source length =
        (destination.blit done (fun i => (peek m space (source + i)).getD 0) length, true) := by
  have hnone : ∀ {destination : Region} {done source : Nat},
      destination.blit done (fun i => (peek m space (source + i)).getD 0) 0 = destination := by
    intro destination done source
    funext i
    exact Region.blit_out (by omega)
  induction fuel with
  | zero =>
    intro destination done source length hfuel _ _
    obtain rfl : length = 0 := by omega
    rw [hnone]
    rfl
  | succ fuel ih =>
    intro destination done source length hfuel hlt hmapped
    rw [copyFromSpace]
    split
    · next hzero => rw [hzero, hnone]
    next hne =>
      obtain ⟨mapping, hat⟩ :=
        Option.isSome_iff_exists.mp (hmapped source (Nat.le_refl _) (by omega))
      rw [hat]
      dsimp only
      obtain ⟨chunk, hchunk⟩ :
          ∃ chunk, chunk = min length (pageSize - source % pageSize) := ⟨_, rfl⟩
      have hmod : source % pageSize < pageSize := Nat.mod_lt _ (by decide)
      have hnext : (source + chunk) % 2 ^ 64 = source + chunk :=
        Nat.mod_eq_of_lt (by omega)
      rw [← hchunk, hnext, ih (by omega) (by omega)
        fun a hlo hhi => hmapped a (by omega) (by omega)]
      refine congrArg (·, true) (funext fun i => ?_)
      -- before the chunk ends the bytes are of this page, and behind it of the rest
      by_cases hfirst : done ≤ i ∧ i < done + chunk
      · rw [Region.blit_out (by omega), Region.blit_in (by omega) (by omega),
          Region.blit_in (by omega) (by omega), peek_in_page hat (by omega), Option.getD_some]
      · by_cases hrest : done + chunk ≤ i ∧ i < done + length
        · rw [Region.blit_in (by omega) (by omega), Region.blit_in (by omega) (by omega),
            show source + chunk + (i - (done + chunk)) = source + (i - done) by omega]
        · rw [Region.blit_out (by omega), Region.blit_out (by omega), Region.blit_out (by omega)]

/-! ## Exact, and all or nothing -/

/-- `copy_from_user` is exact. -/
structure CopiesFrom (m : Memory) (space : AddressSpace) (destination : Region)
    (source length : Nat) : Prop where
  succeeds : (copyFromUserPages m space destination source length).2 = true ↔
    length = 0 ∨ RangeAllows space pteR source length
  bytes : (copyFromUserPages m space destination source length).2 = true → ∀ i, i < length →
    peek m space (source + i) = some ((copyFromUserPages m space destination source length).1 i)
  rest : (copyFromUserPages m space destination source length).2 = true → ∀ i, length ≤ i →
    (copyFromUserPages m space destination source length).1 i = destination i
  failed : (copyFromUserPages m space destination source length).2 = false →
    (copyFromUserPages m space destination source length).1 = destination

/-- `copy_to_user` is exact. -/
structure CopiesTo (m : Memory) (space : AddressSpace) (destination : Nat)
    (source : List UInt8) : Prop where
  succeeds : (copyToUserPages m space destination source).2 = true ↔
    source.length = 0 ∨ RangeAllows space pteW destination source.length
  bytes : (copyToUserPages m space destination source).2 = true → ∀ i, i < source.length →
    peek (copyToUserPages m space destination source).1 space (destination + i) = source[i]?
  rest : (copyToUserPages m space destination source).2 = true →
    ∃ ram, (copyToUserPages m space destination source).1 = { m with ram := ram } ∧
      ∀ p, ¬ Backs space destination source.length p → ram p = m.ram p
  failed : (copyToUserPages m space destination source).2 = false →
    (copyToUserPages m space destination source).1 = m

section Exact

variable (h : OwnPages layout others m space) {address : Nat} (haddress : address < 2 ^ 64)
include h haddress

theorem copiesFrom {length : Nat} (hlength : length < 2 ^ 64) (destination : Region) :
    CopiesFrom m space destination address length := by
  rcases asked_cases h.belowTop _ _ _ (copyFromUserPages m space destination address length) rfl
      haddress hlength with ⟨hzero, hrun⟩ | ⟨hne, hrange, hrun⟩ | ⟨hne, hrange, hrun⟩
  · constructor <;> rw [hrun]
    · exact iff_of_true rfl (.inl hzero)
    · exact fun _ i hi => by omega
    · exact fun _ i _ => rfl
    · exact nofun
  · have hcopy := @copyFromSpace_eq m space length destination 0 address length (Nat.le_refl _)
      (hrange.lt h.belowTop hne) fun a hlo hhi => hrange.mapped hlo hhi
    constructor <;> rw [hrun, hcopy]
    · exact iff_of_true rfl (.inr hrange)
    · intro _ i hi
      obtain ⟨mapping, hat⟩ :=
        Option.isSome_iff_exists.mp (hrange.mapped (Nat.le_add_right address i) (by omega))
      dsimp only
      rw [Region.blit_in (Nat.zero_le _) (by omega), Nat.sub_zero]
      unfold peek
      rw [hat]
      rfl
    · intro _ i hi
      dsimp only
      exact Region.blit_out (by omega)
    · exact nofun
  · constructor <;> rw [hrun]
    · exact iff_of_false nofun (not_or.mpr ⟨hne, hrange⟩)
    · exact nofun
    · exact nofun
    · exact fun _ => rfl

theorem copiesTo {source : List UInt8} (hlength : source.length < 2 ^ 64) :
    CopiesTo m space address source := by
  rcases asked_cases h.belowTop _ _ _ (copyToUserPages m space address source) rfl haddress hlength
    with ⟨hzero, hrun⟩ | ⟨hne, hrange, hrun⟩ | ⟨hne, hrange, hrun⟩
  · constructor <;> rw [hrun]
    · exact iff_of_true rfl (.inl hzero)
    · exact fun _ i hi => by omega
    · exact fun _ => ⟨m.ram, rfl, fun _ _ => rfl⟩
    · exact nofun
  · obtain ⟨ram, ok, hcopy, hframe, hlays, hdone⟩ := @copyToSpace_spec space source.length m
      address source (hrange.lt h.belowTop hne)
    obtain rfl := hdone (Nat.le_refl _) fun a hlo hhi => hrange.mapped hlo hhi
    constructor <;> rw [hrun, hcopy]
    · exact iff_of_true rfl (.inr hrange)
    · intro _ i hi
      rw [(hlays rfl _ _ h).2, overlay, if_pos (by omega), Nat.add_sub_cancel_left]
    · exact fun _ => ⟨ram, rfl, hframe⟩
    · exact nofun
  · constructor <;> rw [hrun]
    · exact iff_of_false nofun (not_or.mpr ⟨hne, hrange⟩)
    · exact nofun
    · exact nofun
    · exact fun _ => rfl

end Exact

/-- After any history, and for every range, both copies of a process are exact, and all or
nothing. -/
theorem user_copies_exact {m : Memory} (hheap : m.Uses layout others) {satp : Cemu.Word}
    (hvm : (vmInit m).2 = some satp) (events : List SpaceEvent) {space : AddressSpace}
    (hspace : space ∈ (Spaces.after m events).spaces) {address length : Nat}
    (haddress : address < 2 ^ 64) (hlength : length < 2 ^ 64) :
    (∀ destination, CopiesFrom (Spaces.after m events).memory space destination address length) ∧
      ∀ source, source.length = length →
        CopiesTo (Spaces.after m events).memory space address source := by
  obtain ⟨rest, hown⟩ := after_own hheap hvm events hspace
  refine ⟨copiesFrom hown haddress hlength, fun source hsource => copiesTo hown haddress ?_⟩
  rwa [hsource]

-- the whole of a page that is mapped, and the byte behind it
theorem user_copies_exact_page :
    onePageSpace ∈ (Spaces.after sampleMemory onePageEvents).spaces ∧
      RangeAllows onePageSpace pteW 0x10000 4096 ∧ ¬ RangeAllows onePageSpace pteW 0x10000 4097 ∧
      (∀ destination, CopiesFrom (Spaces.after sampleMemory onePageEvents).memory onePageSpace
        destination 0x10000 4096) ∧
      ∀ source, source.length = 4096 →
        CopiesTo (Spaces.after sampleMemory onePageEvents).memory onePageSpace 0x10000 source := by
  refine ⟨onePageSpace_mem, ⟨by decide, fun a hlo hhi => ?_⟩, fun hrange => ?_, ?_⟩
  · have hpage : a / pageSize * pageSize = 0x10000 := by
      unfold pageSize
      omega
    refine ⟨6, ?_, by decide⟩
    unfold flagsAt
    rw [← mappingAt_page, hpage]
    rfl
  · obtain ⟨flags, hflags, -⟩ := hrange.2 0x11000 (by decide) (by decide)
    cases hflags
  · exact user_copies_exact (memInit_uses sampleLayout) rfl onePageEvents onePageSpace_mem
      (by decide) (by decide)

end MiniOs.Kernel

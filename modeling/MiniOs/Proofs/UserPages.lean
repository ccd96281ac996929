import MiniOs.Kernel.UserCopy
import MiniOs.Proofs.SpaceTables

/-!
# What the pages of a process hold

`peek` and `flagsAt` are all a process can learn about its pages, and each function of
`user.c` is one equation about them. Mapping a range of pages adds flags, and zeros
where there was nothing; copying lays a list over the bytes that are there.

The equations are about addresses, but the functions write to physical memory, and a
page of a process must be neither a page of another address nor a page table. `OwnPages`
says so: it is the allocator's promise, restricted to one address space.
-/

namespace MiniOs.Kernel

open MiniOs.Lib

variable {layout : Layout} {others : List Nat} {m m' : Memory} {space space' : AddressSpace}
  {va flags : Nat} {mapping : Mapping}

/-- The addresses of the pages of a space. -/
def AddressSpace.vas (space : AddressSpace) : List Nat := space.pages.map Mapping.va

/-- The pages of a space are at addresses of their own, in the range of the user. -/
structure Orderly (space : AddressSpace) : Prop where
  inside : ∀ va ∈ space.vas, userMinVa ≤ va ∧ va < userStackTop ∧ va % pageSize = 0
  distinct : space.vas.Nodup
  few : space.vas.length ≤ 64

namespace Orderly

/-- A mapping is found at its address. -/
theorem mappingAt_of_mem (h : Orderly space) (hmem : mapping ∈ space.pages) :
    mappingAt space mapping.va = some mapping := by
  have hpage : mapping.va / pageSize * pageSize = mapping.va :=
    Nat.div_mul_cancel (Nat.dvd_of_mod_eq_zero (h.inside _ (List.mem_map_of_mem hmem)).2.2)
  rw [mappingAt_eq_find, hpage]
  cases hfind : space.pages.find? fun other => other.va = mapping.va with
  | none => simpa using List.find?_eq_none.mp hfind mapping hmem
  | some other =>
    have hva : other.va = mapping.va := by simpa using List.find?_some hfind
    rw [List.inj_on_of_nodup_map h.distinct (List.mem_of_find?_eq_some hfind) hmem hva]

theorem modify (h : Orderly space) (i flags : Nat) :
    Orderly { space with
      pages := space.pages.modify i fun mapping => { mapping with flags := flags } } := by
  have hvas : AddressSpace.vas { space with
      pages := space.pages.modify i fun mapping => { mapping with flags := flags } } =
      space.vas := map_modify_eq Mapping.va (fun mapping => by rfl) _ _
  constructor
  · rw [hvas]
    exact h.inside
  · rw [hvas]
    exact h.distinct
  · rw [hvas]
    exact h.few

theorem append (h : Orderly space) (hnone : mappingAt space va = none)
    (hva : userMinVa ≤ va ∧ va < userStackTop ∧ va % pageSize = 0)
    (hroom : space.pages.length < 64) (page : Nat) :
    Orderly { space with pages := space.pages ++ [⟨va, page, flags⟩] } := by
  refine ⟨?_, ?_, ?_⟩
  · intro other hmem
    rw [AddressSpace.vas, List.map_append, List.mem_append] at hmem
    rcases hmem with hold | hnew
    · exact h.inside other hold
    · rw [List.mem_singleton.mp hnew]
      exact hva
  · rw [AddressSpace.vas, List.map_append, List.nodup_append]
    refine ⟨h.distinct, List.nodup_singleton _, fun other hold new hnew heq => ?_⟩
    obtain ⟨mapping, hmem, rfl⟩ := List.mem_map.mp hold
    have hfound := h.mappingAt_of_mem hmem
    rw [heq, List.mem_singleton.mp hnew, hnone] at hfound
    cases hfound
  · rw [AddressSpace.vas, List.length_map, List.length_append, List.length_singleton]
    omega

/-- So `map_user_page` keeps them, whether it succeeds or not. -/
theorem mapUserPage (h : Orderly space) (m : Memory) (va flags : Nat) :
    Orderly (mapUserPage m space va flags).2.1 := by
  unfold Kernel.mapUserPage
  split
  · exact h
  next hva =>
    split
    · exact h.modify _ _
    · next hnone =>
      split
      · exact h
      · next hroom =>
        split
        · exact h
        · exact h.append hnone (by omega) (by omega) _

end Orderly

/-- The pages of a space are its own, at addresses of their own. -/
structure OwnPages (layout : Layout) (others : List Nat) (m : Memory) (space : AddressSpace) :
    Prop where
  uses : m.Uses layout (space.owned ++ others)
  inside : ∀ va ∈ space.vas, userMinVa ≤ va ∧ va < userStackTop ∧ va % pageSize = 0
  distinct : space.vas.Nodup
  few : space.vas.length ≤ 64

namespace OwnPages

theorem page_owned (hmem : mapping ∈ space.pages) : mapping.page ∈ space.owned :=
  List.mem_append_left _ (List.mem_map_of_mem hmem)

theorem of_orderly (hu : m.Uses layout (space.owned ++ others)) (h : Orderly space) :
    OwnPages layout others m space :=
  ⟨hu, h.inside, h.distinct, h.few⟩

variable (h : OwnPages layout others m space)
include h

theorem nodup : space.owned.Nodup :=
  (List.nodup_append.mp h.uses.pool.nodup_used).1

theorem page_aligned {p : Nat} (hp : p ∈ space.owned) : p % pageSize = 0 :=
  (h.uses.bounds (List.mem_append_left _ hp)).2.2

theorem orderly : Orderly space :=
  ⟨h.inside, h.distinct, h.few⟩

/-- Pages at different addresses have no byte in common. -/
theorem apart {a b : Nat} {x y : Mapping} (hx : mappingAt space a = some x)
    (hy : mappingAt space b = some y) (hne : a / pageSize ≠ b / pageSize) :
    x.page + pageSize ≤ y.page ∨ y.page + pageSize ≤ x.page := by
  obtain ⟨hxmem, hxva⟩ := mappingAt_mem hx
  obtain ⟨hymem, hyva⟩ := mappingAt_mem hy
  refine Pool.apart (h.page_aligned (page_owned hxmem)) (h.page_aligned (page_owned hymem)) ?_
  intro hpage
  obtain rfl := List.inj_on_of_nodup_map (List.nodup_append.mp h.nodup).1 hxmem hymem hpage
  exact hne (Nat.eq_of_mul_eq_mul_right (by decide) (hxva.symm.trans hyva))

theorem peek_wrote {pages : List Nat} (hw : Wrote pages m m')
    (hpages : ∀ p ∈ pages, p % pageSize = 0)
    (hout : ∀ p ∈ pages, ∀ mapping ∈ space.pages, mapping.page ≠ p) (a : Nat) :
    peek m' space a = peek m space a := by
  unfold peek
  cases hat : mappingAt space a with
  | none => rfl
  | some mapping =>
    obtain ⟨hmem, -⟩ := mappingAt_mem hat
    refine congrArg some (hw.ram _ fun p hp => ?_)
    have hapart := Pool.apart (h.page_aligned (page_owned hmem)) (hpages p hp)
      (hout p hp mapping hmem)
    have hlt : a % pageSize < pageSize := Nat.mod_lt _ (by decide)
    omega

/-- The table of a space is none of its pages. -/
theorem table_ne (hmem : mapping ∈ space.pages) : mapping.page ≠ space.l0User :=
  (List.nodup_append.mp h.nodup).2.2 _ (List.mem_map_of_mem hmem) _ List.mem_cons_self

/-! ## Copies -/

/-- One round of `copy_to_space` stays inside a page. -/
theorem peek_blit {destination chunk : Nat} (hat : mappingAt space destination = some mapping)
    {source : List UInt8} (hin : destination % pageSize + chunk ≤ pageSize)
    (hlen : (source.take chunk).length = chunk) :
    peek { m with
        ram := m.ram.blit (mapping.page + destination % pageSize) (fun i => source.getD i 0) chunk }
      space = overlay (peek m space) destination (source.take chunk) := by
  have hpos : 0 < pageSize := by decide
  have hsplit := Nat.div_add_mod destination pageSize
  funext a
  have hsplit' := Nat.div_add_mod a pageSize
  have hmod : a % pageSize < pageSize := Nat.mod_lt _ hpos
  unfold overlay peek
  by_cases hpage : a / pageSize = destination / pageSize
  · -- the same page: the same offsets inside it
    have hsame : mappingAt space a = some mapping := by
      rw [← mappingAt_page, hpage, mappingAt_page, hat]
    rw [hpage] at hsplit'
    rw [hsame, hlen]
    by_cases hcov : destination ≤ a ∧ a < destination + chunk
    · have hlt := List.length_take_le' chunk source
      rw [if_pos hcov, Option.map_some]
      dsimp only
      rw [Region.blit_in (by omega) (by omega),
        show mapping.page + a % pageSize - (mapping.page + destination % pageSize) =
          a - destination by omega, List.getElem?_take_of_lt (by omega),
        List.getD_eq_getElem?_getD, List.getElem?_eq_getElem (by omega), Option.getD_some]
    · rw [if_neg hcov, Option.map_some, Option.map_some]
      dsimp only
      rw [Region.blit_out (by omega)]
  · have hout : ¬ (destination ≤ a ∧ a < destination + (source.take chunk).length) := by
      rintro ⟨hlo, hhi⟩
      refine hpage (Nat.le_antisymm ?_ (Nat.div_le_div_right hlo))
      rw [Nat.div_le_iff_le_mul_add_pred hpos]
      omega
    rw [if_neg hout]
    cases hother : mappingAt space a with
    | none => rfl
    | some other =>
      have hapart := h.apart hother hat hpage
      rw [Option.map_some, Option.map_some]
      dsimp only
      rw [Region.blit_out (by omega)]

theorem of_ram (ram : Region) : OwnPages layout others { m with ram := ram } space :=
  ⟨h.uses, h.inside, h.distinct, h.few⟩

end OwnPages

/-- Bytes are laid over what a process has in its pages. -/
def Lays (space : AddressSpace) (destination : Nat) (source : List UInt8) (m m' : Memory) : Prop :=
  ∀ (layout : Layout) (others : List Nat), OwnPages layout others m space →
    OwnPages layout others m' space ∧ peek m' space = overlay (peek m space) destination source

namespace Lays

variable {m₁ : Memory} {destination : Nat} {first second : List UInt8}

theorem nil (m : Memory) : Lays space destination [] m m :=
  fun _ _ h => ⟨h, (overlay_nil _ _).symm⟩

theorem append (h1 : Lays space destination first m m₁)
    (h2 : Lays space (destination + first.length) second m₁ m') :
    Lays space destination (first ++ second) m m' := by
  intro layout others h
  obtain ⟨hown, hpeek⟩ := h1 layout others h
  obtain ⟨hown', hpeek'⟩ := h2 layout others hown
  exact ⟨hown', by rw [hpeek', hpeek, overlay_overlay]⟩

/-- The second piece may be there first. -/
theorem prepend (h2 : Lays space (destination + first.length) second m m₁)
    (h1 : Lays space destination first m₁ m') :
    Lays space destination (first ++ second) m m' := by
  intro layout others h
  obtain ⟨hown, hpeek⟩ := h2 layout others h
  obtain ⟨hown', hpeek'⟩ := h1 layout others hown
  exact ⟨hown', by rw [hpeek', hpeek, overlay_below]⟩

end Lays

/-- The physical address of a byte of the range. -/
def Backs (space : AddressSpace) (first length p : Nat) : Prop :=
  ∃ a mapping, first ≤ a ∧ a < first + length ∧ mappingAt space a = some mapping ∧
    mapping.page + a % pageSize = p

/-- `copy_to_space` writes to the pages behind the range, at the offsets of the range. It has
copied everything where it succeeds, and it does where every byte has a page. -/
theorem copyToSpace_spec {fuel : Nat} :
    ∀ (m : Memory) {destination : Nat} {source : List UInt8}, destination + source.length < 2 ^ 64 →
      ∃ ram ok, copyToSpace space fuel m destination source = ({ m with ram := ram }, ok) ∧
        (∀ p, ¬ Backs space destination source.length p → ram p = m.ram p) ∧
        (ok = true → Lays space destination source m { m with ram := ram }) ∧
        (source.length ≤ fuel → (∀ a, destination ≤ a → a < destination + source.length →
          (mappingAt space a).isSome = true) → ok = true) := by
  induction fuel with
  | zero =>
    intro m destination source _
    refine ⟨m.ram, source.isEmpty, rfl, fun _ _ => rfl, fun hok => ?_, fun hfuel _ => ?_⟩
    · rw [List.isEmpty_iff.mp hok]
      exact .nil m
    · exact List.isEmpty_iff.mpr (List.length_eq_zero_iff.mp (Nat.le_zero.mp hfuel))
  | succ fuel ih =>
    intro m destination source hlt
    rw [copyToSpace]
    split
    · next hnil =>
      rw [hnil]
      exact ⟨m.ram, true, rfl, fun _ _ => rfl, fun _ => .nil m, fun _ _ => rfl⟩
    next hne =>
    have hpos : 0 < source.length := List.length_pos_iff.mpr hne
    cases hat : mappingAt space destination with
    | none =>
      refine ⟨m.ram, false, rfl, fun _ _ => rfl, nofun, fun _ hmapped => ?_⟩
      have hsome := hmapped destination (Nat.le_refl _) (by omega)
      rw [hat] at hsome
      cases hsome
    | some mapping =>
      dsimp only
      obtain ⟨chunk, hchunk⟩ :
          ∃ chunk, chunk = min source.length (pageSize - destination % pageSize) := ⟨_, rfl⟩
      have hmod : destination % pageSize < pageSize := Nat.mod_lt _ (by decide)
      have hnext : (destination + chunk) % 2 ^ 64 = destination + chunk :=
        Nat.mod_eq_of_lt (by omega)
      rw [← hchunk, hnext]
      obtain ⟨ram, ok, hrun, hframe, hlays, hmapped⟩ := @ih { m with
        ram := m.ram.blit (mapping.page + destination % pageSize)
          (fun i => source.getD i 0) chunk } (destination + chunk) (source.drop chunk)
        (by rw [List.length_drop]; omega)
      rw [List.length_drop] at hframe hmapped
      refine ⟨ram, ok, hrun, fun p hp => (hframe p ?_).trans ?_, fun hok => ?_,
        fun hfuel hall => hmapped (by omega) fun a hlo hhi => hall a (by omega) (by omega)⟩
      · rintro ⟨a, other, hlo, hhi, hother⟩
        exact hp ⟨a, other, by omega, by omega, hother⟩
      · dsimp only
        refine Region.blit_out ?_
        by_contra hin
        obtain ⟨i, hi⟩ : ∃ i, p = mapping.page + destination % pageSize + i :=
          ⟨p - (mapping.page + destination % pageSize), by omega⟩
        refine hp ⟨destination + i, mapping, by omega, by omega, ?_, ?_⟩
        · rw [← mappingAt_page, show (destination + i) / pageSize = destination / pageSize by
            unfold pageSize at *; omega, mappingAt_page, hat]
        · unfold pageSize at *
          omega
      · have hlen : (source.take chunk).length = chunk := by rw [List.length_take]; omega
        have hround : Lays space destination (source.take chunk) m _ := fun _ _ hown =>
          ⟨hown.of_ram _, hown.peek_blit hat (by omega) hlen⟩
        have hall := hround.append (by rw [hlen]; exact hlays hok)
        rwa [List.take_append_drop] at hall

/-! ## Mapping -/

/-- A page that `kalloc` has just handed out is mapped at an address that had none. -/
theorem OwnPages.newPage (h : OwnPages layout others m space) {heap : Heap} {page : Nat}
    (hnone : mappingAt space va = none)
    (hva : userMinVa ≤ va ∧ va < userStackTop ∧ va % pageSize = 0)
    (hroom : space.pages.length < 64)
    (hu : heap.Uses layout ((some page).toList ++ (space.owned ++ others)))
    (hmap : (((Memory.zeroPage { m with toHeap := heap } page).setEntry space.l0User
        (leafIndex va) (pte page (flags ||| pteU ||| pteV)),
        { space with pages := space.pages ++ [⟨va, page, flags⟩] }, true) :
        Memory × AddressSpace × Bool) = (m', space', true)) :
    OwnPages layout others m' space' ∧ ∀ a, flagsAt space' a = (if a / pageSize * pageSize = va
        then some ((flagsAt space a).getD 0 ||| flags) else flagsAt space a) ∧
      peek m' space' a = (if a / pageSize * pageSize = va
        then some ((peek m space a).getD 0) else peek m space a) := by
  cases hmap
  obtain ⟨-, hleaf⟩ := leafIndex_eq hva.2.1
  have hat := @mappingAt_append space ⟨va, page, flags⟩ hnone hva.2.2
  have hl0mem : space.l0User ∈ space.owned := by simp [AddressSpace.owned]
  have hmod : page % pageSize = 0 := (hu.bounds List.mem_cons_self).2.2
  have hfresh : ∀ p ∈ space.owned, p ≠ page := by
    rintro p hp rfl
    have hnodup : (p :: (space.owned ++ others)).Nodup := hu.pool.nodup_used
    exact (List.nodup_cons.mp hnodup).1 (List.mem_append_left _ hp)
  have hempty : ∀ a, a / pageSize * pageSize = va → mappingAt space a = none := by
    intro a ha
    rw [← mappingAt_page, ha, hnone]
  have hpages : ∀ p ∈ [page, space.l0User], p % pageSize = 0 := by
    simpa using ⟨hmod, h.page_aligned hl0mem⟩
  have hset : Wrote [space.l0User] (Memory.zeroPage { m with toHeap := heap } page)
      ((Memory.zeroPage { m with toHeap := heap } page).setEntry space.l0User (leafIndex va)
        (pte page (flags ||| pteU ||| pteV))) :=
    Wrote.setEntry _ (by simp) hleaf _
  have hwrote : Wrote [page, space.l0User] m
      ((Memory.zeroPage { m with toHeap := heap } page).setEntry space.l0User (leafIndex va)
        (pte page (flags ||| pteU ||| pteV))) :=
    ((Wrote.heap m heap _).trans (Wrote.blit _ (by simp) _)).trans (hset.mono (by simp))
  refine ⟨of_orderly ?_ (h.orderly.append hnone hva hroom page), fun a => ⟨?_, ?_⟩⟩
  · refine hu.perm ?_
    unfold AddressSpace.owned
    rw [List.map_append, List.append_assoc, List.append_assoc, List.append_assoc]
    exact List.perm_append_comm_assoc [page] _ _
  · unfold flagsAt
    rw [hat]
    split
    · next ha =>
      rw [hempty a ha, Option.map_none, Option.getD_none, Nat.zero_or]
      rfl
    · rfl
  · have hram := h.peek_wrote hwrote hpages (fun p hp mapping hmem => ?_) a
    · unfold peek at hram ⊢
      rw [hat]
      split
      · next ha =>
        -- the page is zero, and its table is another page
        rw [hempty a ha, Option.map_none, Option.getD_none, Option.map_some]
        have hlt : a % pageSize < pageSize := Nat.mod_lt _ (by decide)
        refine congrArg some ((hset.ram _ fun p hp => ?_).trans ?_)
        · rw [List.mem_singleton.mp hp]
          have hapart := Pool.apart hmod (h.page_aligned hl0mem) (hfresh _ hl0mem).symm
          dsimp only
          omega
        · exact Region.blit_in (Nat.le_add_right _ _) (Nat.add_lt_add_left hlt _)
      · exact hram
    · rcases List.mem_cons.mp hp with rfl | hp
      · exact hfresh _ (page_owned hmem)
      · rw [List.mem_singleton.mp hp]
        exact h.table_ne hmem

/-- What `map_user_page` does to the pages of a process. -/
theorem mapUserPage_peek (h : OwnPages layout others m space)
    (hmap : mapUserPage m space va flags = (m', space', true)) :
    OwnPages layout others m' space' ∧ ∀ a, flagsAt space' a = (if a / pageSize * pageSize = va
        then some ((flagsAt space a).getD 0 ||| flags) else flagsAt space a) ∧
      peek m' space' a = (if a / pageSize * pageSize = va
        then some ((peek m space a).getD 0) else peek m space a) := by
  unfold mapUserPage at hmap
  split at hmap
  · cases hmap
  next hva =>
    have htop : va < userStackTop := by omega
    have halign : va % pageSize = 0 := by omega
    obtain ⟨-, hleaf⟩ := leafIndex_eq htop
    have hl0 : ∀ p ∈ [space.l0User], p % pageSize = 0 := by
      simpa using h.page_aligned (by simp [AddressSpace.owned])
    split at hmap
    · next existing hexisting =>
      cases hmap
      have hat := mappingAt_merge (existing.flags ||| flags) halign hexisting
      have hw : Wrote [space.l0User] m (m.setEntry space.l0User (leafIndex va)
          (pte existing.page (existing.flags ||| flags ||| pteU ||| pteV))) :=
        Wrote.setEntry m (by simp) hleaf _
      have hpeek := h.peek_wrote hw hl0 fun p hp mapping hmem => by
        rw [List.mem_singleton.mp hp]
        exact h.table_ne hmem
      have hold : ∀ a, a / pageSize * pageSize = va → mappingAt space a = some existing := by
        intro a ha
        rw [← mappingAt_page, ha, hexisting]
      refine ⟨.of_orderly ?_ (h.orderly.modify _ _), fun a => ⟨?_, ?_⟩⟩
      · rw [owned_modify]
        exact h.uses
      · unfold flagsAt
        rw [hat]
        split
        · next ha => rw [hold a ha]; rfl
        · rfl
      · have hram := hpeek a
        unfold peek at hram ⊢
        rw [hat]
        split
        · next ha =>
          rw [hold a ha] at hram ⊢
          exact hram
        · exact hram
    · next hnone =>
      split at hmap
      · cases hmap
      · next hroom =>
        obtain ⟨heap, page, halloc, hu⟩ := Memory.kalloc_uses h.uses
        rw [halloc] at hmap
        cases page with
        | none => cases hmap
        | some page => exact h.newPage hnone ⟨by omega, htop, halign⟩ (by omega) hu hmap

theorem mapPages_peek {count : Nat} :
    ∀ {m m' : Memory} {space space' : AddressSpace} {va : Nat}, va % pageSize = 0 →
      OwnPages layout others m space →
      mapPages flags count m space va = (m', space', true) →
      OwnPages layout others m' space' ∧ ∀ a,
        flagsAt space' a = (if va ≤ a ∧ a < va + count * pageSize
          then some ((flagsAt space a).getD 0 ||| flags) else flagsAt space a) ∧
        peek m' space' a = (if va ≤ a ∧ a < va + count * pageSize
          then some ((peek m space a).getD 0) else peek m space a) := by
  induction count with
  | zero =>
    intro m m' space space' va _ hown h
    cases h
    refine ⟨hown, fun a => ?_⟩
    have hout : ¬ (va ≤ a ∧ a < va + 0 * pageSize) := by omega
    rw [if_neg hout, if_neg hout]
    exact ⟨rfl, rfl⟩
  | succ count ih =>
    intro m m' space space' va halign hown h
    rw [mapPages] at h
    cases hmap : mapUserPage m space va flags with
    | mk m₁ rest =>
      obtain ⟨space1, ok⟩ := rest
      rw [hmap] at h
      cases ok with
      | false => cases h
      | true =>
        obtain ⟨hown1, hone⟩ := mapUserPage_peek hown hmap
        obtain ⟨hown', hrest⟩ := ih (by rw [Nat.add_mod_right]; exact halign) hown1 h
        refine ⟨hown', fun a => ?_⟩
        -- `a` is in the first page, in one of the others, or outside
        obtain ⟨hflags, hpeek⟩ := hone a
        obtain ⟨hflags', hpeek'⟩ := hrest a
        rw [hflags', hpeek', hflags, hpeek]
        unfold pageSize at *
        by_cases hfirst : a / 4096 * 4096 = va
        · have hlater : ¬ (va + 4096 ≤ a ∧ a < va + 4096 + count * 4096) := by omega
          have hall : va ≤ a ∧ a < va + (count + 1) * 4096 := by omega
          rw [if_neg hlater, if_neg hlater, if_pos hfirst, if_pos hfirst, if_pos hall, if_pos hall]
          exact ⟨rfl, rfl⟩
        · rw [if_neg hfirst, if_neg hfirst]
          by_cases hin : va + 4096 ≤ a ∧ a < va + 4096 + count * 4096
          · have hall : va ≤ a ∧ a < va + (count + 1) * 4096 := by omega
            rw [if_pos hin, if_pos hin, if_pos hall, if_pos hall]
            exact ⟨rfl, rfl⟩
          · have hall : ¬ (va ≤ a ∧ a < va + (count + 1) * 4096) := by omega
            rw [if_neg hin, if_neg hin, if_neg hall, if_neg hall]
            exact ⟨rfl, rfl⟩

theorem createEmptySpace_own (hu : m.Uses layout others)
    (h : createEmptySpace m = (m', some space)) :
    OwnPages layout others m' space ∧ space.pages = [] := by
  unfold createEmptySpace at h
  split at h
  · cases h
  obtain ⟨h1, root, heq1, hu1⟩ := Memory.kalloc_uses hu
  rw [heq1] at h
  dsimp only at h
  obtain ⟨h2, l1Mmio, heq2, hu2⟩ := @Memory.kalloc_uses _ _ { m with toHeap := h1 } hu1
  rw [heq2] at h
  obtain ⟨h3, l0User, heq3, hu3⟩ := @Memory.kalloc_uses _ _ { m with toHeap := h2 } hu2
  rw [heq3] at h
  cases root with
  | none => cases h
  | some root =>
    cases l1Mmio with
    | none => cases h
    | some l1Mmio =>
      cases l0User with
      | none => cases h
      | some l0User =>
        cases h
        exact ⟨⟨hu3, nofun, List.nodup_nil, Nat.zero_le _⟩, rfl⟩

/-! ## Copies that ask for permission -/

theorem pageAllows_mapped {flag : Nat} (h : pageAllows space flag va = true) :
    (mappingAt space va).isSome = true := by
  unfold pageAllows at h
  cases hat : mappingAt space va with
  | none =>
    rw [hat] at h
    cases h
  | some mapping => rfl

/-- No user page is the last page of all. -/
def BelowTop (space : AddressSpace) : Prop :=
  ∀ a mapping, mappingAt space a = some mapping → a / pageSize * pageSize + pageSize < 2 ^ 64

theorem OwnPages.belowTop (h : OwnPages layout others m space) : BelowTop space := by
  intro a mapping hat
  obtain ⟨hmem, hva⟩ := mappingAt_mem hat
  have hin := h.inside _ (List.mem_map_of_mem hmem)
  rw [hva] at hin
  unfold userStackTop at hin
  unfold pageSize at *
  omega

/-- The loop over the pages looks at every byte. -/
theorem pagesAllow_iff (htop : BelowTop space) {flag last fuel : Nat} :
    ∀ {address : Nat}, last - address ≤ fuel → (pagesAllow space flag last fuel address = true ↔
        ∀ a, address ≤ a → a < last → pageAllows space flag a = true) := by
  have hpage : ∀ {a b : Nat}, a / pageSize = b / pageSize →
      pageAllows space flag a = pageAllows space flag b := by
    intro a b hab
    unfold pageAllows
    rw [← mappingAt_page, hab, mappingAt_page]
  induction fuel with
  | zero =>
    intro address hfuel
    exact iff_of_true rfl fun a hlo hhi => absurd hhi (by omega)
  | succ fuel ih =>
    intro address hfuel
    rw [pagesAllow]
    by_cases hend : last ≤ address
    · rw [if_pos hend]
      exact iff_of_true rfl fun a hlo hhi => absurd hhi (by omega)
    rw [if_neg hend]
    by_cases hfirst : pageAllows space flag address = false
    · rw [if_pos hfirst]
      refine iff_of_false (by decide) fun hall => ?_
      rw [hall address (Nat.le_refl _) (by omega)] at hfirst
      cases hfirst
    have hnext : (address / pageSize * pageSize + pageSize) % 2 ^ 64 =
        address / pageSize * pageSize + pageSize := by
      obtain ⟨mapping, hat⟩ := Option.isSome_iff_exists.mp
        (pageAllows_mapped (Bool.of_not_eq_false hfirst))
      exact Nat.mod_eq_of_lt (htop address mapping hat)
    rw [if_neg hfirst, hnext, ih (by unfold pageSize; omega)]
    constructor
    · intro hall a hlo hhi
      by_cases hsame : a / pageSize = address / pageSize
      · rw [hpage hsame]
        exact Bool.of_not_eq_false hfirst
      · refine hall a ?_ hhi
        unfold pageSize at *
        omega
    · intro hall a hlo hhi
      refine hall a ?_ hhi
      unfold pageSize at hlo
      omega

/-- What the first loop asks for: every page of the range is there and has the flag. -/
def RangeAllows (space : AddressSpace) (flag first length : Nat) : Prop :=
  first + length ≤ 2 ^ 64 ∧ ∀ a, first ≤ a → a < first + length →
    ∃ flags, flagsAt space a = some flags ∧ flags &&& flag ≠ 0

theorem pageAllows_iff {flag a : Nat} :
    pageAllows space flag a = true ↔ ∃ flags, flagsAt space a = some flags ∧ flags &&& flag ≠ 0 := by
  unfold pageAllows flagsAt
  cases mappingAt space a <;> simp

namespace RangeAllows

variable {flag address length : Nat}

theorem mapped (h : RangeAllows space flag address length) {a : Nat} (hlo : address ≤ a)
    (hhi : a < address + length) : (mappingAt space a).isSome = true :=
  pageAllows_mapped (pageAllows_iff.mpr (h.2 a hlo hhi))

/-- A range that ends at the very end would have the last page of all in it. -/
theorem lt (h : RangeAllows space flag address length) (htop : BelowTop space)
    (hpos : length ≠ 0) : address + length < 2 ^ 64 := by
  obtain ⟨mapping, hat⟩ := Option.isSome_iff_exists.mp
    (h.mapped (a := address + length - 1) (by omega) (by omega))
  have hlast := htop _ _ hat
  unfold pageSize at hlast
  omega

end RangeAllows

/-- `copy_from_user` and `copy_to_user`: nothing to do, or all pages are asked before the copy
begins. -/
theorem asked_cases (htop : BelowTop space) {flag address length : Nat} {α : Type}
    (nothing failed copied : α) :
    ∀ r, (if length = 0 then nothing
      else if (address + length) % 2 ^ 64 < address then failed
      else if pagesAllow space flag ((address + length) % 2 ^ 64) (pagesFuel space length) address =
        false then failed
      else copied) = r → address < 2 ^ 64 → length < 2 ^ 64 →
      length = 0 ∧ r = nothing ∨ length ≠ 0 ∧ RangeAllows space flag address length ∧ r = copied ∨
        length ≠ 0 ∧ ¬ RangeAllows space flag address length ∧ r = failed := by
  rintro r rfl haddress hlength
  by_cases hzero : length = 0
  · exact .inl ⟨hzero, if_pos hzero⟩
  rw [if_neg hzero]
  by_cases hwrap : (address + length) % 2 ^ 64 < address
  · refine .inr (.inr ⟨hzero, fun hrange => ?_, if_pos hwrap⟩)
    have := hrange.lt htop hzero
    omega
  have hlt : address + length < 2 ^ 64 := by omega
  have hloop : pagesAllow space flag (address + length) (pagesFuel space length) address = true ↔
      RangeAllows space flag address length := by
    rw [pagesAllow_iff htop (by unfold pagesFuel; omega)]
    simp only [pageAllows_iff]
    exact (and_iff_right hlt.le).symm
  rw [if_neg hwrap, Nat.mod_eq_of_lt hlt]
  by_cases hpages : pagesAllow space flag (address + length) (pagesFuel space length) address = true
  · rw [if_neg (by rw [hpages]; decide)]
    exact .inr (.inl ⟨hzero, hloop.mp hpages, rfl⟩)
  · rw [if_pos (Bool.eq_false_iff.mpr hpages)]
    exact .inr (.inr ⟨hzero, fun hrange => hpages (hloop.mpr hrange), rfl⟩)

/-- The answer of `copyToUser` where there is something to copy. -/
theorem copyToUser_iff {mem : UserMemory} {destination length : Nat} (hpos : 0 < length)
    (hdest : destination < 2 ^ 64) (hlen : length < 2 ^ 64) :
    copyToUser mem destination length = true ↔ destination + length < 2 ^ 64 ∧
        ∀ a, destination ≤ a → a < destination + length → mem.writable a = true := by
  have hwrap : destination ≤ (destination + length) % 2 ^ 64 ↔ destination + length < 2 ^ 64 := by
    omega
  unfold copyToUser
  rw [decide_eq_true_iff, or_iff_right (by omega), hwrap, List.all_eq_true]
  simp only [List.mem_range'_1, and_imp]

/-- `copy_to_user` succeeds as `copyToUser` says, and stores all of its bytes or none. -/
theorem copyToUserPages_eq (h : OwnPages layout others m space) {destination : Nat}
    {source : List UInt8} (hdest : destination < 2 ^ 64) (hlen : source.length < 2 ^ 64) :
    (copyToUserPages m space destination source).2 =
        copyToUser (userMemory m space) destination source.length ∧
      OwnPages layout others (copyToUserPages m space destination source).1 space ∧
      peek (copyToUserPages m space destination source).1 space =
        if copyToUser (userMemory m space) destination source.length
          then overlay (peek m space) destination source else peek m space := by
  have hiff : source.length ≠ 0 →
      (copyToUser (userMemory m space) destination source.length = true ↔
        RangeAllows space pteW destination source.length) := by
    intro hne
    rw [copyToUser_iff (Nat.pos_of_ne_zero hne) hdest hlen]
    refine ⟨fun hall => ⟨hall.1.le, fun a hlo hhi => pageAllows_iff.mp (hall.2 a hlo hhi)⟩,
      fun hrange => ⟨hrange.lt h.belowTop hne, fun a hlo hhi => ?_⟩⟩
    exact pageAllows_iff.mpr (hrange.2 a hlo hhi)
  rcases asked_cases h.belowTop _ _ _ _ rfl hdest hlen with
    ⟨hzero, hrun⟩ | ⟨hne, hrange, hrun⟩ | ⟨hne, hrange, hrun⟩
  · have hok : copyToUser (userMemory m space) destination source.length = true :=
      decide_eq_true (Or.inl hzero)
    rw [copyToUserPages, hrun, hok, List.length_eq_zero_iff.mp hzero, overlay_nil]
    exact ⟨rfl, h, (if_pos rfl).symm⟩
  · obtain ⟨ram, ok, hcopy, -, hlays, hdone⟩ := @copyToSpace_spec space source.length m destination
      source (hrange.lt h.belowTop hne)
    obtain rfl := hdone (Nat.le_refl _) fun a hlo hhi => hrange.mapped hlo hhi
    rw [copyToUserPages, hrun, hcopy, (hiff hne).mpr hrange, if_pos rfl]
    exact ⟨rfl, hlays rfl _ _ h⟩
  · rw [copyToUserPages, hrun, Bool.of_not_eq_true fun hok => hrange ((hiff hne).mp hok)]
    exact ⟨rfl, h, rfl⟩

end MiniOs.Kernel

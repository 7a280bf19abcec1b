import PellOs.Boot.PageTables
import PellOs.Mm.PageOwnership
import PellOs.Mm.TableReach

/-!
# Reach of the linear map

A page is reached as normal memory through its address in the kernel half exactly when it lies
below `VC_BASE_PHYS`.  The allocator goes on to `DEVICE_BASE_PHYS`.
-/

namespace PellOs

/-- The kernel address is translated to a physical address with `MMU_FLAGS`. -/
def NormalAt (tables : Memory) (ttbr1 address phys : Nat) : Prop :=
  ∃ level entry, leafDescriptor tables address 3 ttbr1 = some (level, entry) ∧
    outputAddress entry (pageShift + 9 * level) + address % 2 ^ (pageShift + 9 * level) = phys ∧
    entry % 2 ^ 12 = mmuFlags

/-- Every byte of the page at a physical address is reached through the kernel half. -/
def PageReached (memory : Memory) (pgDir : PgDir) (page : Nat) : Prop :=
  ∀ offset, offset < pageSize →
    NormalAt (kernelTables memory pgDir) (kernelDirectory memory pgDir)
      (virtualAddressStart + page + offset) (page + offset)

section Walk

variable (memory : Memory) (pgDir : PgDir)

/-- The index bits of an address of the kernel half are those of its offset. -/
theorem tableIndex_kernelHalf (offset : Nat) {level : Nat} (bound : level ≤ 3) :
    tableIndex (virtualAddressStart + offset) (pageShift + 9 * level) =
      offset / 2 ^ (pageShift + 9 * level) % 512 := by
  rw [tableIndex_eq, show virtualAddressStart = 2 ^ 48 * 65535 by decide, pageShift]
  have levels : level = 0 ∨ level = 1 ∨ level = 2 ∨ level = 3 := by omega
  rcases levels with rfl | rfl | rfl | rfl <;> omega

theorem outputAddress_table {number : Nat} (bound : number < 5) :
    outputAddress (pgDir.table number + 3) pageShift = pgDir.table number := by
  have boot := pgDir.boot bound
  have aligned := boot.aligned
  have below := boot.below
  have top : lowMemory < 2 ^ 48 := by decide
  simp only [pageSize] at aligned below
  rw [outputAddress, pageShift]
  omega

theorem table_entry_type {number : Nat} (bound : number < 5) :
    (pgDir.table number + 3) % 4 = 3 := by
  have aligned := (pgDir.boot bound).aligned
  simp only [pageSize] at aligned
  omega

/-- The walk passes the directory and ends at the entry of the second table, unless this leads to
the table of blocks. -/
theorem leafDescriptor_kernel {phys : Nat} (small : phys < 2 ^ 39) :
    leafDescriptor (kernelTables memory pgDir) (virtualAddressStart + phys) 3
        (kernelDirectory memory pgDir) =
      leafDescriptor (kernelTables memory pgDir) (virtualAddressStart + phys) 2
        (pgDir.table 3) := by
  have first : phys / 2 ^ (pageShift + 9 * 3) % 512 = 0 := by
    rw [pageShift]
    omega
  rw [kernelDirectory_eq, leafDescriptor]
  simp only [tableIndex_kernelHalf phys (show 2 + 1 ≤ 3 by decide), first, kernelTables_pgd,
    table_entry_type pgDir (show 3 < 5 by decide),
    outputAddress_table pgDir (show 3 < 5 by decide), if_true]

/-- Addresses of the first GiB are translated by the table of blocks. -/
theorem leafDescriptor_low {phys : Nat} (small : phys < 2 ^ 30) :
    leafDescriptor (kernelTables memory pgDir) (virtualAddressStart + phys) 3
        (kernelDirectory memory pgDir) =
      leafDescriptor (kernelTables memory pgDir) (virtualAddressStart + phys) 1
        (pgDir.table 4) := by
  have first : phys / 2 ^ (pageShift + 9 * 2) % 512 = 0 := by
    rw [pageShift]
    omega
  rw [leafDescriptor_kernel memory pgDir (by omega), leafDescriptor]
  simp only [tableIndex_kernelHalf phys (show 1 + 1 ≤ 3 by decide), first,
    kernelTables_pud memory pgDir (show 0 < ptrsPerTable by decide),
    table_entry_type pgDir (show 4 < 5 by decide),
    outputAddress_table pgDir (show 4 < 5 by decide), if_true]

theorem leafDescriptor_block {phys entry : Nat} (small : phys < 2 ^ 30)
    (block : descriptor (kernelTables memory pgDir) (pgDir.table 4) (phys / 2 ^ 21) = entry)
    (type : entry % 4 = 1) :
    leafDescriptor (kernelTables memory pgDir) (virtualAddressStart + phys) 3
        (kernelDirectory memory pgDir) = some (1, entry) := by
  have index : phys / 2 ^ (pageShift + 9 * 1) % 512 = phys / 2 ^ 21 := by
    rw [pageShift]
    omega
  rw [leafDescriptor_low memory pgDir small, leafDescriptor]
  simp only [tableIndex_kernelHalf phys (show 0 + 1 ≤ 3 by decide), index, block, type]
  simp

end Walk

/-! ## Pages of the allocator -/

section Pages

variable {memory : Memory} {pgDir : PgDir} {index : Nat}

theorem pageReached_of_low (low : pageAt index < vcBasePhys) :
    PageReached memory pgDir (pageAt index) := by
  intro offset inside
  have whole : pageAt index + offset < vcBasePhys := by
    rw [pageAt_eq_mul] at low ⊢
    simp only [vcBasePhys, pageSize] at low inside ⊢
    omega
  rw [Nat.add_assoc]
  generalize pageAt index + offset = phys at whole
  have bound : phys / 2 ^ 21 < 480 := by
    simp only [vcBasePhys] at whole
    omega
  have small : phys < 2 ^ 30 := by
    simp only [vcBasePhys] at whole
    omega
  have block := kernelTables_pmd memory pgDir (by simp only [ptrsPerTable]; omega : phys / 2 ^ 21 <
    _)
  rw [if_pos bound] at block
  refine ⟨1, _, leafDescriptor_block memory pgDir small block ?_, ?_, ?_⟩
  · rw [sectionSize, mmuFlags]
    omega
  · rw [show virtualAddressStart = 2 ^ 21 * 8795958804480 by decide, outputAddress, pageShift,
      sectionSize, mmuFlags]
    omega
  · rw [sectionSize, mmuFlags]
    omega

theorem not_pageReached_of_device (high : vcBasePhys ≤ pageAt index)
    (low : pageAt index / 2 ^ 21 < 511) : ¬PageReached memory pgDir (pageAt index) := by
  intro reached
  obtain ⟨level, entry, walked, _, flags⟩ := reached 0 (by decide)
  rw [Nat.add_zero] at walked
  have bound : 480 ≤ pageAt index / 2 ^ 21 := by
    simp only [vcBasePhys] at high
    omega
  have block := kernelTables_pmd memory pgDir (by simp only [ptrsPerTable]; omega : pageAt index / 2
    ^ 21 < _)
  rw [if_neg (by omega)] at block
  have device : descriptor (kernelTables memory pgDir) (pgDir.table 4)
      (pageAt index / 2 ^ 21) % 2 ^ 12 = mmuDeviceFlags := by
    rw [block, sectionSize, deviceBasePhys, mmuDeviceFlags]
    split_ifs <;> omega
  rw [leafDescriptor_block memory pgDir (by omega) rfl (by
    simp only [mmuDeviceFlags] at device
    omega)] at walked
  obtain ⟨rfl, rfl⟩ := Prod.mk.inj (Option.some.inj walked)
  rw [device] at flags
  exact absurd flags (by decide)

/-- The two tables behind the cleared part of `pg_dir` hold nothing before the boot. -/
def TablesBlank (memory : Memory) (pgDir : PgDir) : Prop :=
  ∀ place, place < ptrsPerTable →
    descriptor memory (pgDir.table 3) place = 0 ∧ descriptor memory (pgDir.table 4) place = 0

/-- The last two MiB of the first GiB, and the GiBs behind it, meet the entries nobody stores. -/
theorem leafDescriptor_unmapped (blank : TablesBlank memory pgDir) {phys : Nat}
    (small : phys < 2 ^ 39) (high : 511 ≤ phys / 2 ^ 21) :
    leafDescriptor (kernelTables memory pgDir) (virtualAddressStart + phys) 3
        (kernelDirectory memory pgDir) = none := by
  rcases Nat.lt_or_ge phys (2 ^ 30) with first | later
  · have last : phys / 2 ^ (pageShift + 9 * 1) % 512 = 511 := by
      rw [pageShift]
      omega
    have block := kernelTables_pmd memory pgDir (by decide : 511 < _)
    rw [if_neg (by decide), if_neg (by decide), if_neg (by decide),
      (blank 511 (by decide)).2] at block
    rw [leafDescriptor_low memory pgDir first, leafDescriptor]
    simp only [tableIndex_kernelHalf phys (show 0 + 1 ≤ 3 by decide), last, block]
    simp
  · have index : phys / 2 ^ (pageShift + 9 * 2) % 512 = phys / 2 ^ 30 := by
      rw [pageShift]
      omega
    have bound : phys / 2 ^ 30 < ptrsPerTable := by
      simp only [ptrsPerTable]
      omega
    have missing := kernelTables_pud memory pgDir bound
    rw [if_neg (by omega), (blank _ bound).1] at missing
    rw [leafDescriptor_kernel memory pgDir small, leafDescriptor]
    simp only [tableIndex_kernelHalf phys (show 1 + 1 ≤ 3 by decide), index, missing]
    simp

/-- From the directory of the kernel half the two tables behind it are reached, and no other. -/
theorem tableAt_kernelTables (blank : TablesBlank memory pgDir) {level table : Nat}
    (reached : TableAt (kernelTables memory pgDir) (kernelDirectory memory pgDir) level table) :
    level = 3 ∧ table = pgDir.table 2 ∨ level = 2 ∧ table = pgDir.table 3 ∨
      level = 1 ∧ table = pgDir.table 4 := by
  induction reached with
  | root => exact Or.inl ⟨rfl, kernelDirectory_eq memory pgDir⟩
  | @next level table place reached bound type ih =>
      rcases ih with ⟨depth, rfl⟩ | ⟨depth, rfl⟩ | ⟨depth, rfl⟩
      · rcases Nat.eq_zero_or_pos place with rfl | later
        · rw [kernelTables_pgd, outputAddress_table pgDir (by decide)]
          exact Or.inr (Or.inl ⟨by omega, rfl⟩)
        · rw [kernelTables_directory memory pgDir later bound] at type
          split_ifs at type
          rw [sectionSize, mmuFlags] at type
          omega
      · by_cases first : place = 0
        · rw [kernelTables_pud memory pgDir bound, if_pos first,
            outputAddress_table pgDir (by decide)]
          exact Or.inr (Or.inr ⟨by omega, rfl⟩)
        · rw [kernelTables_pud memory pgDir bound, if_neg first, (blank place bound).1] at type
          exact absurd type (by decide)
      · rw [kernelTables_pmd memory pgDir bound, (blank place bound).2] at type
        split_ifs at type
        · rw [sectionSize, mmuFlags] at type
          omega
        · rw [sectionSize, mmuDeviceFlags] at type
          omega
        · rw [deviceBasePhys, sectionSize, mmuDeviceFlags] at type
          omega

/-- Pages behind the device window and from the second GiB on are not mapped. -/
theorem not_pageReached_of_unmapped (blank : TablesBlank memory pgDir)
    (inside : index < mmNumOfPages) (high : 511 ≤ pageAt index / 2 ^ 21) :
    ¬PageReached memory pgDir (pageAt index) := by
  intro reached
  obtain ⟨level, entry, walked, _, _⟩ := reached 0 (by decide)
  have small : pageAt index < 2 ^ 39 := by
    have range := pageAt_range inside
    have top : mmAvailablePageMax < 2 ^ 32 := by decide
    omega
  rw [Nat.add_zero, leafDescriptor_unmapped blank small high] at walked
  cases walked

end Pages

/-- Some page below `VC_BASE_PHYS` has not been handed out. -/
def LowPageFree (mm : Mm) : Prop :=
  ∃ index, index < mmNumOfPages ∧ pageAt index < vcBasePhys ∧ IsFree mm index

/-- The next page is reached through the kernel half, if there is one. -/
def NextPageReached (memory : Memory) (pgDir : PgDir) (mm : Mm) : Prop :=
  (getNextFreePage mm).2 ≠ 0 → PageReached memory pgDir (getNextFreePage mm).2

/-- In every state of the allocator, the next page is reached as normal memory when a page below
`VC_BASE_PHYS` is left, or none at all.  Otherwise it is not, unless garbage in the tables that
the boot code does not clear happens to map it. -/
theorem linearMap_reaches_next_page (memory : Memory) (pgDir : PgDir) (mm : Mm) :
    (LowPageFree mm ∨ (∀ index, index < mmNumOfPages → ¬IsFree mm index) →
      NextPageReached memory pgDir mm) ∧
    (TablesBlank memory pgDir → NextPageReached memory pgDir mm →
      LowPageFree mm ∨ ∀ index, index < mmNumOfPages → ¬IsFree mm index) := by
  rcases getNextFreePage_cases mm with ⟨index, inside, free, before, call⟩ | ⟨all, call⟩
  · constructor
    · rintro (⟨low, _, low_page, low_free⟩ | none_free)
      · intro _
        rw [call]
        apply pageReached_of_low
        have le : index ≤ low := by
          by_contra later
          exact before low (by omega) low_free
        refine lt_of_le_of_lt ?_ low_page
        simp only [pageAt]
        exact Nat.add_le_add_left (Nat.mul_le_mul_left _ le) _
      · exact absurd free (none_free index inside)
    · intro blank reached
      have page := reached (by rw [call]; exact pageAt_ne_zero index)
      rw [call] at page
      refine Or.inl ⟨index, inside, ?_, free⟩
      by_contra high
      rcases Nat.lt_or_ge (pageAt index / 2 ^ 21) 511 with device | unmapped
      · exact not_pageReached_of_device (Nat.le_of_not_lt high) device page
      · exact not_pageReached_of_unmapped blank inside unmapped page
  · constructor
    · intro _ nonzero
      rw [call] at nonzero
      exact absurd rfl nonzero
    · intro _ _
      exact Or.inr all

/-- Tables at 2 MiB, inside the kernel image. -/
def examplePgDir : PgDir := ⟨0x200000, by decide, by decide⟩

/-- After `0x3bc00` pages the allocator hands out `VC_BASE_PHYS`, which the kernel half maps as
device memory. -/
theorem nextPage_at_vcBase_is_device : ∃ state : PageState,
    Relation.ReflTransGen PageClientStep (initialPages fun _ => 0) state ∧
    (getNextFreePage state.mm).2 = vcBasePhys ∧
    ¬NextPageReached (fun _ => 0) examplePgDir state.mm := by
  obtain ⟨state, run, bits, _⟩ := take_many (fun _ => 0) (by decide : 0x3bc00 ≤ _)
  have free_iff : ∀ index, IsFree state.mm index ↔ 0x3bc00 ≤ index := by
    intro index
    rw [IsFree, bits index]
    split_ifs with low
    · simp [low]
    · simp [Nat.le_of_not_lt low]
  have page : pageAt 0x3bc00 = vcBasePhys := by decide
  have next : (getNextFreePage state.mm).2 = pageAt 0x3bc00 := by
    rcases getNextFreePage_cases state.mm with ⟨index, _, free, before, call⟩ | ⟨all, _⟩
    · have low := (free_iff index).mp free
      obtain rfl : index = 0x3bc00 := by
        by_contra differ
        exact before 0x3bc00 (by omega) ((free_iff _).mpr (le_refl _))
      rw [call]
    · exact absurd ((free_iff 0x3bc00).mpr (le_refl _)) (all 0x3bc00 (by decide))
  refine ⟨state, Relation.ReflTransGen.mono (fun _ _ => FirstPageStep.client) _ _ run,
    next.trans page, ?_⟩
  intro reached
  have whole := reached (by rw [next]; exact pageAt_ne_zero _)
  rw [next] at whole
  exact not_pageReached_of_device (le_of_eq page.symm) (by decide) whole

end PellOs

import PellOs.Mm.Translation

/-!
# The kernel's linear map

`__create_page_tables` runs with the MMU off and fills the tables that `ttbr1_el1` points to with
blocks of 2 MiB.  One table of blocks covers 1 GiB of addresses, its index wraps above that, and
its last part holds the device registers.  The page allocator hands out pages up to
`DEVICE_BASE_PHYS`.
-/

namespace PellOs

/-- `SECTION_SHIFT`. -/
def sectionShift : Nat := 21

/-- `SECTION_SIZE`. -/
def sectionSize : Nat := 2 ^ 21

/-- `BOOT_CODE_START`. -/
def bootCodeStart : Nat := 0

/-- `DEVICE_BASE_PHYS`. -/
def deviceBasePhys : Nat := 0xFE000000

/-- `VC_BASE_PHYS`. -/
def vcBasePhys : Nat := 0x3C000000

/-- `PHYSICAL_MEMORY_SIZE`. -/
def physicalMemorySize : Nat := 0xFFFFFFFF

/-- `MMU_FLAGS`: block, normal non-cacheable memory, accessed. -/
def mmuFlags : Nat := 0x405

/-- `MMU_DEVICE_FLAGS`: block, device memory, accessed. -/
def mmuDeviceFlags : Nat := 0x401

/-- `PG_DIR_SIZE`. -/
def pgDirSize : Nat := 3 * pageSize

/-- A store of a 64-bit register at a physical address. -/
def storePhysical (memory : Memory) (address value : Nat) : Memory :=
  memory.write ((address + virtualAddressStart) % wordSize) 8 value

/-- `create_table_entry`: the next page becomes the table for the address.  Returns the new value
of `tbl`. -/
def createTableEntry (memory : Memory) (tbl virtualAdr shift : Nat) : Memory × Nat :=
  let next := (tbl + pageSize) ||| mmTypePageTable
  (storePhysical memory (tbl + 8 * tableIndex virtualAdr shift) next, tbl + pageSize)

/-- `create_pgd_entry`. -/
def createPgdEntry (memory : Memory) (tbl virt : Nat) : Memory × Nat :=
  let (memory, tbl) := createTableEntry memory tbl virt pgdShift
  createTableEntry memory tbl virt pudShift

/-- The loop of `create_block_map`, which stores before it compares. -/
def storeBlocks (memory : Memory) (tbl entry virtStart virtEnd : Nat) : Memory :=
  let memory := storePhysical memory (tbl + 8 * virtStart) entry
  if virtStart + 1 ≤ virtEnd then
    storeBlocks memory tbl ((entry + sectionSize) % wordSize) (virtStart + 1) virtEnd
  else
    memory
termination_by virtEnd - virtStart

/-- `create_block_map`. -/
def createBlockMap (memory : Memory) (tbl physAdr virtStart virtEnd flags : Nat) : Memory :=
  storeBlocks memory tbl (flags ||| physAdr >>> sectionShift <<< sectionShift)
    (tableIndex virtStart sectionShift) (tableIndex virtEnd sectionShift)

/-- `__create_page_tables` with the physical address of `pg_dir`: memory, and the values returned
for `ttbr0_el1` and `ttbr1_el1`. -/
def createPageTables (memory : Memory) (pgDir : Nat) : Memory × Nat × Nat :=
  let memory := memzero memory ((pgDir + virtualAddressStart) % wordSize) pgDirSize
  let (memory, tbl) := createPgdEntry memory pgDir bootCodeStart
  let memory := createBlockMap memory tbl 0 bootCodeStart
    (bootCodeStart + deviceBasePhys - sectionSize) mmuFlags
  let kernelDir := tbl
  let (memory, tbl) := createPgdEntry memory tbl virtualAddressStart
  let memory := createBlockMap memory tbl 0 virtualAddressStart
    (virtualAddressStart + vcBasePhys - sectionSize) mmuFlags
  let memory := createBlockMap memory tbl vcBasePhys (virtualAddressStart + vcBasePhys)
    (virtualAddressStart + deviceBasePhys - sectionSize) mmuDeviceFlags
  let memory := createBlockMap memory tbl deviceBasePhys (virtualAddressStart + deviceBasePhys)
    (virtualAddressStart + physicalMemorySize - sectionSize) mmuDeviceFlags
  (memory, pgDir, kernelDir)

/-! ## Stores to tables -/

/-- A page-aligned table below the managed pages. -/
structure BootTable (table : Nat) : Prop where
  aligned : table % pageSize = 0
  below : table + pageSize ≤ lowMemory

section Stores

variable {table index : Nat}

theorem descriptor_boot (memory : Memory) (boot : BootTable table) (bound : index < ptrsPerTable) :
    descriptor memory table index = memory.read (table + virtualAddressStart + 8 * index) 8 := by
  have below := boot.below
  have top : lowMemory + virtualAddressStart ≤ wordSize := by decide
  simp only [pageSize, ptrsPerTable] at below bound
  rw [descriptor, Nat.mod_eq_of_lt (by omega)]

theorem descriptor_storePhysical (memory : Memory) {other place value : Nat}
    (boot : BootTable table) (other_boot : BootTable other) (bound : index < ptrsPerTable)
    (other_bound : place < ptrsPerTable) (small : value < wordSize) :
    descriptor (storePhysical memory (other + 8 * place) value) table index =
      if table = other ∧ index = place then value else descriptor memory table index := by
  have aligned := boot.aligned
  have other_aligned := other_boot.aligned
  have below := boot.below
  have other_below := other_boot.below
  have top : lowMemory + virtualAddressStart ≤ wordSize := by decide
  rw [descriptor_boot _ boot bound, descriptor_boot _ boot bound, storePhysical]
  simp only [pageSize, ptrsPerTable] at *
  rw [Nat.mod_eq_of_lt (by omega), show other + 8 * place + virtualAddressStart =
    other + virtualAddressStart + 8 * place by omega]
  split_ifs with same
  · obtain ⟨rfl, rfl⟩ := same
    rw [Memory.read_write_same]
    exact Nat.mod_eq_of_lt small
  · apply Memory.read_write_disjoint
    by_cases here : table = other
    · have : index ≠ place := fun equal => same ⟨here, equal⟩
      omega
    · omega

theorem descriptor_storeBlocks (memory : Memory) {other entry first last : Nat}
    (boot : BootTable table) (other_boot : BootTable other) (bound : index < ptrsPerTable)
    (ordered : first ≤ last) (last_bound : last < ptrsPerTable)
    (small : entry + (last - first) * sectionSize < wordSize) :
    descriptor (storeBlocks memory other entry first last) table index =
      if table = other ∧ first ≤ index ∧ index ≤ last then entry + (index - first) * sectionSize
      else descriptor memory table index := by
  induction count : last - first generalizing memory entry first with
  | zero =>
      obtain rfl : first = last := by omega
      unfold storeBlocks
      rw [if_neg (by omega), descriptor_storePhysical _ boot other_boot bound last_bound (by omega)]
      by_cases here : table = other ∧ index = first
      · obtain ⟨rfl, rfl⟩ := here
        simp
      · rw [if_neg here, if_neg]
        rintro ⟨same, low, high⟩
        exact here ⟨same, by omega⟩
  | succ count ih =>
      have fits : entry + sectionSize < wordSize := by
        simp only [sectionSize] at small ⊢
        omega
      unfold storeBlocks
      rw [if_pos (by omega), Nat.mod_eq_of_lt fits, ih _ (by omega) (by
          simp only [sectionSize] at small ⊢
          omega) (by omega),
        descriptor_storePhysical _ boot other_boot bound (by omega) (by omega)]
      by_cases here : table = other ∧ index = first
      · obtain ⟨rfl, rfl⟩ := here
        rw [if_neg (by omega), if_pos ⟨rfl, rfl⟩, if_pos ⟨rfl, le_refl _, ordered⟩, Nat.sub_self,
          Nat.zero_mul, Nat.add_zero]
      · by_cases inner : table = other ∧ first + 1 ≤ index ∧ index ≤ last
        · rw [if_pos inner, if_pos ⟨inner.1, by omega, inner.2.2⟩]
          simp only [sectionSize]
          omega
        · rw [if_neg inner, if_neg here, if_neg]
          rintro ⟨same, low, high⟩
          by_cases equal : index = first
          · exact here ⟨same, equal⟩
          · exact inner ⟨same, by omega, high⟩

end Stores

/-! ## Bytes that are not stored -/

section Outside

variable {address : Nat}

theorem storePhysical_outside (memory : Memory) {place : Nat} (value : Nat)
    (fits : place + virtualAddressStart < wordSize)
    (off : address < place + virtualAddressStart ∨ place + virtualAddressStart + 8 ≤ address) :
    storePhysical memory place value address = memory address := by
  rw [storePhysical, Nat.mod_eq_of_lt fits, Memory.write_outside _ off]

theorem storeBlocks_outside (memory : Memory) {table first last : Nat} (entry : Nat)
    (ordered : first ≤ last) (fits : table + 8 * last + virtualAddressStart < wordSize)
    (off : address < table + virtualAddressStart ∨
      table + 8 * last + virtualAddressStart + 8 ≤ address) :
    storeBlocks memory table entry first last address = memory address := by
  induction count : last - first generalizing memory entry first with
  | zero =>
      unfold storeBlocks
      rw [if_neg (by omega), storePhysical_outside _ _ (by omega) (by omega)]
  | succ count ih =>
      unfold storeBlocks
      rw [if_pos (by omega), ih _ _ (by omega) (by omega),
        storePhysical_outside _ _ (by omega) (by omega)]

end Outside

/-! ## The tables of the kernel half -/

/-- Place of the tables: `pg_dir` and the four pages behind it lie below the managed pages. -/
structure PgDir where
  address : Nat
  aligned : address % pageSize = 0
  below : address + 5 * pageSize ≤ lowMemory

namespace PgDir

/-- The table a number of pages behind `pg_dir`. -/
def table (pgDir : PgDir) (number : Nat) : Nat := pgDir.address + number * pageSize

theorem boot (pgDir : PgDir) {number : Nat} (bound : number < 5) :
    BootTable (pgDir.table number) := by
  have aligned := pgDir.aligned
  have below := pgDir.below
  simp only [table, pageSize] at aligned below ⊢
  exact ⟨by simp only [pageSize]; omega, by simp only [pageSize]; omega⟩

theorem table_ne (pgDir : PgDir) {left right : Nat} (differ : left ≠ right) :
    pgDir.table left ≠ pgDir.table right := by
  simp only [table, pageSize]
  omega

theorem table_add (pgDir : PgDir) (number : Nat) :
    pgDir.table number + pageSize = pgDir.table (number + 1) := by
  rw [table, table, Nat.add_mul, Nat.one_mul, Nat.add_assoc]

theorem table_or (pgDir : PgDir) {number : Nat} (bound : number < 5) :
    pgDir.table number ||| mmTypePageTable = pgDir.table number + 3 := by
  have aligned := (pgDir.boot bound).aligned
  obtain ⟨quotient, same⟩ := Nat.dvd_of_mod_eq_zero aligned
  rw [same, mmTypePageTable, show pageSize = 2 ^ 12 from rfl,
    Nat.two_pow_add_eq_or_of_lt (by decide)]

end PgDir

/-- Memory before the kernel half is mapped. -/
def identityTables (memory : Memory) (pgDir : PgDir) : Memory :=
  let memory := memzero memory ((pgDir.address + virtualAddressStart) % wordSize) pgDirSize
  let memory := storePhysical memory (pgDir.table 0 + 8 * 0) (pgDir.table 1 + 3)
  let memory := storePhysical memory (pgDir.table 1 + 8 * 0) (pgDir.table 2 + 3)
  storeBlocks memory (pgDir.table 2) 0x405 0 495

theorem createPageTables_eq (memory : Memory) (pgDir : PgDir) :
    createPageTables memory pgDir.address =
      (storeBlocks (storeBlocks (storeBlocks (storePhysical (storePhysical
          (identityTables memory pgDir)
          (pgDir.table 2 + 8 * 0) (pgDir.table 3 + 3))
          (pgDir.table 3 + 8 * 0) (pgDir.table 4 + 3))
          (pgDir.table 4) 0x405 0 479)
          (pgDir.table 4) 0x3C000401 480 495)
          (pgDir.table 4) 0xFE000401 496 510,
        pgDir.address, pgDir.table 2) := by
  have first : pgDir.address = pgDir.table 0 := by
    rw [PgDir.table, Nat.zero_mul, Nat.add_zero]
  unfold createPageTables createBlockMap createPgdEntry createTableEntry identityTables
  rw [first]
  simp only [PgDir.table_add, Nat.reduceAdd, pgDir.table_or (show 1 < 5 by decide),
    pgDir.table_or (show 2 < 5 by decide), pgDir.table_or (show 3 < 5 by decide),
    pgDir.table_or (show 4 < 5 by decide)]
  rw [show tableIndex bootCodeStart pgdShift = 0 by decide,
    show tableIndex bootCodeStart pudShift = 0 by decide,
    show tableIndex bootCodeStart sectionShift = 0 by decide,
    show tableIndex (bootCodeStart + deviceBasePhys - sectionSize) sectionShift = 495 by decide,
    show tableIndex virtualAddressStart pgdShift = 0 by decide,
    show tableIndex virtualAddressStart pudShift = 0 by decide,
    show tableIndex virtualAddressStart sectionShift = 0 by decide,
    show tableIndex (virtualAddressStart + vcBasePhys - sectionSize) sectionShift = 479 by decide,
    show tableIndex (virtualAddressStart + vcBasePhys) sectionShift = 480 by decide,
    show tableIndex (virtualAddressStart + deviceBasePhys - sectionSize) sectionShift = 495 by
      decide,
    show tableIndex (virtualAddressStart + deviceBasePhys) sectionShift = 496 by decide,
    show tableIndex (virtualAddressStart + physicalMemorySize - sectionSize) sectionShift = 510 by
      decide,
    show mmuFlags ||| 0 >>> sectionShift <<< sectionShift = 0x405 by decide,
    show mmuDeviceFlags ||| vcBasePhys >>> sectionShift <<< sectionShift = 0x3C000401 by decide,
    show mmuDeviceFlags ||| deviceBasePhys >>> sectionShift <<< sectionShift = 0xFE000401 by
      decide]

section Kernel

variable (memory : Memory) (pgDir : PgDir)

/-- The tables `ttbr1_el1` points to. -/
def kernelTables : Memory := (createPageTables memory pgDir.address).1

/-- The value put in `ttbr1_el1`. -/
def kernelDirectory : Nat := (createPageTables memory pgDir.address).2.2

theorem kernelDirectory_eq : kernelDirectory memory pgDir = pgDir.table 2 := by
  rw [kernelDirectory, createPageTables_eq]

/-- The boot code writes to `pg_dir` and the four pages behind it only. -/
theorem kernelTables_outside {address : Nat}
    (off : address < pgDir.address + virtualAddressStart ∨
      pgDir.address + 5 * pageSize + virtualAddressStart ≤ address) :
    kernelTables memory pgDir address = memory address := by
  have below := pgDir.below
  have top : lowMemory + virtualAddressStart ≤ wordSize := by decide
  simp only [pageSize] at below off
  have places : ∀ number, pgDir.table number = pgDir.address + number * 4096 := fun _ => rfl
  have first := places 0
  have second := places 1
  have third := places 2
  have fourth := places 3
  have fifth := places 4
  rw [kernelTables, createPageTables_eq]
  dsimp only
  rw [storeBlocks_outside _ _ (by decide) (by omega) (by omega),
    storeBlocks_outside _ _ (by decide) (by omega) (by omega),
    storeBlocks_outside _ _ (by decide) (by omega) (by omega),
    storePhysical_outside _ _ (by omega) (by omega),
    storePhysical_outside _ _ (by omega) (by omega)]
  unfold identityTables
  rw [storeBlocks_outside _ _ (by decide) (by omega) (by omega),
    storePhysical_outside _ _ (by omega) (by omega),
    storePhysical_outside _ _ (by omega) (by omega), Nat.mod_eq_of_lt (by omega),
    show pgDirSize = 1536 * 8 from rfl, memzero_eq_fill _ _ _ (by decide) (by decide) (by omega),
    Memory.fill_outside _ (by omega)]

private theorem small_entry {number : Nat} (bound : number < 5) :
    pgDir.table number + 3 < wordSize := by
  have below := (pgDir.boot bound).below
  have top : lowMemory + pageSize ≤ wordSize := by decide
  simp only [pageSize] at below top
  omega

/-- Tables three and four pages behind `pg_dir` are not touched before the kernel half. -/
private theorem descriptor_identityTables {number index : Nat} (late : 2 < number)
    (bound : number < 5) (index_bound : index < ptrsPerTable) :
    descriptor (identityTables memory pgDir) (pgDir.table number) index =
      descriptor memory (pgDir.table number) index := by
  have boot := pgDir.boot bound
  have below := pgDir.below
  have top : lowMemory + virtualAddressStart ≤ wordSize := by decide
  unfold identityTables
  rw [descriptor_storeBlocks _ boot (pgDir.boot (by decide)) index_bound (by decide) (by decide)
      (by decide), if_neg (fun both => pgDir.table_ne (by omega) both.1),
    descriptor_storePhysical _ boot (pgDir.boot (by decide)) index_bound (by decide)
      (small_entry pgDir (by decide)), if_neg (fun both => pgDir.table_ne (by omega) both.1),
    descriptor_storePhysical _ boot (pgDir.boot (by decide)) index_bound (by decide)
      (small_entry pgDir (by decide)), if_neg (fun both => pgDir.table_ne (by omega) both.1)]
  simp only [pageSize] at below
  rw [Nat.mod_eq_of_lt (by omega), show pgDirSize = 1536 * 8 from rfl,
    memzero_eq_fill _ _ _ (by decide) (by decide) (by omega), descriptor_boot _ boot index_bound,
    descriptor_boot _ boot index_bound]
  apply Memory.read_congr
  apply Memory.agreeOn_fill
  simp only [PgDir.table, pageSize]
  omega

theorem kernelTables_pgd :
    descriptor (kernelTables memory pgDir) (pgDir.table 2) 0 = pgDir.table 3 + 3 := by
  have boot := pgDir.boot (by decide : 2 < _)
  rw [kernelTables, createPageTables_eq]
  dsimp only
  rw [descriptor_storeBlocks _ boot (pgDir.boot (by decide)) (by decide) (by decide) (by decide)
      (by decide), if_neg (fun both => pgDir.table_ne (by decide) both.1),
    descriptor_storeBlocks _ boot (pgDir.boot (by decide)) (by decide) (by decide) (by decide)
      (by decide), if_neg (fun both => pgDir.table_ne (by decide) both.1),
    descriptor_storeBlocks _ boot (pgDir.boot (by decide)) (by decide) (by decide) (by decide)
      (by decide), if_neg (fun both => pgDir.table_ne (by decide) both.1),
    descriptor_storePhysical _ boot (pgDir.boot (by decide)) (by decide) (by decide)
      (small_entry pgDir (by decide)), if_neg (fun both => pgDir.table_ne (by decide) both.1),
    descriptor_storePhysical _ boot boot (by decide) (by decide)
      (small_entry pgDir (by decide)), if_pos ⟨rfl, rfl⟩]

/-- The directory of the kernel half is the table of blocks of the identity map. -/
theorem kernelTables_directory {index : Nat} (positive : 0 < index)
    (bound : index < ptrsPerTable) :
    descriptor (kernelTables memory pgDir) (pgDir.table 2) index =
      if index < 496 then index * sectionSize + mmuFlags else 0 := by
  have boot := pgDir.boot (by decide : 2 < _)
  have below := pgDir.below
  have top : lowMemory + virtualAddressStart ≤ wordSize := by decide
  have other (first : pgDir.table 2 = pgDir.table 2 ∧ index = 0) : False := by omega
  rw [kernelTables, createPageTables_eq]
  dsimp only
  rw [descriptor_storeBlocks _ boot (pgDir.boot (by decide)) bound (by decide) (by decide)
      (by decide), if_neg (fun both => pgDir.table_ne (by decide) both.1),
    descriptor_storeBlocks _ boot (pgDir.boot (by decide)) bound (by decide) (by decide)
      (by decide), if_neg (fun both => pgDir.table_ne (by decide) both.1),
    descriptor_storeBlocks _ boot (pgDir.boot (by decide)) bound (by decide) (by decide)
      (by decide), if_neg (fun both => pgDir.table_ne (by decide) both.1),
    descriptor_storePhysical _ boot (pgDir.boot (by decide)) bound (by decide)
      (small_entry pgDir (by decide)), if_neg (fun both => pgDir.table_ne (by decide) both.1),
    descriptor_storePhysical _ boot boot bound (by decide) (small_entry pgDir (by decide)),
    if_neg other, identityTables,
    descriptor_storeBlocks _ boot boot bound (by decide) (by decide) (by decide)]
  by_cases blocks : index < 496
  · rw [if_pos ⟨rfl, Nat.zero_le _, by omega⟩, if_pos blocks, Nat.sub_zero, Nat.add_comm]
    rfl
  · rw [if_neg fun within => by omega, if_neg blocks,
      descriptor_storePhysical _ boot (pgDir.boot (by decide)) bound (by decide)
        (small_entry pgDir (by decide)), if_neg (fun both => pgDir.table_ne (by decide) both.1),
      descriptor_storePhysical _ boot (pgDir.boot (by decide)) bound (by decide)
        (small_entry pgDir (by decide)), if_neg (fun both => pgDir.table_ne (by decide) both.1),
      descriptor_boot _ boot bound]
    simp only [pageSize, ptrsPerTable, PgDir.table] at below bound ⊢
    rw [Nat.mod_eq_of_lt (by omega), show pgDirSize = 1536 * 8 from rfl,
      memzero_eq_fill _ _ _ (by decide) (by decide) (by omega)]
    apply Memory.read_zero
    intro target lower upper
    exact Memory.fill_inside _ (by omega) (by omega)

theorem kernelTables_pud {index : Nat} (bound : index < ptrsPerTable) :
    descriptor (kernelTables memory pgDir) (pgDir.table 3) index =
      if index = 0 then pgDir.table 4 + 3 else descriptor memory (pgDir.table 3) index := by
  have boot := pgDir.boot (by decide : 3 < _)
  have upper : ¬(pgDir.table 3 = pgDir.table 2 ∧ index = 0) :=
    fun both => pgDir.table_ne (by decide) both.1
  rw [kernelTables, createPageTables_eq]
  dsimp only
  rw [descriptor_storeBlocks _ boot (pgDir.boot (by decide)) bound (by decide) (by decide)
      (by decide), if_neg (fun both => pgDir.table_ne (by decide) both.1),
    descriptor_storeBlocks _ boot (pgDir.boot (by decide)) bound (by decide) (by decide)
      (by decide), if_neg (fun both => pgDir.table_ne (by decide) both.1),
    descriptor_storeBlocks _ boot (pgDir.boot (by decide)) bound (by decide) (by decide)
      (by decide), if_neg (fun both => pgDir.table_ne (by decide) both.1),
    descriptor_storePhysical _ boot boot bound (by decide) (small_entry pgDir (by decide)),
    descriptor_storePhysical _ boot (pgDir.boot (by decide)) bound (by decide)
      (small_entry pgDir (by decide)), if_neg upper,
    descriptor_identityTables memory pgDir (by decide) (by decide) bound]
  simp only [true_and]

/-- The blocks of the first GiB: normal memory up to `VC_BASE_PHYS`, then device memory, which
from index 496 on is the window of the device registers. -/
theorem kernelTables_pmd {index : Nat} (bound : index < ptrsPerTable) :
    descriptor (kernelTables memory pgDir) (pgDir.table 4) index =
      if index < 480 then index * sectionSize + mmuFlags
      else if index < 496 then index * sectionSize + mmuDeviceFlags
      else if index < 511 then deviceBasePhys + (index - 496) * sectionSize + mmuDeviceFlags
      else descriptor memory (pgDir.table 4) index := by
  have boot := pgDir.boot (by decide : 4 < _)
  have directory : ¬(pgDir.table 4 = pgDir.table 2 ∧ index = 0) :=
    fun both => pgDir.table_ne (by decide) both.1
  have upper : ¬(pgDir.table 4 = pgDir.table 3 ∧ index = 0) :=
    fun both => pgDir.table_ne (by decide) both.1
  rw [kernelTables, createPageTables_eq]
  dsimp only
  rw [descriptor_storeBlocks _ boot boot bound (by decide) (by decide) (by decide),
    descriptor_storeBlocks _ boot boot bound (by decide) (by decide) (by decide),
    descriptor_storeBlocks _ boot boot bound (by decide) (by decide) (by decide),
    descriptor_storePhysical _ boot (pgDir.boot (by decide)) bound (by decide)
      (small_entry pgDir (by decide)), if_neg upper,
    descriptor_storePhysical _ boot (pgDir.boot (by decide)) bound (by decide)
      (small_entry pgDir (by decide)), if_neg directory,
    descriptor_identityTables memory pgDir (by decide) (by decide) bound]
  rw [ptrsPerTable] at bound
  rw [show mmuFlags = 0x405 from rfl, show mmuDeviceFlags = 0x401 from rfl,
    show deviceBasePhys = 0xFE000000 from rfl, show sectionSize = 2097152 from rfl]
  simp only [true_and]
  split_ifs <;> omega

end Kernel

end PellOs

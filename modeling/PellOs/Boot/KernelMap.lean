import PellOs.Boot.LinearMap

/-!
# Extent of the boot tables

The linker script reserves `PG_DIR_SIZE` bytes at `pg_dir` and `__create_page_tables` clears them,
but the tables it builds fill five pages: two directories of the identity map, a third page that is
its table of blocks and the directory of the kernel half at once, and two more pages behind the
reserved area.  What these two pages held before stays in the entries that nobody stores.
-/

namespace PellOs

/-! ## Stores of the boot code -/

/-- The 64-bit stores of `memzero`. -/
def clearStores (start size : Nat) : List (Nat × Nat) :=
  (start, 0) ::
    if gtAfterSubs size 8 then clearStores ((start + 8) % wordSize) (size - 8) else []
termination_by size
decreasing_by
  rename_i more
  have := more.1
  omega

/-- The store of `create_table_entry`. -/
def tableEntryStore (tbl virtualAdr shift : Nat) : Nat × Nat :=
  (tbl + 8 * tableIndex virtualAdr shift, (tbl + pageSize) ||| mmTypePageTable)

/-- The stores of `create_pgd_entry`. -/
def pgdEntryStores (tbl virt : Nat) : List (Nat × Nat) :=
  [tableEntryStore tbl virt pgdShift, tableEntryStore (tbl + pageSize) virt pudShift]

/-- The stores of the loop of `create_block_map`. -/
def blockStores (tbl entry virtStart virtEnd : Nat) : List (Nat × Nat) :=
  (tbl + 8 * virtStart, entry) ::
    if virtStart + 1 ≤ virtEnd then
      blockStores tbl ((entry + sectionSize) % wordSize) (virtStart + 1) virtEnd
    else []
termination_by virtEnd - virtStart

/-- The stores of `create_block_map`. -/
def blockMapStores (tbl physAdr virtStart virtEnd flags : Nat) : List (Nat × Nat) :=
  blockStores tbl (flags ||| physAdr >>> sectionShift <<< sectionShift)
    (tableIndex virtStart sectionShift) (tableIndex virtEnd sectionShift)

/-- The stores of `__create_page_tables` in order, each with its physical address. -/
def createPageTablesStores (pgDir : Nat) : List (Nat × Nat) :=
  let identityPmd := pgDir + pageSize + pageSize
  let kernelPmd := identityPmd + pageSize + pageSize
  clearStores pgDir pgDirSize ++
    pgdEntryStores pgDir bootCodeStart ++
    blockMapStores identityPmd 0 bootCodeStart (bootCodeStart + deviceBasePhys - sectionSize)
      mmuFlags ++
    pgdEntryStores identityPmd virtualAddressStart ++
    blockMapStores kernelPmd 0 virtualAddressStart (virtualAddressStart + vcBasePhys - sectionSize)
      mmuFlags ++
    blockMapStores kernelPmd vcBasePhys (virtualAddressStart + vcBasePhys)
      (virtualAddressStart + deviceBasePhys - sectionSize) mmuDeviceFlags ++
    blockMapStores kernelPmd deviceBasePhys (virtualAddressStart + deviceBasePhys)
      (virtualAddressStart + physicalMemorySize - sectionSize) mmuDeviceFlags

/-- Memory after a list of stores. -/
def applyStores (memory : Memory) (stores : List (Nat × Nat)) : Memory :=
  stores.foldl (fun memory store => storePhysical memory store.1 store.2) memory

theorem applyStores_cons (memory : Memory) (store : Nat × Nat) (stores : List (Nat × Nat)) :
    applyStores memory (store :: stores) =
      applyStores (storePhysical memory store.1 store.2) stores := rfl

theorem applyStores_append (memory : Memory) (first second : List (Nat × Nat)) :
    applyStores memory (first ++ second) = applyStores (applyStores memory first) second :=
  List.foldl_append

theorem memzero_eq_applyStores (memory : Memory) (start size : Nat) :
    memzero memory ((start + virtualAddressStart) % wordSize) size =
      applyStores memory (clearStores start size) := by
  induction start, size using clearStores.induct generalizing memory with
  | case1 start size ih =>
      unfold memzero clearStores
      rw [applyStores_cons]
      split_ifs with more
      · rw [← ih more]
        have shifted : ((start + virtualAddressStart) % wordSize + 8) % wordSize =
            ((start + 8) % wordSize + virtualAddressStart) % wordSize := by
          rw [Nat.mod_add_mod, Nat.mod_add_mod, Nat.add_right_comm]
        simp only [storePhysical, shifted]
      · rfl

theorem storeBlocks_eq_applyStores (memory : Memory) (tbl entry virtStart virtEnd : Nat) :
    storeBlocks memory tbl entry virtStart virtEnd =
      applyStores memory (blockStores tbl entry virtStart virtEnd) := by
  induction entry, virtStart using blockStores.induct virtEnd generalizing memory with
  | case1 entry virtStart ih =>
      unfold storeBlocks blockStores
      rw [applyStores_cons]
      split_ifs with more
      · exact ih more _
      · rfl

/-- The list of stores produces the memory that `__create_page_tables` leaves. -/
theorem createPageTables_eq_applyStores (memory : Memory) (pgDir : Nat) :
    (createPageTables memory pgDir).1 = applyStores memory (createPageTablesStores pgDir) := by
  unfold createPageTables createPgdEntry createTableEntry createBlockMap createPageTablesStores
    blockMapStores pgdEntryStores tableEntryStore
  simp only [storeBlocks_eq_applyStores, memzero_eq_applyStores, applyStores_append,
    applyStores_cons]
  rfl

/-! ## The intended map -/

/-- `MT_DEVICE_nGnRnE`. -/
def mtDeviceNGnRnE : Nat := 0

/-- `MT_NORMAL_NC`. -/
def mtNormalNc : Nat := 1

/-- `AttrIndx` of a page or block descriptor. -/
def attrIndx (entry : Nat) : Nat := entry / 2 ^ 2 % 8

/-- Physical address and memory type at an offset into the kernel half, or a fault. -/
def kernelHalf (tables : Memory) (ttbr1 offset : Nat) : Option (Nat × Nat) :=
  (leafDescriptor tables (virtualAddressStart + offset) 3 ttbr1).bind fun leaf =>
    if Accessed leaf.2 then
      some (outputAddress leaf.2 (pageShift + 9 * leaf.1) +
        (virtualAddressStart + offset) % 2 ^ (pageShift + 9 * leaf.1), attrIndx leaf.2)
    else none

/-- Normal memory, then device memory, then the window of the device registers. -/
def intendedMap (offset : Nat) : Option (Nat × Nat) :=
  if offset < 0x3C000000 then some (offset, mtNormalNc)
  else if offset < 0x3E000000 then some (offset, mtDeviceNGnRnE)
  else if offset < 0x3FE00000 then some (offset + 0xC0000000, mtDeviceNGnRnE)
  else none

/-- Every store lies in the area that the linker script reserves at `pg_dir`. -/
def StoresInside (pgDir : Nat) : Prop :=
  ∀ store ∈ createPageTablesStores pgDir,
    pgDir ≤ store.1 % wordSize ∧ store.1 % wordSize + 8 ≤ pgDir + pgDirSize

/-- The boot code stays inside its area and defines exactly the intended map of the kernel half. -/
def KernelMapIntended (memory : Memory) (pgDir : Nat) : Prop :=
  StoresInside pgDir ∧
    ∀ offset, offset < 2 ^ 48 →
      kernelHalf (createPageTables memory pgDir).1 (createPageTables memory pgDir).2.2 offset =
        intendedMap offset

/-! ## Five pages of tables -/

/-- The entry for the first GiB of the kernel half is stored right behind the reserved area. -/
theorem store_behind_area (pgDir : Nat) :
    (pgDir + pgDirSize, (pgDir + 4 * pageSize) ||| mmTypePageTable) ∈
      createPageTablesStores pgDir := by
  have index : tableIndex virtualAddressStart pudShift = 0 := by decide
  have store : tableEntryStore (pgDir + pageSize + pageSize + pageSize) virtualAddressStart
      pudShift = (pgDir + pgDirSize, (pgDir + 4 * pageSize) ||| mmTypePageTable) := by
    rw [tableEntryStore, index, pgDirSize]
    simp only [pageSize, Nat.add_assoc, Nat.mul_zero, Nat.add_zero, Nat.reduceMul, Nat.reduceAdd]
  rw [← store]
  simp [createPageTablesStores, pgdEntryStores]

private theorem not_storesInside (pgDir : Nat) : ¬StoresInside pgDir := by
  intro inside
  obtain ⟨lower, upper⟩ := inside _ (store_behind_area pgDir)
  have size : pgDirSize = 12288 := rfl
  simp only [wordSize] at lower upper
  omega

/-- Whatever memory holds and wherever `pg_dir` lies, the boot code stores outside its area. -/
theorem kernelMap_never_intended (memory : Memory) (pgDir : Nat) :
    ¬KernelMapIntended memory pgDir := by
  rintro ⟨inside, _⟩
  exact not_storesInside pgDir inside

/-- With the tables at `0x200000` a store goes to `0x203000`, the first address behind the area,
and the map is not the intended one together with its extent. -/
theorem examplePgDir_overrun :
    (0x203000, 0x204003) ∈ createPageTablesStores examplePgDir.address ∧
      examplePgDir.address + pgDirSize = 0x203000 ∧
      ¬KernelMapIntended (fun _ => 0) examplePgDir.address := by
  refine ⟨store_behind_area examplePgDir.address, rfl, ?_⟩
  rintro ⟨inside, _⟩
  exact not_storesInside _ inside

/-! ## The map over blank memory -/

section Blank

variable {memory : Memory} {pgDir : PgDir} {offset : Nat}

private theorem leafDescriptor_beyond (high : 2 ^ 39 ≤ offset) (half : offset < 2 ^ 48) :
    leafDescriptor (kernelTables memory pgDir) (virtualAddressStart + offset) 3
      (kernelDirectory memory pgDir) = none := by
  have index : offset / 2 ^ (pageShift + 9 * 3) % 512 = offset / 2 ^ 39 := by
    rw [pageShift]
    omega
  have bound : offset / 2 ^ 39 < ptrsPerTable := by
    simp only [ptrsPerTable]
    omega
  have entry := kernelTables_directory memory pgDir (by omega : 0 < offset / 2 ^ 39) bound
  have fault :
      ¬descriptor (kernelTables memory pgDir) (pgDir.table 2) (offset / 2 ^ 39) % 4 = 3 := by
    rw [entry]
    split_ifs
    · rw [sectionSize, mmuFlags]
      omega
    · decide
  rw [kernelDirectory_eq, leafDescriptor]
  simp only [tableIndex_kernelHalf offset (show 2 + 1 ≤ 3 by decide), index, if_neg fault]
  simp

private theorem kernelHalf_block {base flags : Nat} (small : offset < 2 ^ 30)
    (aligned : base % 2 ^ 21 = 0) (low : base < 2 ^ 32) (flags_small : flags < 2 ^ 21)
    (block : flags % 4 = 1) (accessed : Accessed flags)
    (entry : descriptor (kernelTables memory pgDir) (pgDir.table 4) (offset / 2 ^ 21) =
      base + flags) :
    kernelHalf (kernelTables memory pgDir) (kernelDirectory memory pgDir) offset =
      some (base + offset % 2 ^ 21, attrIndx flags) := by
  have whole : Accessed (base + flags) := by
    rw [Accessed] at accessed ⊢
    omega
  have type : (base + flags) % 4 = 1 := by omega
  have output : outputAddress (base + flags) (pageShift + 9 * 1) = base := by
    rw [outputAddress, pageShift]
    omega
  have within : (virtualAddressStart + offset) % 2 ^ (pageShift + 9 * 1) = offset % 2 ^ 21 := by
    rw [show virtualAddressStart = 2 ^ 48 * 65535 by decide, pageShift]
    omega
  have attribute_eq : attrIndx (base + flags) = attrIndx flags := by
    rw [attrIndx, attrIndx]
    omega
  rw [kernelHalf, leafDescriptor_block memory pgDir small entry type, Option.bind_some,
    if_pos whole, output, within, attribute_eq]

/-- Where the two pages behind the reserved area hold nothing before the boot, the kernel half is
translated as intended. -/
theorem kernelHalf_of_blank (blank : TablesBlank memory pgDir) (half : offset < 2 ^ 48) :
    kernelHalf (kernelTables memory pgDir) (kernelDirectory memory pgDir) offset =
      intendedMap offset := by
  rcases Nat.lt_or_ge (offset / 2 ^ 21) 511 with mapped | unmapped
  · have bound : offset / 2 ^ 21 < ptrsPerTable := by
      simp only [ptrsPerTable]
      omega
    have entry := kernelTables_pmd memory pgDir bound
    have base : offset / 2 ^ 21 * sectionSize < 2 ^ 32 := by
      rw [sectionSize]
      omega
    have split : offset / 2 ^ 21 * 2 ^ 21 + offset % 2 ^ 21 = offset := by omega
    rw [intendedMap]
    rcases Nat.lt_or_ge offset 0x3C000000 with normal | rest
    · rw [if_pos (by omega)] at entry
      rw [if_pos normal, kernelHalf_block (by omega) (Nat.mul_mod_left _ _) base
        (by decide) (by decide) (by decide) entry, split]
      rfl
    · rw [if_neg (by omega)] at entry
      rw [if_neg (by omega)]
      rcases Nat.lt_or_ge offset 0x3E000000 with device | window
      · rw [if_pos (by omega)] at entry
        rw [if_pos device, kernelHalf_block (by omega) (Nat.mul_mod_left _ _) base
          (by decide) (by decide) (by decide) entry, split]
        rfl
      · rw [if_neg (by omega), if_pos mapped] at entry
        have window_base : (deviceBasePhys + (offset / 2 ^ 21 - 496) * sectionSize) % 2 ^ 21 = 0 ∧
            deviceBasePhys + (offset / 2 ^ 21 - 496) * sectionSize < 2 ^ 32 := by
          rw [deviceBasePhys, sectionSize]
          omega
        rw [if_neg (by omega), if_pos (by omega), kernelHalf_block (by omega) window_base.1
          window_base.2 (by decide) (by decide) (by decide) entry]
        have shift : deviceBasePhys + (offset / 2 ^ 21 - 496) * sectionSize + offset % 2 ^ 21 =
            offset + 0xC0000000 := by
          rw [deviceBasePhys, sectionSize]
          omega
        rw [shift]
        rfl
  · have fault : leafDescriptor (kernelTables memory pgDir) (virtualAddressStart + offset) 3
        (kernelDirectory memory pgDir) = none := by
      rcases Nat.lt_or_ge offset (2 ^ 39) with low | high
      · exact leafDescriptor_unmapped blank low unmapped
      · exact leafDescriptor_beyond high half
    rw [kernelHalf, fault, intendedMap, if_neg (by omega), if_neg (by omega), if_neg (by omega)]
    rfl

end Blank

end PellOs

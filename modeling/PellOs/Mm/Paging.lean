import PellOs.Scheduler.Task

/-!
# Page tables

`paging.c`: four levels of tables are built on demand below `mm.pagedirectory` of a task.  Every
table and every user page comes from `get_next_free_page`, whose result zero is stored and used
like any other page address.
-/

namespace PellOs

/-- `PAGE_MASK`. -/
def pageMask : Nat := 0xfffffffffffff000

/-- `PTRS_PER_TABLE`. -/
def ptrsPerTable : Nat := 512

/-- `PAGE_SHIFT`. -/
def pageShift : Nat := 12

/-- `PGD_SHIFT`. -/
def pgdShift : Nat := 39

/-- `PUD_SHIFT`. -/
def pudShift : Nat := 30

/-- `PMD_SHIFT`. -/
def pmdShift : Nat := 21

/-- `MM_TYPE_PAGE_TABLE`. -/
def mmTypePageTable : Nat := 0x3

/-- `MMU_PTE_FLAGS`: page, normal non-cacheable memory, accessed, accessible from user mode. -/
def mmuPteFlags : Nat := 0x447

/-- Index of a virtual address in the table of a level. -/
def tableIndex (virtAdr shift : Nat) : Nat := virtAdr >>> shift &&& (ptrsPerTable - 1)

/-- `&table[idx]` for the index of `virtAdr`. -/
def tableSlot (table virtAdr shift : Nat) : Nat :=
  (table + 8 * tableIndex virtAdr shift) % wordSize

/-- `map_table`: the next-level table and whether it is new. -/
@[irreducible] def mapTable (mm : Mm) (table shift virtAdr : Nat) : Mm × Nat × Bool :=
  let slot := tableSlot table virtAdr shift
  if mm.memory.read slot 8 = 0 then
    let (mm, nextLevelTable) := getNextFreePage mm
    let entry := nextLevelTable ||| mmTypePageTable
    (mm.setMemory (mm.memory.write slot 8 entry), nextLevelTable, true)
  else
    (mm, mm.memory.read slot 8 &&& pageMask, false)

/-- `map_table_entry`. -/
@[irreducible] def mapTableEntry (memory : Memory) (table virtAdr physAdr : Nat) : Memory :=
  memory.write (tableSlot table virtAdr pageShift) 8 (physAdr ||| mmuPteFlags)

/-- `task->mm.kernelpages[++task->mm.kernelpages_count] = page`. -/
@[irreducible] def recordKernelPage (memory : Memory) (task page : Nat) : Memory :=
  let count := (Task.kernelpagesCount.get memory task + 1) % 2 ^ 32
  let memory := Task.kernelpagesCount.set memory task count
  (Task.kernelpage (signExtend count)).set memory task page

/-- `task->mm.userpages[task->mm.userpages_count++] = p` with `p = {page, virt_adr}`. -/
@[irreducible] def recordUserPage (memory : Memory) (task page virtAdr : Nat) : Memory :=
  let count := Task.userpagesCount.get memory task
  let memory := Task.userpagesCount.set memory task ((count + 1) % 2 ^ 32)
  let memory := (Task.userpagePhysical (signExtend count)).set memory task page
  (Task.userpageVirtual (signExtend count)).set memory task virtAdr

/-- A call of `map_table` in `map_page` with the record of a new table. -/
@[irreducible] def mapLevel (mm : Mm) (task table shift virtAdr : Nat) : Mm × Nat :=
  let (mm, next, newTable) := mapTable mm ((table + virtualAddressStart) % wordSize) shift virtAdr
  if newTable then
    (mm.setMemory (recordKernelPage mm.memory task next), next)
  else
    (mm, next)

/-- The successive calls of `map_table` in `map_page`, each on the table found by the last. -/
def mapLevels (task virtAdr : Nat) : Mm → Nat → List Nat → Mm × Nat
  | mm, table, [] => (mm, table)
  | mm, table, shift :: shifts =>
      let (mm, next) := mapLevel mm task table shift virtAdr
      mapLevels task virtAdr mm next shifts

/-- The page directory is created by the first call of `map_page`. -/
@[irreducible] def ensureDirectory (mm : Mm) (task : Nat) : Mm :=
  if Task.pagedirectory.get mm.memory task = 0 then
    let (mm, directory) := getNextFreePage mm
    let memory := Task.pagedirectory.set mm.memory task directory
    mm.setMemory (recordKernelPage memory task (Task.pagedirectory.get memory task))
  else
    mm

/-- `map_page`. -/
@[irreducible] def mapPage (mm : Mm) (task virtAdr page : Nat) : Mm :=
  let mm := ensureDirectory mm task
  let pageDirectory := Task.pagedirectory.get mm.memory task
  let (mm, pte) := mapLevels task virtAdr mm pageDirectory [pgdShift, pudShift, pmdShift]
  let memory := mapTableEntry mm.memory ((pte + virtualAddressStart) % wordSize) virtAdr page
  mm.setMemory (recordUserPage memory task page virtAdr)

/-- `allocate_kernel_page`. -/
@[irreducible] def allocateKernelPage (mm : Mm) : Mm × Nat :=
  let (mm, page) := getNextFreePage mm
  if page = 0 then (mm, 0) else (mm, (page + virtualAddressStart) % wordSize)

/-- `allocate_user_page`. -/
@[irreducible] def allocateUserPage (mm : Mm) (task virtAdr : Nat) : Mm × Nat :=
  let (mm, page) := getNextFreePage mm
  if page = 0 then (mm, 0)
  else (mapPage mm task virtAdr page, (page + virtualAddressStart) % wordSize)

/-! ## Translation by the hardware -/

/-- The descriptor at an index of the table at a physical address. -/
def descriptor (memory : Memory) (table index : Nat) : Nat :=
  memory.read ((table + virtualAddressStart + 8 * index) % wordSize) 8

/-- Output address of a descriptor: bits 47 to `shift`. -/
def outputAddress (entry shift : Nat) : Nat := entry % 2 ^ 48 / 2 ^ shift * 2 ^ shift

/-- Walk of the ARMv8 translation tables with 4 KiB granule, from the level whose index starts at
bit `12 + 9 * level`.  A descriptor is a table or page when its low bits are `3`, a block when they
are `1`; pages and blocks need the access flag. -/
def walkTables (memory : Memory) (virtAdr : Nat) : Nat → Nat → Option Nat
  | level, table =>
      let shift := pageShift + 9 * level
      let entry := descriptor memory table (tableIndex virtAdr shift)
      let leaf := if entry / 2 ^ 10 % 2 = 1 then
        some (outputAddress entry shift + virtAdr % 2 ^ shift) else none
      match level with
      | 0 => if entry % 4 = 3 then leaf else none
      | level + 1 =>
          if entry % 4 = 3 then walkTables memory virtAdr level (outputAddress entry pageShift)
          else if entry % 4 = 1 ∧ level + 1 < 3 then leaf
          else none

/-- Translation of an address of the user half through `ttbr0_el1`. -/
def translate (memory : Memory) (ttbr0 virtAdr : Nat) : Option Nat :=
  if virtAdr < 2 ^ 48 then walkTables memory virtAdr 3 ttbr0 else none

/-- A byte read by the kernel: the user half through `ttbr0_el1`, the kernel half directly. -/
def readVirtual (memory : Memory) (ttbr0 virtAdr : Nat) : Option UInt8 :=
  if virtualAddressStart ≤ virtAdr then some (memory virtAdr)
  else (translate memory ttbr0 virtAdr).map fun phys =>
    memory ((phys + virtualAddressStart) % wordSize)

/-- `memcpy` of at least one byte from a virtual to a kernel address; a fault stops the kernel. -/
def memcpyVirtual (ttbr0 : Nat) : Memory → Nat → Nat → Nat → Option Memory
  | memory, _, _, 0 => some memory
  | memory, dest, src, size + 1 => do
      let byte ← readVirtual memory ttbr0 src
      memcpyVirtual ttbr0 (memory.writeByte dest byte) ((dest + 1) % wordSize)
        ((src + 1) % wordSize) size

end PellOs

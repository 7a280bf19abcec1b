import PellOs.Boot.LinearMap
import PellOs.Scheduler.KernelRuns

/-!
# Faults that are reported as handled

`do_mem_abort` maps a page below the page directory of the running task, whichever half the
address lies in, and `map_page` indexes with bits 47 to 12 only.  So a handled fault is resolved
in the user half, where nothing was mapped before; an address of the kernel half stays as it was,
and its low bits are mapped instead.
-/

namespace PellOs

/-- The tables of the kernel half lie in the kernel image, apart from the initial task. -/
def KernelTablesApart (image : Image) (memory : Memory) (ttbr1 : Nat) : Prop :=
  ∀ level table, TableAt memory ttbr1 level table →
    table + pageSize ≤ lowMemory ∧
      (image.initTask + taskSize ≤ table + virtualAddressStart ∨
        table + virtualAddressStart + pageSize ≤ image.initTask)

/-- The fault is resolved: the address translates to a page that was free, is recorded for the
task and holds zeros, and all that translated before translates to the same address as before. -/
structure FaultResolved (kernel after : Kernel) (ttbr1 addr : Nat) : Prop where
  page : ∃ frame, frame < mmNumOfPages ∧ IsFree kernel.mm frame ∧ ¬IsFree after.mm frame ∧
    (Task.userpagePhysical (Task.userpagesCount.get kernel.memory kernel.current)).get
      after.memory kernel.current = pageAt frame ∧
    (∀ address, kernelAdr frame ≤ address → address < kernelAdr frame + pageSize →
      after.memory address = 0) ∧
    translateFor after.memory kernel.current ttbr1 addr = some (pageAt frame + addr % pageSize)
  kept : ∀ virtAdr phys, translateFor kernel.memory kernel.current ttbr1 virtAdr = some phys →
    translateFor after.memory kernel.current ttbr1 virtAdr = some phys

/-! ## Table indices of the mapped address -/

theorem vaPath_pageMask (addr : Nat) : vaPath (addr &&& pageMask) = vaPath addr := by
  rw [vaPath_eq_iff]
  apply Nat.eq_of_testBit_eq
  intro bit
  have mask : pageMask = 2 ^ 12 * (2 ^ 52 - 1) := by decide
  rw [Nat.testBit_mod_two_pow, Nat.testBit_mod_two_pow, Nat.testBit_div_two_pow,
    Nat.testBit_div_two_pow, Nat.testBit_and, mask, Nat.testBit_two_pow_mul,
    Nat.testBit_two_pow_sub_one]
  by_cases low : bit < 36
  · simp [low, show bit < 52 by omega]
  · simp [low]

theorem vaPath_mod (addr : Nat) : vaPath (addr % 2 ^ 48) = vaPath addr := by
  rw [vaPath_eq_iff]
  omega

theorem mod_pageSize_low (addr : Nat) : addr % 2 ^ 48 % pageSize = addr % pageSize := by
  simp only [pageSize]
  omega

/-! ## A fresh page for a task -/

/-- A free page has been taken and mapped for a task, whose array of user pages may be full. -/
structure FreshPageEntered (image : Image) (tasks : Nat → Nat) (count pid virtAdr : Nat) (mm : Mm)
    (owner : Nat → Option PageRole) (frame : Nat) (after : Mm) (grown : Nat → Option PageRole) :
    Prop where
  roles : PageRoles image mm tasks count owner
  known : pid < count
  inside : frame < mmNumOfPages
  free : IsFree mm frame
  users : Task.userpagesCount.get mm.memory (tasks pid) ≤ maxProcessPages
  tables : Task.kernelpagesCount.get mm.memory (tasks pid) +
    tablesNeeded mm.memory (tasks pid) virtAdr ≤ 128
  entered : PageEntered image tasks count pid virtAdr frame (takePage mm frame)
    (Function.update owner frame (some (.user pid (vaPath virtAdr)))) after grown

theorem SpacesInv.enter {image : Image} {kernel : Kernel} {owner : Nat → Option PageRole}
    {pid virtAdr frame : Nat} (inv : SpacesInv image kernel owner) (known : pid < kernel.nTasks)
    (inside : frame < mmNumOfPages) (free : IsFree kernel.mm frame)
    (enough : tablesNeeded kernel.memory (kernel.taskArray pid) virtAdr + 1 ≤
      freeCount kernel.mm) :
    ∃ grown, FreshPageEntered image kernel.taskArray kernel.nTasks pid virtAdr kernel.mm owner frame
      (mapPage (takePage kernel.mm frame) (kernel.taskArray pid) virtAdr (pageAt frame)) grown := by
  have users := inv.limits.users known
  have tables := inv.limits.tables known
  have left := freeCount_takePage inside free
  have needed := tablesNeeded_le kernel.mm.memory (kernel.taskArray pid) virtAdr
  simp only [Kernel.memory, maxProcessPages] at users tables enough
  have taken := @PageRoles.take _ _ _ _ _ inv.roles _ (.user pid (vaPath virtAdr)) inside free
    (by simp)
  obtain ⟨grown, entered, -⟩ := mapPage_entered taken known (Function.update_self ..)
    (by rw [tablesNeeded_takePage inv.roles known inside free]; omega)
    (by rw [inv.roles.take_field known inside free (by decide)]; omega)
    (by rw [inv.roles.take_field known inside free (by decide), maxProcessPages]; exact users)
  exact ⟨grown, inv.roles, known, inside, free, users, by omega, entered⟩

namespace FreshPageEntered

variable {image : Image} {tasks : Nat → Nat} {count pid virtAdr frame ttbr1 : Nat} {mm after : Mm}
  {owner grown : Nat → Option PageRole}

/-- Bytes that are neither in a page of the allocator nor in a task. -/
private theorem unwritten
    (fresh : FreshPageEntered image tasks count pid virtAdr mm owner frame after grown)
    {address : Nat} (off_task : address < tasks pid ∨ tasks pid + pageSize ≤ address)
    (untouched : ∀ index, index < mmNumOfPages → kernelAdr index ≤ address →
      address < kernelAdr index + pageSize → index = frame) :
    after.memory address = (takePage mm frame).memory address := by
  have users := fresh.users
  have tables := fresh.tables
  simp only [maxProcessPages, pageSize] at users off_task
  refine fresh.entered.frame address (by omega)
    (by rw [fresh.roles.take_field fresh.known fresh.inside fresh.free (by decide)]; omega)
    (by rw [fresh.roles.take_field fresh.known fresh.inside fresh.free (by decide),
          tablesNeeded_takePage fresh.roles fresh.known fresh.inside fresh.free]; omega) ?_
  intro index inside lower upper
  rw [untouched index inside lower upper]
  exact ⟨_, Function.update_self .., by simp⟩

theorem zeroed (fresh : FreshPageEntered image tasks count pid virtAdr mm owner frame after grown)
    {address : Nat} (lower : kernelAdr frame ≤ address)
    (upper : address < kernelAdr frame + pageSize) : after.memory address = 0 := by
  have apart := fresh.roles.task_apart fresh.known fresh.inside
    (by rw [(fresh.roles.unused fresh.inside).mpr fresh.free]; simp)
  rw [fresh.unwritten (by omega) ?_, memory_takePage]
  · rw [kernelAdr] at lower upper
    exact Memory.fill_inside _ lower upper
  · intro index _ page_lower page_upper
    by_contra other
    have pages_apart := kernelAdr_apart other
    omega

/-- Bytes of the kernel image outside the initial task are not written. -/
theorem image_kept
    (fresh : FreshPageEntered image tasks count pid virtAdr mm owner frame after grown)
    {address : Nat} (low : address < virtualAddressStart + lowMemory)
    (apart : image.initTask + taskSize ≤ address ∨ address < image.initTask) :
    after.memory address = mm.memory address := by
  have below : ∀ {index}, index < mmNumOfPages → address < kernelAdr index := by
    intro index inside
    have range := kernelAdr_range inside
    omega
  have off_task : address < tasks pid ∨ tasks pid + pageSize ≤ address := by
    rcases fresh.roles.task fresh.known with ⟨_, same⟩ | ⟨_, index, same, owned⟩
    · rw [same]
      simp only [taskSize, pageSize] at apart ⊢
      omega
    · rw [same]
      exact Or.inl (below (fresh.roles.inside owned))
  rw [fresh.unwritten off_task ?_, memory_takePage, Memory.fill_outside]
  · have := below fresh.inside
    rw [kernelAdr] at this
    exact Or.inl this
  · intro index inside lower
    have := below inside
    omega

theorem kernel_half
    (fresh : FreshPageEntered image tasks count pid virtAdr mm owner frame after grown)
    (tables : KernelTablesApart image mm.memory ttbr1) (address : Nat) :
    walkTables after.memory address 3 ttbr1 = walkTables mm.memory address 3 ttbr1 := by
  refine walkTables_congr ?_ address .root
  intro level table index reached bound
  obtain ⟨below, apart⟩ := tables level table reached
  have top : lowMemory + virtualAddressStart ≤ wordSize := by decide
  simp only [ptrsPerTable, taskSize, pageSize] at bound below apart
  rw [descriptor, descriptor, Nat.mod_eq_of_lt (by omega)]
  apply Memory.read_congr
  intro byte lower upper
  exact fresh.image_kept (by omega) (by simp only [taskSize]; omega)

theorem user_half
    (fresh : FreshPageEntered image tasks count pid virtAdr mm owner frame after grown)
    {address : Nat} (user : address < 2 ^ 48) :
    translateFor after.memory (tasks pid) ttbr1 address =
      if vaPath address = vaPath virtAdr then some (pageAt frame + address % pageSize)
      else translateFor mm.memory (tasks pid) ttbr1 address := by
  rw [fresh.entered.roles.translateFor_user fresh.known user,
    fresh.roles.translateFor_user fresh.known user,
    fresh.entered.walks fresh.known (length_vaPath address)]
  by_cases same : vaPath address = vaPath virtAdr
  · rw [if_pos ⟨rfl, same⟩, if_pos same, Option.map_some]
  · rw [if_neg (fun both => same both.2), if_neg same,
      fresh.roles.walk_take fresh.known (by simp) fresh.inside fresh.free]

theorem other_page
    (fresh : FreshPageEntered image tasks count pid virtAdr mm owner frame after grown)
    {address phys : Nat} (user : address < 2 ^ 48)
    (before : translateFor mm.memory (tasks pid) ttbr1 address = some phys) :
    phys ≠ pageAt frame + address % pageSize := by
  rw [fresh.roles.translateFor_user fresh.known user] at before
  obtain ⟨page, reached, rfl⟩ := Option.map_eq_some_iff.mp before
  obtain ⟨index, rfl, owned⟩ := fresh.roles.walk_placed fresh.known (by simp) reached
  intro same
  obtain rfl := pageAt_injective (Nat.add_right_cancel same)
  rw [(fresh.roles.unused fresh.inside).mpr fresh.free] at owned
  cases owned

theorem not_free
    (fresh : FreshPageEntered image tasks count pid virtAdr mm owner frame after grown) :
    ¬IsFree after frame := by
  have owned := fresh.entered.kept (Function.update_self ..)
  rw [← fresh.entered.roles.unused fresh.inside, owned]
  simp

end FreshPageEntered

/-! ## Resolved faults -/

/-- The task has no page at the low bits of the address, and the address lies in the user half
unless the kernel half happens to map it to the page that is handed out next. -/
def Resolvable (kernel : Kernel) (ttbr1 addr : Nat) : Prop :=
  translateFor kernel.memory kernel.current ttbr1 (addr % 2 ^ 48) = none ∧
    (addr < 2 ^ 48 ∨ translateFor kernel.memory kernel.current ttbr1 addr =
      some ((getNextFreePage kernel.mm).2 + addr % pageSize))

section Fault

variable {image : Image} {kernel : Kernel} {owner : Nat → Option PageRole} {addr esr ttbr1 : Nat}

/-- `do_mem_abort` on a translation fault, with every page that it takes left. -/
theorem SpacesInv.abort_enters (inv : SpacesInv image kernel owner)
    (fault : esr &&& 63 &&& 60 = 4) (supplied : (KernelCall.abort addr esr).Supplied kernel) :
    ∃ pid frame after grown, kernel.current = kernel.taskArray pid ∧
      (getNextFreePage kernel.mm).2 = pageAt frame ∧
      doMemAbort kernel addr esr = ({ kernel with mm := after }, 0) ∧
      FreshPageEntered image kernel.taskArray kernel.nTasks pid (addr &&& pageMask) kernel.mm owner
        frame after grown := by
  obtain ⟨pid, known, current⟩ := inv.current
  have enough : tablesNeeded kernel.memory (kernel.taskArray pid) (addr &&& pageMask) + 1 ≤
      freeCount kernel.mm := by
    rw [KernelCall.Supplied] at supplied
    simpa only [KernelCall.pages, KernelCall.target, if_pos fault, current] using supplied
  obtain ⟨frame, inside, free, call⟩ := getNextFreePage_of_pos
    (by omega : 0 < freeCount kernel.mm)
  obtain ⟨grown, fresh⟩ := inv.enter known inside free enough
  refine ⟨pid, frame, _, grown, current, by rw [call], ?_, fresh⟩
  simp only [doMemAbort, if_pos fault, call, pageAt_ne_zero, if_false, current]

/-- An address of the user half is resolved where nothing was mapped, and nowhere else. -/
private theorem resolved_iff {pid frame : Nat} {after : Mm} {grown : Nat → Option PageRole}
    (current : kernel.current = kernel.taskArray pid)
    (next : (getNextFreePage kernel.mm).2 = pageAt frame)
    (tables : KernelTablesApart image kernel.memory ttbr1)
    (fresh : FreshPageEntered image kernel.taskArray kernel.nTasks pid (addr &&& pageMask)
      kernel.mm owner frame after grown) :
    FaultResolved kernel { kernel with mm := after } ttbr1 addr ↔
      Resolvable kernel ttbr1 addr := by
  have recorded := fresh.entered.physical
  rw [fresh.roles.take_field fresh.known fresh.inside fresh.free (by decide)] at recorded
  have low : addr % 2 ^ 48 < 2 ^ 48 := Nat.mod_lt _ (by decide)
  have here : vaPath (addr % 2 ^ 48) = vaPath (addr &&& pageMask) :=
    (vaPath_mod addr).trans (vaPath_pageMask addr).symm
  have mapped := @FreshPageEntered.user_half _ _ _ _ _ _ ttbr1 _ _ _ _ fresh _ low
  rw [if_pos here, mod_pageSize_low] at mapped
  have upper_half : ∀ virtAdr, 2 ^ 48 ≤ virtAdr →
      translateFor after.memory (kernel.taskArray pid) ttbr1 virtAdr =
        translateFor kernel.mm.memory (kernel.taskArray pid) ttbr1 virtAdr := by
    intro virtAdr above
    by_cases half : virtualAddressStart ≤ virtAdr
    · rw [translateFor_kernel half, translateFor_kernel half, fresh.kernel_half tables]
    · rw [translateFor_between above (Nat.lt_of_not_le half),
        translateFor_between above (Nat.lt_of_not_le half)]
  rw [Resolvable, next, current]
  constructor
  · rintro ⟨⟨page, _, _, _, page_recorded, _, translated⟩, kept⟩
    simp only [Kernel.memory, current] at page_recorded translated kept ⊢
    obtain rfl := pageAt_injective (page_recorded.symm.trans recorded)
    constructor
    · by_contra present
      obtain ⟨phys, before⟩ := Option.ne_none_iff_exists'.mp present
      have same := (kept _ _ before).symm.trans mapped
      rw [← mod_pageSize_low addr] at same
      exact fresh.other_page low before (Option.some.inj same)
    · by_cases user : addr < 2 ^ 48
      · exact Or.inl user
      · rw [upper_half addr (Nat.le_of_not_lt user)] at translated
        exact Or.inr translated
  · rintro ⟨unmapped, half⟩
    simp only [Kernel.memory] at unmapped half
    refine ⟨⟨frame, fresh.inside, fresh.free, fresh.not_free, ?_, ?_, ?_⟩, ?_⟩
    · simp only [Kernel.memory, current]
      exact recorded
    · intro address lower upper
      exact fresh.zeroed lower upper
    · simp only [Kernel.memory, current]
      by_cases user : addr < 2 ^ 48
      · rwa [Nat.mod_eq_of_lt user] at mapped
      · rw [upper_half addr (Nat.le_of_not_lt user)]
        exact half.resolve_left user
    · intro virtAdr phys before
      simp only [Kernel.memory, current] at before ⊢
      by_cases user : virtAdr < 2 ^ 48
      · rw [fresh.user_half user, if_neg, before]
        intro same
        rw [fresh.roles.translateFor_user fresh.known low, here, ← same] at unmapped
        rw [fresh.roles.translateFor_user fresh.known user, Option.map_eq_none_iff.mp unmapped]
          at before
        cases before
      · rw [upper_half virtAdr (Nat.le_of_not_lt user), before]

/-- With every page left that it takes, `do_mem_abort` resolves each fault it reports as handled
exactly when the ESR is no translation fault or the address can be resolved in the tables of the
task. -/
theorem doMemAbort_resolved_iff (inv : SpacesInv image kernel owner)
    (supplied : (KernelCall.abort addr esr).Supplied kernel)
    (tables : KernelTablesApart image kernel.memory ttbr1) :
    ((doMemAbort kernel addr esr).2 = 0 →
        FaultResolved kernel (doMemAbort kernel addr esr).1 ttbr1 addr) ↔
      (esr &&& 63 &&& 60 = 4 → Resolvable kernel ttbr1 addr) := by
  by_cases fault : esr &&& 63 &&& 60 = 4
  · obtain ⟨pid, frame, after, grown, current, next, call, fresh⟩ :=
      inv.abort_enters fault supplied
    rw [call, resolved_iff current next tables fresh]
    simp only [true_imp_iff, fault]
  · have refused : (doMemAbort kernel addr esr).2 = -1 := by
      simp only [doMemAbort, if_neg fault]
    constructor
    · intro _ handled
      exact absurd handled fault
    · intro _ handled
      rw [refused] at handled
      exact absurd handled (by decide)

end Fault

/-! ## The kernel with its boot tables -/

/-- The tables that the boot code builds over blank pages lie apart from the initial task, when
this lies outside their five pages. -/
theorem kernelTables_apart {image : Image} {memory : Memory} {pgDir : PgDir}
    (blank : TablesBlank memory pgDir)
    (apart : image.initTask + taskSize ≤ pgDir.address + virtualAddressStart ∨
      pgDir.address + 5 * pageSize + virtualAddressStart ≤ image.initTask) :
    KernelTablesApart image (kernelTables memory pgDir) (kernelDirectory memory pgDir) := by
  intro level table reached
  have below := pgDir.below
  simp only [taskSize, pageSize] at apart below ⊢
  rcases tableAt_kernelTables blank reached with ⟨_, rfl⟩ | ⟨_, rfl⟩ | ⟨_, rfl⟩ <;>
    simp only [PgDir.table, pageSize] <;> omega

theorem AtBoot.supplied {image : Image} {kernel : Kernel} (booted : AtBoot image kernel)
    (addr esr : Nat) : (KernelCall.abort addr esr).Supplied kernel := by
  have left := booted.freeCount_eq
  have pages : (KernelCall.abort addr esr).pages kernel ≤ 5 := by
    simp only [KernelCall.pages]
    split
    · exact Nat.succ_le_succ (tablesNeeded_le _ _ _)
    · exact Nat.zero_le _
  have many : 5 ≤ mmNumOfPages - kernelHeapSizePages := by decide
  rw [KernelCall.Supplied]
  omega

/-- The first task running over the tables of the boot code, memory otherwise zero. -/
def tablesKernel : Kernel :=
  onePageKernel ⟨kernelTables blankMm.memory examplePgDir,
    (afterCalls kernelHeapSizePages blankMm).pageBitmap⟩

/-- `ttbr1_el1` after the boot. -/
def tablesTtbr1 : Nat := kernelDirectory blankMm.memory examplePgDir

theorem memory_tablesKernel :
    tablesKernel.memory = kernelTables blankMm.memory examplePgDir := rfl

theorem current_tablesKernel : tablesKernel.current = smallImage.initTask := rfl

theorem tablesKernel_field {field : Field} (within : field.offset + field.width ≤ pageSize) :
    field.get tablesKernel.memory smallImage.initTask = 0 := by
  have apart : smallImage.initTask + 2 * pageSize ≤ examplePgDir.address + virtualAddressStart := by
    decide
  have top : examplePgDir.address + virtualAddressStart < wordSize := by decide
  simp only [pageSize] at within apart
  have same : blankMm.memory.AgreeOn tablesKernel.memory (smallImage.initTask + field.offset)
      field.width := by
    intro address lower upper
    exact kernelTables_outside _ _ (by omega)
  rw [Field.get_congr (by omega) same, blank_field]

theorem atBoot_tablesKernel : AtBoot smallImage tablesKernel where
  pages := ⟨blankMm.memory, pageBitmap_onePageKernel _ _⟩
  nTasks := rfl
  task := rfl
  current := rfl
  directory := tablesKernel_field (by decide)
  userpages := tablesKernel_field (by decide)
  kernelpages := tablesKernel_field (by decide)

theorem tablesKernel_apart : KernelTablesApart smallImage tablesKernel.memory tablesTtbr1 := by
  refine kernelTables_apart ?_ (by decide)
  intro place _
  exact ⟨Memory.read_zero fun _ _ _ => rfl, Memory.read_zero fun _ _ _ => rfl⟩

/-- The first fault in the user half is resolved. -/
theorem doMemAbort_resolves_first_page :
    (doMemAbort tablesKernel 0x1000 0x92000006).2 = 0 ∧
      FaultResolved tablesKernel (doMemAbort tablesKernel 0x1000 0x92000006).1 tablesTtbr1
        0x1000 := by
  have inv := atBoot_tablesKernel.spaces
  have supplied := atBoot_tablesKernel.supplied 0x1000 0x92000006
  obtain ⟨pid, frame, after, grown, current, next, call, fresh⟩ :=
    inv.abort_enters (by decide) supplied
  have handled : (doMemAbort tablesKernel 0x1000 0x92000006).2 = 0 := by rw [call]
  refine ⟨handled, (doMemAbort_resolved_iff inv supplied tablesKernel_apart).mpr ?_ handled⟩
  intro _
  refine ⟨?_, Or.inl (by decide)⟩
  have empty := @tablesKernel_field Task.pagedirectory (by decide)
  rw [translateFor, if_neg (by decide), current_tablesKernel, if_pos empty]

/-- A user access to `0xffff800000000000`, which the kernel half does not map, is reported as
handled and not resolved. -/
theorem doMemAbort_kernel_half_unresolved : ∃ owner,
    SpacesInv smallImage tablesKernel owner ∧
    (KernelCall.abort 0xffff800000000000 0x92000004).Supplied tablesKernel ∧
    KernelTablesApart smallImage tablesKernel.memory tablesTtbr1 ∧
    (doMemAbort tablesKernel 0xffff800000000000 0x92000004).2 = 0 ∧
    ¬FaultResolved tablesKernel (doMemAbort tablesKernel 0xffff800000000000 0x92000004).1
      tablesTtbr1 0xffff800000000000 := by
  have inv := atBoot_tablesKernel.spaces
  obtain ⟨pid, frame, after, grown, current, next, call, fresh⟩ :=
    inv.abort_enters (by decide) (atBoot_tablesKernel.supplied 0xffff800000000000 0x92000004)
  refine ⟨_, inv, atBoot_tablesKernel.supplied _ _, tablesKernel_apart, by rw [call], ?_⟩
  rw [call, resolved_iff current next tablesKernel_apart fresh]
  rintro ⟨-, user | mapped⟩
  · exact absurd user (by decide)
  · -- bits 47 to 39 select a block in the directory, where the hardware accepts tables only
    have index : tableIndex 0xffff800000000000 (pageShift + 9 * 3) = 256 := by decide
    have entry := kernelTables_directory blankMm.memory examplePgDir (by decide : 0 < 256)
      (by decide)
    have block : (if 256 < 496 then 256 * sectionSize + mmuFlags else 0) % 4 ≠ 3 := by decide
    rw [translateFor_kernel (by decide), walkTables_directory] at mapped
    · cases mapped
    · rw [index, memory_tablesKernel, tablesTtbr1, kernelDirectory_eq, entry]
      exact block

end PellOs

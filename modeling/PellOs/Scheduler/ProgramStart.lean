import PellOs.Scheduler.ElfLoad
import PellOs.Scheduler.UserView

/-!
# Starting a program

`move_to_userspace` stores the first registers of the program, takes a page for its code and copies
the program into it.  The task then sees the program at address zero, zeros behind it and all else
as before.
-/

namespace PellOs

/-- The range lies in the kernel heap. -/
def InKernelHeap (start size : Nat) : Prop :=
  kernelAdr 0 ≤ start ∧ start + size ≤ kernelAdr kernelHeapSizePages

theorem InKernelHeap.page {start size address : Nat} (heap : InKernelHeap start size)
    (lower : start ≤ address) (upper : address < start + size) :
    ∃ index, index < kernelHeapSizePages ∧ kernelAdr index ≤ address ∧
      address < kernelAdr index + pageSize := by
  obtain ⟨low, high⟩ := heap
  refine ⟨(address - kernelAdr 0) / pageSize, ?_⟩
  simp only [kernelAdr, pageAt, pageSize, kernelHeapSizePages] at *
  omega

theorem startRegs_outside {memory : Memory} {regs pc address : Nat}
    (fits : regs + sizeofPtRegs < wordSize)
    (off : address < regs ∨ regs + sizeofPtRegs ≤ address) :
    startRegs memory regs pc address = memory address := by
  simp only [sizeofPtRegs] at fits off
  rw [startRegs, Field.set_outside, Field.set_outside, Field.set_outside]
  all_goals
    simp only [PtRegs.pc, PtRegs.pstate, PtRegs.sp]
    omega

/-- The registers with which a program starts. -/
structure RegsStarted (memory : Memory) (regs pc : Nat) : Prop where
  pc : PtRegs.pc.get memory regs = pc
  pstate : PtRegs.pstate.get memory regs = psrModeEl0t
  sp : PtRegs.sp.get memory regs = 2 * pageSize

theorem startRegs_started (memory : Memory) {regs pc : Nat} (fits : regs + sizeofPtRegs < wordSize)
    (small : pc < wordSize) : RegsStarted (startRegs memory regs pc) regs pc := by
  simp only [sizeofPtRegs] at fits
  have word : wordSize = 256 ^ 8 := wordSize_eq_pow
  have other : ∀ {field stored : Field} {memory : Memory} {value : Nat}, field.Apart stored →
      field.offset + field.width ≤ 272 → stored.offset + stored.width ≤ 272 → 0 < field.width →
      0 < stored.width → field.get (stored.set memory regs value) regs = field.get memory regs := by
    intro field stored memory value apart inside stored_inside wide stored_wide
    refine Field.get_congr (by omega) (Field.agreeOn_set (by omega) value ?_)
    simp only [Field.Apart] at apart
    omega
  unfold startRegs
  constructor
  · rw [other (by decide) (by decide) (by decide) (by decide) (by decide),
      other (by decide) (by decide) (by decide) (by decide) (by decide)]
    exact Field.get_set_same (by simp only [PtRegs.pc]; omega)
      (small.trans_le (by rw [word, PtRegs.pc]))
  · rw [other (by decide) (by decide) (by decide) (by decide) (by decide)]
    exact Field.get_set_same (by simp only [PtRegs.pstate]; omega) (by decide)
  · exact Field.get_set_same (by simp only [PtRegs.sp]; omega) (by decide)

theorem RegsStarted.congr {memory after : Memory} {regs pc : Nat}
    (started : RegsStarted memory regs pc) (fits : regs + sizeofPtRegs < wordSize)
    (same : memory.AgreeOn after regs sizeofPtRegs) : RegsStarted after regs pc := by
  simp only [sizeofPtRegs] at fits same
  have field_same : ∀ {field : Field}, field.offset + field.width ≤ 272 →
      field.get after regs = field.get memory regs := by
    intro field within
    exact Field.get_congr (by omega) (same.mono (by omega) (by omega))
  exact ⟨(field_same (by decide)).trans started.pc, (field_same (by decide)).trans started.pstate,
    (field_same (by decide)).trans started.sp⟩

section Start

variable {image : Image} {kernel : Kernel} {owner : Nat → Option PageRole}
  {space : Nat → Nat → Option UInt8} {pid start size pc : Nat}

theorem startRegs_edited (inv : SpacesInv image kernel owner) (known : pid < kernel.nTasks)
    (pc : Nat) :
    FieldsEdited kernel (kernel.setMemory
      (startRegs kernel.memory (getTaskPtRegs (kernel.taskArray pid)) pc)) pid where
  mm := rfl
  taskArray := rfl
  nTasks := rfl
  confined address off := by
    have range := inv.roles.task_range known
    rw [Kernel.memory_setMemory, getTaskPtRegs_eq range.2]
    simp only [pageSize] at range off
    exact startRegs_outside (by simp only [sizeofPtRegs]; omega)
      (by simp only [sizeofPtRegs]; omega)

theorem tablesNeeded_congr {memory after : Memory} {task virtAdr : Nat}
    (walks : ∀ {path}, path.length ≤ 4 → walk after task path = walk memory task path) :
    tablesNeeded after task virtAdr = tablesNeeded memory task virtAdr := by
  have same : ∀ path ∈ tablePositions virtAdr,
      walk after task path = none ↔ walk memory task path = none := by
    intro path member
    have short := (mem_tablePositions.mp member).1
    rw [walks (by omega)]
  rw [tablesNeeded_eq, tablesNeeded_eq, Finset.filter_congr same]

/-- Whether a call finds its pages and room for what it records depends on the task alone. -/
theorem KernelCall.allocate_setMemory {memory : Memory} {virtAdr : Nat}
    (users : Task.userpagesCount.get memory (kernel.taskArray pid) =
      Task.userpagesCount.get kernel.memory (kernel.taskArray pid))
    (tables : Task.kernelpagesCount.get memory (kernel.taskArray pid) =
      Task.kernelpagesCount.get kernel.memory (kernel.taskArray pid))
    (walks : ∀ {path}, path.length ≤ 4 →
      walk memory (kernel.taskArray pid) path = walk kernel.memory (kernel.taskArray pid) path)
    (supplied : (KernelCall.allocate pid virtAdr).Supplied kernel)
    (fits : (KernelCall.allocate pid virtAdr).Fits kernel) :
    (KernelCall.allocate pid virtAdr).Supplied (kernel.setMemory memory) ∧
      (KernelCall.allocate pid virtAdr).Fits (kernel.setMemory memory) := by
  have needed : tablesNeeded memory (kernel.taskArray pid) virtAdr =
      tablesNeeded kernel.memory (kernel.taskArray pid) virtAdr := tablesNeeded_congr walks
  constructor
  · change tablesNeeded memory (kernel.taskArray pid) virtAdr + 1 ≤
      freeCount (kernel.mm.setMemory memory)
    rw [needed, freeCount_congr (Mm.pageBitmap_setMemory _ _)]
    exact supplied
  · intro task address target
    obtain ⟨rfl, rfl⟩ := Prod.mk.inj (Option.some.inj target)
    rw [Kernel.memory_setMemory, Kernel.taskArray_setMemory, users, tables, needed]
    exact fits rfl

theorem SpacesShown.congr {space' : Nat → Nat → Option UInt8}
    (shown : SpacesShown image kernel space)
    (same : ∀ {pid virtAdr}, pid < kernel.nTasks → virtAdr < 2 ^ 48 →
      space pid virtAdr = space' pid virtAdr) : SpacesShown image kernel space' where
  inv := shown.inv
  records := shown.records
  shown known user := (shown.shown known user).trans (same known user)

/-- What the tasks see through their own directories does not depend on `ttbr0_el1`. -/
theorem SpacesShown.load (shown : SpacesShown image kernel space) (ttbr0 : Nat) :
    SpacesShown image { kernel with ttbr0 } space := by
  obtain ⟨owner, inv⟩ := shown.inv
  exact ⟨⟨owner, inv.roles, inv.heap, inv.current, inv.limits.tasks, inv.limits.users,
    inv.limits.tables⟩, shown.records, shown.shown⟩

/-- What a program start leaves: the task is ready to run the program and sees it at address
zero. -/
structure ProgramStarted (image : Image) (kernel : Kernel) (space : Nat → Nat → Option UInt8)
    (pid start size pc : Nat) (after : Kernel) : Prop where
  shown : SpacesShown image after (Function.update space pid fun address =>
    if address < pageSize then
      some (if address < size then kernel.memory (start + address) else 0)
    else space pid address)
  taskArray : after.taskArray = kernel.taskArray
  nTasks : after.nTasks = kernel.nTasks
  current : after.current = kernel.current
  ttbr0 : after.ttbr0 = Task.pagedirectory.get after.memory (kernel.taskArray pid)
  directory : Task.pagedirectory.get after.memory (kernel.taskArray pid) ≠ 0
  userpages : Task.userpagesCount.get after.memory (kernel.taskArray pid) =
    Task.userpagesCount.get kernel.memory (kernel.taskArray pid) + 1
  left : freeCount after.mm + tablesNeeded kernel.memory (kernel.taskArray pid) 0 + 1 =
    freeCount kernel.mm
  regs : RegsStarted after.memory (getTaskPtRegs (kernel.taskArray pid)) pc

theorem allocateUserPage_taken {mm : Mm} (left : 0 < freeCount mm) (task virtAdr : Nat) :
    ∃ frame, frame < mmNumOfPages ∧ IsFree mm frame ∧
      allocateUserPage mm task virtAdr =
        (mapPage (takePage mm frame) task virtAdr (pageAt frame), kernelAdr frame) := by
  obtain ⟨frame, inside, free, taken⟩ := getNextFreePage_of_pos left
  refine ⟨frame, inside, free, ?_⟩
  unfold allocateUserPage
  rw [taken]
  simp only [pageAt_ne_zero, if_false, kernelAdr_eq inside]

theorem memcpy_program (inv : SpacesInv image kernel owner) {frame : Nat} {role : PageRole}
    (inside : frame < mmNumOfPages) (owned : owner frame = some role) (not_heap : role ≠ .heap)
    (heap : InKernelHeap start size) (size_pos : 0 < size) (one_page : size ≤ pageSize)
    (target : Nat) :
    memcpy kernel.memory (kernelAdr frame) start size target =
      if kernelAdr frame ≤ target ∧ target < kernelAdr frame + size then
        kernel.memory (start + (target - kernelAdr frame)) else kernel.memory target := by
  have range := kernelAdr_range inside
  have heap_end : kernelAdr kernelHeapSizePages + pageSize ≤ wordSize :=
    (Nat.add_le_add_left (by decide) _).trans
      (kernelAdr_range (by decide : kernelHeapSizePages < mmNumOfPages)).2
  have above : kernelAdr kernelHeapSizePages ≤ kernelAdr frame := by
    have high : kernelHeapSizePages ≤ frame := by
      by_contra low
      have clash := (inv.heap (Nat.lt_of_not_le low)).symm.trans owned
      exact not_heap (Option.some.inj clash).symm
    simp only [kernelAdr, pageAt, pageSize]
    omega
  have bounds := heap.2
  simp only [pageSize] at range heap_end one_page
  exact memcpy_apply _ _ _ _ _ size_pos (by omega) (by omega) (by omega) (by omega)

/-- The part of `move_to_userspace` behind the saved registers: a page for the code, and the program
copied into it. -/
theorem allocateUserPage_program (shown : SpacesShown image kernel space)
    (known : pid < kernel.nTasks) (heap : InKernelHeap start size) (size_pos : 0 < size)
    (one_page : size ≤ pageSize) (supplied : (KernelCall.allocate pid 0).Supplied kernel)
    (fits : (KernelCall.allocate pid 0).Fits kernel) :
    ∃ frame mm, allocateUserPage kernel.mm (kernel.taskArray pid) 0 = (mm, kernelAdr frame) ∧
      SpacesShown image (({ kernel with mm } : Kernel).setMemory
          (memcpy mm.memory (kernelAdr frame) start size))
        (Function.update space pid fun address =>
          if address < pageSize then
            some (if address < size then kernel.memory (start + address) else 0)
          else space pid address) ∧
      Task.pagedirectory.get (memcpy mm.memory (kernelAdr frame) start size)
        (kernel.taskArray pid) ≠ 0 ∧
      Task.userpagesCount.get (memcpy mm.memory (kernelAdr frame) start size)
        (kernel.taskArray pid) = Task.userpagesCount.get kernel.memory (kernel.taskArray pid) + 1 ∧
      freeCount mm + tablesNeeded kernel.memory (kernel.taskArray pid) 0 + 1 =
        freeCount kernel.mm ∧
      kernel.memory.AgreeOn (memcpy mm.memory (kernelAdr frame) start size)
        (kernel.taskArray pid + 3824) sizeofPtRegs := by
  obtain ⟨owner, inv⟩ := shown.inv
  obtain ⟨room, tables⟩ := fits rfl
  have left : tablesNeeded kernel.memory (kernel.taskArray pid) 0 + 1 ≤ freeCount kernel.mm :=
    supplied
  obtain ⟨frame, inside, free, call⟩ := @allocateUserPage_taken kernel.mm (by omega)
    (kernel.taskArray pid) 0
  obtain ⟨mm, mapped⟩ : ∃ mm, mapPage (takePage kernel.mm frame) (kernel.taskArray pid) 0
    (pageAt frame) = mm := ⟨_, rfl⟩
  rw [mapped] at call
  obtain ⟨map_shown, reached⟩ := shown.map known (by decide) (by decide) inside free left room
    tables mapped
  obtain ⟨grown, added, map_inv⟩ := inv.map known inside free left room tables mapped
  have program := @memcpy_program _ _ _ start size map_inv _ _ inside added.owned (by simp) heap
    size_pos one_page
  have confined : ∀ address, address < kernelAdr frame ∨ kernelAdr frame + pageSize ≤ address →
      memcpy mm.memory (kernelAdr frame) start size address = mm.memory address := by
    intro address off
    exact (program address).trans (if_neg (by omega))
  obtain ⟨after_inv, task_same, walks⟩ := map_inv.write added.owned confined
  have apart := map_inv.roles.task_apart known inside (by rw [added.owned]; simp)
  have heap_same : ∀ i, i < size → mm.memory (start + i) = kernel.memory (start + i) := by
    intro i bound
    obtain ⟨index, low, lower, upper⟩ := heap.page (Nat.le_add_right start i) (by omega)
    exact added.pages (inv.heap low) (by simp) (by simp) _ lower upper
  have zero : ∀ offset, offset < pageSize → mm.memory (kernelAdr frame + offset) = 0 := by
    intro offset low
    have user : offset < 2 ^ 48 := low.trans (by decide)
    have same_page : offset / pageSize = 0 / pageSize := Nat.div_eq_of_lt low
    have same : vaPath offset = vaPath 0 := (vaPath_eq_iff_page user (by decide)).mpr same_page
    have seen := map_shown.shown known user
    rw [Function.update_self, if_pos same_page] at seen
    have mapped_view := userView_mapped map_inv.roles known user (by rw [same]; exact reached)
    rw [Nat.mod_eq_of_lt low] at mapped_view
    exact Option.some.inj (mapped_view.symm.trans seen)
  refine ⟨frame, mm, call, (map_shown.write known (by decide) reached confined).congr ?_, ?_, ?_,
    added.left, ?_⟩
  · intro other address other_known user
    by_cases here : other = pid
    · subst here
      rw [Function.update_self, Function.update_self, Function.update_self]
      by_cases first : address / pageSize = 0 / pageSize
      · have low : address < pageSize := by
          simp only [pageSize] at first ⊢
          omega
        rw [if_pos first, if_pos low, Nat.mod_eq_of_lt low]
        refine (congrArg some (program _)).trans (congrArg some ?_)
        rw [Nat.add_sub_cancel_left]
        by_cases inner : address < size
        · rw [if_pos (by omega), if_pos inner]
          exact heap_same address inner
        · rw [if_neg (by omega), if_neg inner]
          exact zero address low
      · have high : ¬address < pageSize := by
          simp only [pageSize] at first ⊢
          omega
        rw [if_neg first, if_neg high, if_neg first]
    · rw [Function.update_of_ne here, Function.update_of_ne here, Function.update_of_ne here]
  · intro absent
    have still := (walks known (length_vaPath 0).le).trans reached
    rw [walk, if_pos absent] at still
    cases still
  · have range := inv.roles.task_range known
    have same : mm.memory.AgreeOn (memcpy mm.memory (kernelAdr frame) start size)
      (kernel.taskArray pid) pageSize := task_same known
    rw [Kernel.memory, ← added.userpages]
    simp only [pageSize] at range same
    refine Field.get_congr ?_ (same.mono ?_ ?_) <;> simp only [Task.userpagesCount] <;> omega
  · intro address lower upper
    have counted := added.kernelpages
    simp only [sizeofPtRegs, maxProcessPages] at upper room tables
    rw [Kernel.memory] at room tables
    simp only [pageSize] at apart
    rw [confined address (by simp only [pageSize]; omega)]
    exact added.own_task address (by omega) (by simp only [pageSize]; omega) (by omega) (by omega)
      (by omega)

theorem moveToUserspace_eq {task codePage : Nat} {mm : Mm} {stored copied : Memory}
    (regs : startRegs kernel.memory (getTaskPtRegs task) pc = stored)
    (call : allocateUserPage (kernel.mm.setMemory stored) task 0 = (mm, codePage))
    (present : codePage ≠ 0) (copy : memcpy mm.memory codePage start size = copied) :
    (moveToUserspace kernel start size pc task).result = 0 ∧
      (moveToUserspace kernel start size pc task).kernel =
        { ({ kernel with mm } : Kernel).setMemory copied with
          ttbr0 := Task.pagedirectory.get copied task } := by
  unfold moveToUserspace
  simp only [regs, call, copy, if_neg present, Mm.memory_setMemory]
  exact ⟨trivial, rfl⟩

/-- `move_to_userspace` with a program of at most a page in the kernel heap. -/
theorem moveToUserspace_started (shown : SpacesShown image kernel space)
    (known : pid < kernel.nTasks) (heap : InKernelHeap start size) (size_pos : 0 < size)
    (one_page : size ≤ pageSize) (small : pc < wordSize)
    (supplied : (KernelCall.allocate pid 0).Supplied kernel)
    (fits : (KernelCall.allocate pid 0).Fits kernel) :
    (moveToUserspace kernel start size pc (kernel.taskArray pid)).result = 0 ∧
      ProgramStarted image kernel space pid start size pc
        (moveToUserspace kernel start size pc (kernel.taskArray pid)).kernel := by
  obtain ⟨owner, inv⟩ := shown.inv
  have range := inv.roles.task_range known
  have regs := getTaskPtRegs_eq range.2
  have regs_fit : getTaskPtRegs (kernel.taskArray pid) + sizeofPtRegs < wordSize := by
    simp only [pageSize] at range
    rw [regs, sizeofPtRegs]
    omega
  have edited := startRegs_edited inv known pc
  have started := startRegs_started kernel.memory regs_fit small
  obtain ⟨stored, stored_eq⟩ : ∃ stored,
    startRegs kernel.memory (getTaskPtRegs (kernel.taskArray pid)) pc = stored := ⟨_, rfl⟩
  rw [stored_eq] at edited started
  obtain ⟨-, walks⟩ := @PageRoles.edit_task _ _ _ _ _ inv.roles stored _ known
    fun address off => edited.confined address (by omega)
  have field_same : ∀ {field : Field}, 152 ≤ field.offset → field.offset + field.width ≤ 560 →
      field.get stored (kernel.taskArray pid) =
        field.get kernel.memory (kernel.taskArray pid) := by
    intro field low high
    simp only [pageSize] at range
    exact Field.get_congr (by omega)
      ((edited.records_same inv known known).mono (by omega) (by omega))
  have needed : tablesNeeded stored (kernel.taskArray pid) 0 =
      tablesNeeded kernel.memory (kernel.taskArray pid) 0 :=
    tablesNeeded_congr fun short => walks known short
  have heap_same : ∀ i, i < size → stored (start + i) = kernel.memory (start + i) := by
    intro i bound
    obtain ⟨index, low, lower, upper⟩ := heap.page (Nat.le_add_right start i) (by omega)
    have apart := inv.roles.task_apart known (inv.roles.inside (inv.heap low))
      (by rw [inv.heap low]; simp)
    exact edited.confined _ (by omega)
  obtain ⟨stored_supplied, stored_fits⟩ := KernelCall.allocate_setMemory
    (field_same (by decide) (by decide)) (field_same (by decide) (by decide))
    (fun short => walks known short) supplied fits
  obtain ⟨frame, mm, call, program, directory, uses, left, kept⟩ := allocateUserPage_program
    (shown.edit known edited inv.current) known heap size_pos one_page stored_supplied stored_fits
  rw [Kernel.mm_setMemory, Kernel.taskArray_setMemory] at call
  rw [Kernel.taskArray_setMemory] at directory uses left kept
  rw [Kernel.memory_setMemory] at uses left kept
  rw [field_same (by decide) (by decide)] at uses
  rw [needed, Kernel.mm_setMemory, freeCount_congr (Mm.pageBitmap_setMemory _ _)] at left
  obtain ⟨copied, copy⟩ : ∃ copied, memcpy mm.memory (kernelAdr frame) start size = copied :=
    ⟨_, rfl⟩
  obtain ⟨result, final⟩ := moveToUserspace_eq stored_eq call (kernelAdr_ne_zero frame) copy
  rw [copy] at program directory uses kept
  rw [final]
  refine ⟨result, (program.load _).congr ?_, rfl, rfl, rfl, rfl, directory, uses, ?_, ?_⟩
  · intro other address _ _
    by_cases here : other = pid
    · subst here
      rw [Function.update_self, Function.update_self, Kernel.memory_setMemory]
      split_ifs with low inner
      · rw [heap_same address inner]
      · rfl
      · rfl
    · rw [Function.update_of_ne here, Function.update_of_ne here]
  · rw [← freeCount_congr (Mm.pageBitmap_setMemory mm copied)] at left
    exact left
  · rw [← regs] at kept
    exact started.congr regs_fit kept

end Start

end PellOs

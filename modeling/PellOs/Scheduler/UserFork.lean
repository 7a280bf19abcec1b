import PellOs.Mm.MappingLaw
import PellOs.Scheduler.Fork

/-!
# Fork of a user process

The child of a user process has the saved registers of its parent, except for the zero that the
child sees as the result of the system call, and a copy of every user page of its parent at the
same virtual address.
-/

namespace PellOs

/-- Memory in which the copy of the user pages starts. -/
def userForkStart (kernel : Kernel) (index : Nat) : Mm :=
  let begun := takePage (preemptDisable kernel).mm index
  begun.setMemory (ptRegsMemory begun.memory kernel.current (kernelAdr index))

/-- Pages that a user fork takes: the page of the task, a page for each recorded user page and the
tables on the way to them. -/
def userForkPages (memory : Memory) (current : Nat) : Nat :=
  1 + Task.userpagesCount.get memory current +
    (recordedTables memory current (Task.userpagesCount.get memory current)).card

section Start

variable {image : Image} {kernel : Kernel} {owner : Nat → Option PageRole} {parent index : Nat}

/-- Bytes that are neither in the new task nor `preempt_count` of the current task. -/
private theorem userForkStart_outside (fork : ForkBegun image kernel owner index
      (takePage (preemptDisable kernel).mm index)) {address : Nat}
    (off_task : address < kernelAdr index ∨ kernelAdr index + pageSize ≤ address)
    (off_preempt : address < kernel.current + 128 ∨ kernel.current + 136 ≤ address) :
    (userForkStart kernel index).memory address = kernel.memory address := by
  have page := kernelAdr_range fork.fresh.1
  rw [userForkStart, Mm.memory_setMemory, ptRegsMemory_outside page.2 (by omega),
    fork.outside address off_task off_preempt]

theorem userForkStart_roles (fork : ForkBegun image kernel owner index
      (takePage (preemptDisable kernel).mm index)) :
    PageRoles image (userForkStart kernel index) (withTask kernel index) (kernel.nTasks + 1)
        (Function.update owner index (some (.taskStruct kernel.nTasks))) ∧
      ∀ {pid path}, pid < kernel.nTasks + 1 → path.length ≤ 4 →
        walk (userForkStart kernel index).memory (withTask kernel index pid) path =
          walk (takePage (preemptDisable kernel).mm index).memory (withTask kernel index pid)
            path := by
  have page := kernelAdr_range fork.fresh.1
  apply @PageRoles.edit_task _ _ _ _ _ fork.roles _ kernel.nTasks (by omega)
  rw [withTask_new]
  intro address off
  simp only [pageSize] at off
  exact ptRegsMemory_outside page.2 (by simp only [pageSize]; omega)

theorem userForkStart_blank (fork : ForkBegun image kernel owner index
      (takePage (preemptDisable kernel).mm index)) {field : Field}
    (low : field.offset + field.width ≤ 3824) :
    field.get (userForkStart kernel index).memory (kernelAdr index) = 0 := by
  have page := kernelAdr_range fork.fresh.1
  rw [Field.get_eq (by simp only [pageSize] at page; omega)]
  apply Memory.read_zero
  intro address lower upper
  rw [userForkStart, Mm.memory_setMemory, ptRegsMemory_outside page.2 (by omega),
    fork.zero address (by omega) (by simp only [pageSize]; omega)]

theorem userForkStart_current (fork : ForkBegun image kernel owner index
      (takePage (preemptDisable kernel).mm index)) (known : parent < kernel.nTasks)
    (current : kernel.current = kernel.taskArray parent) {field : Field} (inside : field.InPage)
    (apart : field.Apart Task.preemptCount) :
    field.get (userForkStart kernel index).memory kernel.current =
      field.get kernel.memory kernel.current := by
  have range := fork.roles.task_range (by omega : parent < _)
  have separate := fork.roles.tasks_apart (by omega : parent < _) (Nat.lt_succ_self _)
    (Nat.ne_of_lt known)
  rw [withTask_old kernel index known, ← current] at range separate
  rw [withTask_new] at separate
  apply Field.get_congr (inside.fits range.2)
  intro address lower upper
  simp only [Field.InPage, Field.Apart, Task.preemptCount, pageSize] at inside apart separate
  exact userForkStart_outside fork (by simp only [pageSize]; omega) (by omega)

private theorem userForkStart_virtual (fork : ForkBegun image kernel owner index
      (takePage (preemptDisable kernel).mm index)) (known : parent < kernel.nTasks)
    (current : kernel.current = kernel.taskArray parent) {number : Nat} (bound : number < 128) :
    recordedVirtual (userForkStart kernel index).memory kernel.current number =
      recordedVirtual kernel.memory kernel.current number := by
  apply userForkStart_current fork known current
  · simp only [Field.InPage, Task.userpageVirtual, Task.userpagesOffset, pageSize]
    omega
  · simp only [Field.Apart, Task.userpageVirtual, Task.userpagesOffset, Task.preemptCount]
    omega

theorem userForkStart_tables (fork : ForkBegun image kernel owner index
      (takePage (preemptDisable kernel).mm index)) (known : parent < kernel.nTasks)
    (current : kernel.current = kernel.taskArray parent) {count : Nat} (bound : count ≤ 128) :
    recordedTables (userForkStart kernel index).memory kernel.current count =
      recordedTables kernel.memory kernel.current count := by
  ext path
  rw [mem_recordedTables, mem_recordedTables]
  constructor
  · rintro ⟨number, small, member⟩
    rw [userForkStart_virtual fork known current (by omega)] at member
    exact ⟨number, small, member⟩
  · rintro ⟨number, small, member⟩
    rw [← userForkStart_virtual fork known current (by omega)] at member
    exact ⟨number, small, member⟩

private theorem userForkStart_walk (fork : ForkBegun image kernel owner index
      (takePage (preemptDisable kernel).mm index)) {pid : Nat} (known : pid < kernel.nTasks)
    {path : List Nat} (short : path.length ≤ 4) :
    walk (userForkStart kernel index).memory (kernel.taskArray pid) path =
      walk kernel.memory (kernel.taskArray pid) path := by
  have same := @(userForkStart_roles fork).2 pid path (by omega) short
  rw [withTask_old kernel index known] at same
  rw [same, fork.walks known short]

private theorem userForkStart_records (fork : ForkBegun image kernel owner index
      (takePage (preemptDisable kernel).mm index)) (known : parent < kernel.nTasks)
    (current : kernel.current = kernel.taskArray parent)
    (records : RecordsMapped kernel.memory kernel.current) :
    RecordsMapped (userForkStart kernel index).memory kernel.current := by
  have same_count := @userForkStart_current _ _ _ _ _ fork known current Task.userpagesCount
    (by decide) (by decide)
  have few := records.few
  simp only [maxProcessPages] at few
  constructor
  · rw [same_count]
    exact records.few
  · intro number bound
    rw [same_count] at bound
    rw [userForkStart_virtual fork known current (by omega)]
    exact records.aligned bound
  · intro number bound
    rw [same_count] at bound
    rw [userForkStart_virtual fork known current (by omega)]
    exact records.user bound
  · intro number bound
    rw [same_count] at bound
    rw [userForkStart_virtual fork known current (by omega), current,
      userForkStart_walk fork known (by simp), ← current]
    exact records.mapped bound

end Start

/-! ## The whole fork -/

/-- What a user fork adds to `Forked`: the copied pages and the saved registers. -/
structure ForkedUser (image : Image) (kernel : Kernel) (owner : Nat → Option PageRole)
    (index cloneFlags : Nat) (after : Kernel) : Prop where
  started : TaskStarted image after.memory (kernelAdr index) cloneFlags
    (Task.priority.get kernel.memory kernel.current)
  copies : ∀ {number}, number < Task.userpagesCount.get kernel.memory kernel.current →
    let path := vaPath (recordedVirtual kernel.memory kernel.current number)
    ∃ frame original, walk after.memory (kernelAdr index) path = some (pageAt frame) ∧
      owner frame = none ∧ walk kernel.memory kernel.current path = some (pageAt original) ∧
      ∀ offset, offset < pageSize →
        after.memory (kernelAdr frame + offset) = kernel.memory (kernelAdr original + offset)
  only : ∀ {path page}, path.length = 4 → walk after.memory (kernelAdr index) path = some page →
    ∃ number, number < Task.userpagesCount.get kernel.memory kernel.current ∧
      path = vaPath (recordedVirtual kernel.memory kernel.current number)
  tables : ∀ {path}, path.length < 4 → ((walk after.memory (kernelAdr index) path).isSome ↔
    path ∈ recordedTables kernel.memory kernel.current
      (Task.userpagesCount.get kernel.memory kernel.current))
  userpages : Task.userpagesCount.get after.memory (kernelAdr index) =
    Task.userpagesCount.get kernel.memory kernel.current
  kernelpages : Task.kernelpagesCount.get after.memory (kernelAdr index) =
    (recordedTables kernel.memory kernel.current
      (Task.userpagesCount.get kernel.memory kernel.current)).card
  regs : ∀ offset, offset < sizeofPtRegs →
    after.memory (kernelAdr index + 3824 + offset) =
      if offset < 8 then 0 else kernel.memory (kernel.current + 3824 + offset)
  left : freeCount after.mm + userForkPages kernel.memory kernel.current = freeCount kernel.mm

section Fork

variable {image : Image} {kernel : Kernel} {owner : Nat → Option PageRole}
  {parent index cloneFlags fn args : Nat}

theorem setMemory_withMm (kernel : Kernel) (mm : Mm) (memory : Memory) :
    ({ kernel with mm }).setMemory memory = { kernel with mm := mm.setMemory memory } := rfl

private theorem forkContext_user {begun after : Mm}
    (user : cloneFlags &&& taskFlagsKernelThread = 0)
    (copied : copyPages kernel.current (kernelAdr index) kernel.ttbr0 (2 ^ 31) 0
      (begun.setMemory (ptRegsMemory begun.memory kernel.current (kernelAdr index))) =
        some (after, 0)) :
    forkContext { kernel with mm := begun } (kernelAdr index) cloneFlags fn args =
      some { kernel with mm := after } := by
  unfold forkContext
  rw [if_neg (by simp [user])]
  rw [ptRegsMemory] at copied
  simp only [Kernel.memory]
  rw [setMemory_withMm]
  unfold copyVirtualMemory
  rw [copied, Option.map_some, Option.map_some]

theorem userFork_filled (fork : ForkBegun image kernel owner index
      (takePage (preemptDisable kernel).mm index)) {mm : Mm} {grown : Nat → Option PageRole}
    {count : Nat}
    (copies : PagesTaken image (withTask kernel index) kernel.nTasks parent
      (userForkStart kernel index)
      (Function.update owner index (some (.taskStruct kernel.nTasks))) count mm grown) :
    ForkFilled image kernel owner index (takePage (preemptDisable kernel).mm index) mm grown := by
  have page := kernelAdr_range fork.fresh.1
  have keeps : ∀ {other role}, owner other = some role →
      Function.update owner index (some (.taskStruct kernel.nTasks)) other = some role := by
    intro other role owned
    rw [Function.update_of_ne, owned]
    rintro rfl
    rw [fork.fresh.2] at owned
    cases owned
  have start_same : ∀ {address size}, address + size ≤ kernelAdr index ∨
      kernelAdr index + pageSize ≤ address →
        (takePage (preemptDisable kernel).mm index).memory.AgreeOn
          (userForkStart kernel index).memory address size := by
    intro address size apart target lower upper
    rw [userForkStart, Mm.memory_setMemory]
    exact ptRegsMemory_outside page.2 (by omega)
  refine ⟨copies.roles, fun owned => copies.kept (keeps owned),
    copies.kept (Function.update_self ..), ?_, ?_, ?_, ?_⟩
  · intro other role owned
    by_cases same : other = index
    · exact Or.inr ⟨same ▸ fork.fresh.2, Or.inl same⟩
    · rcases copies.added owned with before | ⟨unused, new⟩
      · rw [Function.update_of_ne same] at before
        exact Or.inl before
      · rw [Function.update_of_ne same] at unused
        exact Or.inr ⟨unused, Or.inr new⟩
  · intro pid known
    have apart := fork.roles.tasks_apart (by omega : pid < _) (Nat.lt_succ_self _)
      (Nat.ne_of_lt known)
    have same := copies.other_tasks known
    rw [withTask_old kernel index known] at same apart
    rw [withTask_new] at apart
    exact (start_same apart).trans same
  · intro other role owned not_task not_table
    have differ : other ≠ index := by
      rintro rfl
      rw [fork.fresh.2] at owned
      cases owned
    exact (start_same (kernelAdr_apart differ)).trans
      (copies.pages (keeps owned) not_task not_table)
  · intro pid path known long
    have same := copies.walks known long
    have start := @(userForkStart_roles fork).2 pid path (by omega) (by omega)
    rw [withTask_old kernel index known] at same start
    rw [same, start]

/-- Bytes of the new task outside the fields of `kernel_fork` and the page records. -/
private theorem userFork_regs (fork : ForkBegun image kernel owner index
      (takePage (preemptDisable kernel).mm index)) (known : parent < kernel.nTasks)
    (current : kernel.current = kernel.taskArray parent) {mm : Mm}
    {grown : Nat → Option PageRole} {count offset : Nat}
    (copies : PagesCopied image (withTask kernel index) kernel.nTasks parent
      (userForkStart kernel index)
      (Function.update owner index (some (.taskStruct kernel.nTasks))) count mm grown)
    (inside : offset < sizeofPtRegs) :
    (forkEnd image kernel mm (kernelAdr index) cloneFlags).memory
        (kernelAdr index + 3824 + offset) =
      if offset < 8 then 0 else kernel.memory (kernel.current + 3824 + offset) := by
  have page := kernelAdr_range fork.fresh.1
  have filled := userFork_filled fork copies.taken
  have range := fork.roles.task_range (by omega : parent < _)
  have apart := fork.roles.tasks_apart (by omega : parent < _) (Nat.lt_succ_self _)
    (Nat.ne_of_lt known)
  have own := copies.own_task (kernelAdr index + 3824 + offset)
  rw [withTask_old kernel index known, ← current] at range apart
  rw [withTask_new] at apart own
  simp only [sizeofPtRegs, pageSize] at inside apart own
  rw [(forkEnd_memory fork filled known current).1 _ (by omega) (by omega) (by omega),
    own (by omega) (by omega) (by omega), userForkStart, Mm.memory_setMemory,
    ptRegsMemory_regs page.2 range.2 (by rw [sizeofPtRegs]; exact inside)]
  split_ifs
  · rfl
  · exact fork.outside _ (by simp only [pageSize]; omega) (by omega)

private theorem userFork_copied
    (roles : PageRoles image kernel.mm kernel.taskArray kernel.nTasks owner)
    (fork : ForkBegun image kernel owner index (takePage (preemptDisable kernel).mm index))
    (known : parent < kernel.nTasks) (current : kernel.current = kernel.taskArray parent)
    (small : cloneFlags < 256 ^ 8)
    (few : Task.userpagesCount.get kernel.memory kernel.current ≤ 128)
    {mm : Mm} {grown : Nat → Option PageRole}
    (copies : PagesCopied image (withTask kernel index) kernel.nTasks parent
      (userForkStart kernel index)
      (Function.update owner index (some (.taskStruct kernel.nTasks)))
      (Task.userpagesCount.get kernel.memory kernel.current) mm grown) :
    ForkedUser image kernel owner index cloneFlags
      (forkEnd image kernel mm (kernelAdr index) cloneFlags) := by
  have filled := userFork_filled fork copies.taken
  obtain ⟨_, same_walks⟩ := @forkEnd_roles _ _ _ _ _ _ cloneFlags _ _ fork filled known current
  have child_walk : ∀ {path}, path.length ≤ 4 →
      walk (forkEnd image kernel mm (kernelAdr index) cloneFlags).memory (kernelAdr index) path =
        walk mm.memory (kernelAdr index) path := by
    intro path short
    have same := @same_walks kernel.nTasks path (by omega) short
    rwa [withTask_new] at same
  have current_task : withTask kernel index parent = kernel.current := by
    rw [withTask_old kernel index known, current]
  have same_virtual : ∀ {number}, number < Task.userpagesCount.get kernel.memory kernel.current →
      recordedVirtual (userForkStart kernel index).memory kernel.current number =
        recordedVirtual kernel.memory kernel.current number := by
    intro number bound
    exact userForkStart_virtual fork known current (by omega)
  have same_tables := userForkStart_tables fork known current few
  have field_same : ∀ {field : Field}, 152 ≤ field.offset → field.offset + field.width ≤ 560 →
      field.get (forkEnd image kernel mm (kernelAdr index) cloneFlags).memory (kernelAdr index) =
        field.get mm.memory (kernelAdr index) := forkEnd_field fork filled known current
  have uses := copies.userpages
  have tables := copies.kernelpages
  rw [withTask_new] at uses tables
  rw [current_task, same_tables] at tables
  refine ⟨forkEnd_started fork filled known current small, ?_, ?_, ?_, ?_, ?_, ?_, ?_⟩
  · intro number bound path
    obtain ⟨frame, original, reached, unused, start_reached, contents⟩ := copies.copies bound
    rw [current_task, same_virtual bound, withTask_new] at reached
    rw [current_task, same_virtual bound, current, userForkStart_walk fork known (by simp),
      ← current] at start_reached
    have frame_ne : frame ≠ index := by
      rintro rfl
      rw [Function.update_self] at unused
      cases unused
    rw [Function.update_of_ne frame_ne] at unused
    refine ⟨frame, original, (child_walk (length_vaPath _).le).trans reached, unused,
      start_reached, ?_⟩
    intro offset inside
    obtain ⟨placed, same_page, placed_owned⟩ := copies.roles.walk_placed (Nat.lt_succ_self _)
      (length_vaPath _).le (by rw [withTask_new]; exact reached)
    obtain rfl := pageAt_injective same_page
    rw [treeRole, if_neg (by simp)] at placed_owned
    have parent_reached := start_reached
    rw [current] at parent_reached
    obtain ⟨source, same_source, source_owned⟩ := roles.walk_placed known (length_vaPath _).le
      parent_reached
    obtain rfl := pageAt_injective same_source
    rw [treeRole, if_neg (by simp)] at source_owned
    have source_ne : original ≠ index := by
      rintro rfl
      rw [fork.fresh.2] at source_owned
      cases source_owned
    have source_apart := kernelAdr_apart source_ne
    have task_apart := roles.task_apart known (roles.inside source_owned)
      (by rw [source_owned]; simp)
    rw [← current] at task_apart
    rw [forkEnd_pages fork filled known current placed_owned (by simp) _ (by omega) (by omega),
      contents offset inside]
    simp only [pageSize] at task_apart inside source_apart
    exact userForkStart_outside fork (by simp only [pageSize]; omega) (by omega)
  · intro path target long reached
    rw [child_walk (by omega)] at reached
    obtain ⟨number, bound, same⟩ := copies.only long (by rw [withTask_new]; exact reached)
    rw [current_task, same_virtual bound] at same
    exact ⟨number, bound, same⟩
  · intro path short
    have present := copies.tables short
    rw [withTask_new, current_task, same_tables] at present
    rw [child_walk (by omega), present]
  · rw [field_same (by decide) (by decide), uses]
  · rw [field_same (by decide) (by decide), tables]
  · intro offset inside
    exact userFork_regs fork known current copies inside
  · have left := copies.left
    have begun_left := fork.left
    rw [current_task, same_tables] at left
    have start_left : freeCount (userForkStart kernel index) =
        freeCount (takePage (preemptDisable kernel).mm index) :=
      freeCount_congr (Mm.pageBitmap_setMemory _ _)
    have end_left : freeCount (forkEnd image kernel mm (kernelAdr index) cloneFlags).mm =
        freeCount mm := by
      rw [mm_forkEnd]
      exact freeCount_congr (Mm.pageBitmap_setMemory _ _)
    rw [userForkPages]
    omega

theorem kernelFork_user (roles : PageRoles image kernel.mm kernel.taskArray kernel.nTasks owner)
    (known : parent < kernel.nTasks) (current : kernel.current = kernel.taskArray parent)
    (room : kernel.nTasks < nTasksMax)
    (ttbr0 : kernel.ttbr0 = Task.pagedirectory.get kernel.memory kernel.current)
    (user : cloneFlags &&& taskFlagsKernelThread = 0) (small : cloneFlags < 256 ^ 8)
    (records : RecordsMapped kernel.memory kernel.current)
    (enough : userForkPages kernel.memory kernel.current ≤ freeCount kernel.mm) :
    ∃ index after grown,
      kernelFork image kernel cloneFlags fn args = some (after, kernel.nTasks) ∧
      Forked image kernel owner index after grown ∧
      ForkedUser image kernel owner index cloneFlags after := by
  rw [userForkPages] at enough
  obtain ⟨index, inside, free, call⟩ :=
    getNextFreePage_preemptDisable (by omega : 0 < freeCount kernel.mm)
  have fork := forkBegun roles known current inside free
  obtain ⟨start_roles, start_walks⟩ := userForkStart_roles fork
  have few := records.few
  simp only [maxProcessPages] at few
  have same_count := @userForkStart_current _ _ _ _ _ fork known current Task.userpagesCount
    (by decide) (by decide)
  have same_tables := userForkStart_tables fork known current
    (by omega : Task.userpagesCount.get kernel.memory kernel.current ≤ 128)
  have left := fork.left
  have start_left : freeCount (userForkStart kernel index) =
      freeCount (takePage (preemptDisable kernel).mm index) :=
    freeCount_congr (Mm.pageBitmap_setMemory _ _)
  have current_task : withTask kernel index parent = kernel.current := by
    rw [withTask_old kernel index known, current]
  have start := @PagesCopied.refl _ _ _ parent _ _ start_roles
    (by rw [withTask_new]; exact userForkStart_blank fork (by decide))
    (by rw [withTask_new]; exact userForkStart_blank fork (by decide))
    (by rw [withTask_new]; exact userForkStart_blank fork (by decide))
  have start_records := userForkStart_records fork known current records
  rw [← current_task] at start_records same_count same_tables
  obtain ⟨mm, grown, run, copies⟩ := @copyPages_spec _ _ _ _ _ _ _ _ _ (2 ^ 31) start start_records
    known (by rw [same_count, same_tables, current_task]; omega) (by omega)
    (by rw [same_count, current_task]; omega)
  rw [same_count, current_task] at copies
  have directory := @userForkStart_current _ _ _ _ _ fork known current Task.pagedirectory
    (by decide) (by decide)
  rw [current_task, withTask_new, directory, ← ttbr0] at run
  have filled := userFork_filled fork copies.taken
  refine ⟨index, _, grown, ?_, forkEnd_forked fork filled known current room,
    userFork_copied roles fork known current small (by omega) copies⟩
  exact kernelFork_eq inside call (forkContext_user user run)

end Fork

/-! ## The copied address space -/

/-- The list of user pages of a task records exactly the pages that are mapped. -/
structure RecordsExactly (memory : Memory) (task : Nat) : Prop where
  few : Task.userpagesCount.get memory task ≤ maxProcessPages
  aligned : ∀ {number}, number < Task.userpagesCount.get memory task →
    recordedVirtual memory task number % pageSize = 0
  user : ∀ {number}, number < Task.userpagesCount.get memory task →
    recordedVirtual memory task number < 2 ^ 48
  mapped : ∀ {number}, number < Task.userpagesCount.get memory task →
    directoryWalk memory task (recordedVirtual memory task number) =
      some (0, (Task.userpagePhysical number).get memory task ||| mmuPteFlags)
  complete : ∀ {virtAdr leaf}, directoryWalk memory task virtAdr = some leaf →
    ∃ number, number < Task.userpagesCount.get memory task ∧
      SamePage virtAdr (recordedVirtual memory task number)

theorem pageAt_or_injective {left right flags : Nat} (small : flags < 2 ^ 12)
    (same : pageAt left ||| flags = pageAt right ||| flags) : left = right := by
  rw [pageAt_or left small, pageAt_or right small] at same
  exact pageAt_injective (Nat.add_right_cancel same)

section AddressSpace

variable {image : Image} {mm : Mm} {tasks : Nat → Nat} {kernel after : Kernel}
  {owner grown : Nat → Option PageRole} {count pid parent index cloneFlags : Nat}

theorem RecordsExactly.recordsMapped
    (roles : PageRoles image kernel.mm kernel.taskArray kernel.nTasks owner)
    (known : parent < kernel.nTasks)
    (records : RecordsExactly kernel.memory (kernel.taskArray parent)) :
    RecordsMapped kernel.memory (kernel.taskArray parent) where
  few := records.few
  aligned bound := records.aligned bound
  user bound := records.user bound
  mapped bound := by
    have mapped := records.mapped bound
    rw [Kernel.memory, roles.directoryWalk_eq known] at mapped
    obtain ⟨page, reached, _⟩ := Option.map_eq_some_iff.mp mapped
    rw [Kernel.memory, reached, Option.isSome_some]

/-- A virtual page that is mapped is a recorded one. -/
theorem RecordsExactly.recorded
    (roles : PageRoles image kernel.mm kernel.taskArray kernel.nTasks owner)
    (known : parent < kernel.nTasks)
    (records : RecordsExactly kernel.memory (kernel.taskArray parent)) {virtAdr : Nat}
    (present : (walk kernel.memory (kernel.taskArray parent) (vaPath virtAdr)).isSome) :
    ∃ number, number < Task.userpagesCount.get kernel.memory (kernel.taskArray parent) ∧
      vaPath virtAdr =
        vaPath (recordedVirtual kernel.memory (kernel.taskArray parent) number) := by
  obtain ⟨page, reached⟩ := Option.isSome_iff_exists.mp present
  have walked := roles.directoryWalk_eq known virtAdr
  rw [← Kernel.memory, reached, Option.map_some] at walked
  obtain ⟨number, bound, same⟩ := records.complete walked
  exact ⟨number, bound, (vaPath_eq_iff _ _).mpr same⟩

/-- What the directory of a task leads to is a user page of the task. -/
theorem PageRoles.leaf_owned (roles : PageRoles image mm tasks count owner) (known : pid < count)
    {virtAdr : Nat} {leaf : Nat × Nat}
    (reached : directoryWalk mm.memory (tasks pid) virtAdr = some leaf) :
    ∃ page, leaf = (0, pageAt page ||| mmuPteFlags) ∧
      owner page = some (.user pid (vaPath virtAdr)) := by
  rw [roles.directoryWalk_eq known] at reached
  obtain ⟨_, walked, rfl⟩ := Option.map_eq_some_iff.mp reached
  obtain ⟨page, rfl, owned⟩ := roles.walk_placed known (length_vaPath virtAdr).le walked
  rw [treeRole, if_neg (by simp)] at owned
  exact ⟨page, rfl, owned⟩

/-- The directory of a task leads to a page from one virtual page only. -/
theorem PageRoles.samePage_of_leaf (roles : PageRoles image mm tasks count owner)
    (known : pid < count) {left right : Nat} {leaf : Nat × Nat}
    (left_reached : directoryWalk mm.memory (tasks pid) left = some leaf)
    (right_reached : directoryWalk mm.memory (tasks pid) right = some leaf) :
    SamePage left right := by
  obtain ⟨left_page, rfl, left_owned⟩ := roles.leaf_owned known left_reached
  obtain ⟨right_page, same, right_owned⟩ := roles.leaf_owned known right_reached
  obtain rfl := pageAt_or_injective (by decide) (Prod.mk.inj same).2
  rw [left_owned, Option.some.injEq, PageRole.user.injEq] at right_owned
  exact (vaPath_eq_iff _ _).mp right_owned.2

/-- A fork keeps the mappings of the other tasks. -/
theorem Forked.directoryWalk_old (forked : Forked image kernel owner index after grown)
    (roles : PageRoles image kernel.mm kernel.taskArray kernel.nTasks owner)
    (known : pid < kernel.nTasks) (virtAdr : Nat) :
    directoryWalk after.memory (kernel.taskArray pid) virtAdr =
      directoryWalk kernel.memory (kernel.taskArray pid) virtAdr := by
  have walked := @PageRoles.directoryWalk_eq _ _ _ _ _ forked.roles pid
    (by rw [forked.nTasks]; omega) virtAdr
  rw [forked.taskArray, withTask_old kernel index known] at walked
  calc directoryWalk after.memory (kernel.taskArray pid) virtAdr
      = (walk after.memory (kernel.taskArray pid) (vaPath virtAdr)).map
          fun page => (0, page ||| mmuPteFlags) := walked
    _ = (walk kernel.memory (kernel.taskArray pid) (vaPath virtAdr)).map
          fun page => (0, page ||| mmuPteFlags) := by
        rw [forked.walks known (length_vaPath virtAdr)]
    _ = directoryWalk kernel.memory (kernel.taskArray pid) virtAdr :=
        (roles.directoryWalk_eq known virtAdr).symm

/-- A fork keeps the contents of the user pages of the other tasks. -/
theorem Forked.contents_old (forked : Forked image kernel owner index after grown)
    (roles : PageRoles image kernel.mm kernel.taskArray kernel.nTasks owner)
    (known : pid < kernel.nTasks) {virtAdr original offset : Nat}
    (reached : directoryWalk kernel.memory (kernel.taskArray pid) virtAdr =
      some (0, pageAt original ||| mmuPteFlags)) (inside : offset < pageSize) :
    after.memory (kernelAdr original + offset) = kernel.memory (kernelAdr original + offset) := by
  obtain ⟨page, same, owned⟩ := roles.leaf_owned known reached
  obtain rfl := pageAt_or_injective (by decide) (Prod.mk.inj same).2
  exact forked.pages owned (by simp) (by simp) _ (by omega) (by omega)

/-- The child has the virtual pages of its parent. -/
theorem ForkedUser.present_iff (copied : ForkedUser image kernel owner index cloneFlags after)
    (roles : PageRoles image kernel.mm kernel.taskArray kernel.nTasks owner)
    (known : parent < kernel.nTasks) (current : kernel.current = kernel.taskArray parent)
    (records : RecordsExactly kernel.memory kernel.current) (virtAdr : Nat) :
    (walk after.memory (kernelAdr index) (vaPath virtAdr)).isSome ↔
      (walk kernel.memory kernel.current (vaPath virtAdr)).isSome := by
  rw [current] at records
  constructor
  · intro present
    obtain ⟨page, reached⟩ := Option.isSome_iff_exists.mp present
    obtain ⟨number, bound, same⟩ := copied.only (length_vaPath _) reached
    rw [current] at same bound ⊢
    rw [same]
    exact (records.recordsMapped roles known).mapped bound
  · intro present
    rw [current] at present
    obtain ⟨number, bound, same⟩ := records.recorded roles known present
    rw [← current] at bound same
    obtain ⟨frame, original, reached, _⟩ := copied.copies bound
    rw [same, reached, Option.isSome_some]

/-- A page of the child was free before and has the contents of the page of the parent. -/
theorem ForkedUser.copy (copied : ForkedUser image kernel owner index cloneFlags after)
    (forked : Forked image kernel owner index after grown)
    (roles : PageRoles image kernel.mm kernel.taskArray kernel.nTasks owner)
    {virtAdr page : Nat}
    (reached : walk after.memory (kernelAdr index) (vaPath virtAdr) = some page) :
    ∃ frame original, page = pageAt frame ∧
      walk kernel.memory kernel.current (vaPath virtAdr) = some (pageAt original) ∧
      frame < mmNumOfPages ∧ IsFree kernel.mm frame ∧ ∀ offset, offset < pageSize →
        after.memory (kernelAdr frame + offset) = kernel.memory (kernelAdr original + offset) := by
  obtain ⟨number, bound, same⟩ := copied.only (length_vaPath _) reached
  obtain ⟨frame, original, copy_reached, unused, original_reached, contents⟩ :=
    copied.copies bound
  rw [← same] at copy_reached original_reached
  obtain rfl := Option.some.inj (reached.symm.trans copy_reached)
  have inside : frame < mmNumOfPages := by
    have known : kernel.nTasks < after.nTasks := by
      rw [forked.nTasks]
      omega
    obtain ⟨placed, same_page, owned⟩ := forked.roles.walk_placed known (length_vaPath virtAdr).le
      (by rw [forked.taskArray, withTask_new]; exact reached)
    rw [pageAt_injective same_page]
    exact forked.roles.inside owned
  exact ⟨frame, original, rfl, original_reached, inside, (roles.unused inside).mp unused, contents⟩

/-- A user fork gives the child the address space of its parent: the same virtual pages, each in
a page of its own that was free before, with the parent's contents at the time of the fork.  The
parent keeps its mappings and contents, and the child has its saved registers with `x0` zero. -/
theorem kernelFork_copies_address_space
    (roles : PageRoles image kernel.mm kernel.taskArray kernel.nTasks owner)
    (known : parent < kernel.nTasks) (current : kernel.current = kernel.taskArray parent)
    (room : kernel.nTasks < nTasksMax)
    (ttbr0 : kernel.ttbr0 = Task.pagedirectory.get kernel.memory kernel.current)
    (records : RecordsExactly kernel.memory kernel.current)
    (enough : userForkPages kernel.memory kernel.current ≤ freeCount kernel.mm) :
    ∃ after, kernelFork image kernel 0 0 0 = some (after, kernel.nTasks) ∧
      (∀ virtAdr, (directoryWalk after.memory (after.taskArray kernel.nTasks) virtAdr).isSome ↔
        (directoryWalk kernel.memory kernel.current virtAdr).isSome) ∧
      (∀ virtAdr leaf,
        directoryWalk after.memory (after.taskArray kernel.nTasks) virtAdr = some leaf →
          ∃ frame original, leaf = (0, pageAt frame ||| mmuPteFlags) ∧
            directoryWalk kernel.memory kernel.current virtAdr =
              some (0, pageAt original ||| mmuPteFlags) ∧
            frame < mmNumOfPages ∧ IsFree kernel.mm frame ∧
            ∀ offset, offset < pageSize →
              after.memory (kernelAdr frame + offset) =
                kernel.memory (kernelAdr original + offset)) ∧
      (∀ left right leaf,
        directoryWalk after.memory (after.taskArray kernel.nTasks) left = some leaf →
          directoryWalk after.memory (after.taskArray kernel.nTasks) right = some leaf →
            SamePage left right) ∧
      (∀ virtAdr, directoryWalk after.memory kernel.current virtAdr =
        directoryWalk kernel.memory kernel.current virtAdr) ∧
      (∀ virtAdr original, directoryWalk kernel.memory kernel.current virtAdr =
          some (0, pageAt original ||| mmuPteFlags) → ∀ offset, offset < pageSize →
            after.memory (kernelAdr original + offset) =
              kernel.memory (kernelAdr original + offset)) ∧
      ∀ offset, offset < sizeofPtRegs →
        after.memory (getTaskPtRegs (after.taskArray kernel.nTasks) + offset) =
          if offset < 8 then 0 else kernel.memory (getTaskPtRegs kernel.current + offset) := by
  have mapped : RecordsMapped kernel.memory kernel.current := by
    rw [current] at records ⊢
    exact records.recordsMapped roles known
  obtain ⟨index, after, grown, call, forked, copied⟩ := @kernelFork_user _ _ _ _ 0 0 0 roles known
    current room ttbr0 (by decide) (by decide) mapped enough
  have child : after.taskArray kernel.nTasks = kernelAdr index := by
    rw [forked.taskArray, withTask_new]
  have child_known : kernel.nTasks < after.nTasks := by
    rw [forked.nTasks]
    omega
  have child_walk : ∀ virtAdr, directoryWalk after.memory (kernelAdr index) virtAdr =
      (walk after.memory (kernelAdr index) (vaPath virtAdr)).map
        fun page => (0, page ||| mmuPteFlags) := by
    intro virtAdr
    rw [← child]
    exact forked.roles.directoryWalk_eq child_known virtAdr
  have parent_walk : ∀ virtAdr, directoryWalk kernel.memory kernel.current virtAdr =
      (walk kernel.memory kernel.current (vaPath virtAdr)).map
        fun page => (0, page ||| mmuPteFlags) := by
    intro virtAdr
    rw [current]
    exact roles.directoryWalk_eq known virtAdr
  refine ⟨after, call, ?_, ?_, ?_, ?_, ?_, ?_⟩
  · intro virtAdr
    rw [child, child_walk, parent_walk, Option.isSome_map, Option.isSome_map]
    exact copied.present_iff roles known current records virtAdr
  · intro virtAdr leaf reached
    rw [child, child_walk] at reached
    obtain ⟨page, walked, rfl⟩ := Option.map_eq_some_iff.mp reached
    obtain ⟨frame, original, rfl, original_reached, inside, free, contents⟩ :=
      copied.copy forked roles walked
    refine ⟨frame, original, rfl, ?_, inside, free, contents⟩
    rw [parent_walk, original_reached]
    rfl
  · intro left right leaf left_reached right_reached
    exact forked.roles.samePage_of_leaf child_known left_reached right_reached
  · intro virtAdr
    rw [current]
    exact forked.directoryWalk_old roles known virtAdr
  · intro virtAdr original reached offset inside
    rw [current] at reached
    exact forked.contents_old roles known reached inside
  · intro offset inside
    have page := kernelAdr_range forked.fresh.1
    have range := roles.task_range known
    rw [← current] at range
    rw [child, getTaskPtRegs_eq page.2, getTaskPtRegs_eq range.2]
    exact copied.regs offset inside

end AddressSpace

/-- The first task running with one user page at address zero. -/
def onePageKernel (mm : Mm) : Kernel where
  mm := mm
  taskArray := fun _ => smallImage.initTask
  nTasks := 1
  current := smallImage.initTask
  ttbr0 := Task.pagedirectory.get mm.memory smallImage.initTask
  firstFree := 0
  timerArr := fun _ => ⟨0, 0⟩
  currentTick := 0
  registers := fun _ => 0

theorem onePageKernel_recorded :
    ∃ mm owner, PageRoles smallImage mm (fun _ => smallImage.initTask) 1 owner ∧
      RecordsExactly mm.memory smallImage.initTask ∧
      Task.userpagesCount.get mm.memory smallImage.initTask = 1 ∧
      (directoryWalk mm.memory smallImage.initTask 0x123).isSome ∧
      userForkPages mm.memory smallImage.initTask ≤ freeCount mm := by
  have enough : 16 ≤ freeCount blankMm := by
    rw [freeCount_blankMm]
    decide
  have needed : tablesNeeded blankMm.memory smallImage.initTask 0 = 4 := by
    rw [tablesNeeded, if_pos (blank_field _ _)]
  obtain ⟨frame, mm, grown, _, added⟩ := @allocateUserPage_spec _ _ _ 0 0 _ _
    emptyTasks_blankMm.roles (by decide) (by rw [needed]; omega) (by rw [blank_field]; decide)
    (by rw [blank_field]; decide)
  have uses := added.userpages
  have left := added.left
  have virtual := added.virtual (by decide)
  have physical := added.physical
  rw [blank_field] at uses virtual physical
  rw [Nat.zero_add] at uses
  rw [needed] at left
  have tables := card_recordedTables_le mm.memory smallImage.initTask 1
  have walks : ∀ virtAdr, directoryWalk mm.memory smallImage.initTask virtAdr =
      if vaPath virtAdr = vaPath 0 then some (0, pageAt frame ||| mmuPteFlags) else none := by
    intro virtAdr
    have hardware := @PageRoles.directoryWalk_eq _ _ _ _ _ added.roles 0 (by decide) virtAdr
    rw [@PageAdded.walks _ _ _ _ _ _ _ _ _ _ added 0 _ (by decide) (length_vaPath _)] at hardware
    rw [hardware]
    by_cases here : vaPath virtAdr = vaPath 0
    · rw [if_pos ⟨rfl, here⟩, if_pos here]
      rfl
    · rw [if_neg (fun both => here both.2), if_neg here, walk, if_pos (blank_field _ _)]
      rfl
  refine ⟨mm, grown, added.roles, ?_, uses, ?_, ?_⟩
  · constructor
    · rw [uses]
      decide
    · intro number bound
      obtain rfl : number = 0 := by omega
      rw [recordedVirtual, virtual]
      decide
    · intro number bound
      obtain rfl : number = 0 := by omega
      rw [recordedVirtual, virtual]
      decide
    · intro number bound
      obtain rfl : number = 0 := by omega
      rw [recordedVirtual, virtual, physical, walks, if_pos rfl]
    · intro virtAdr leaf reached
      rw [walks] at reached
      split_ifs at reached with here
      refine ⟨0, by omega, ?_⟩
      rw [recordedVirtual, virtual]
      exact (vaPath_eq_iff _ _).mp here
  · rw [walks, if_pos (by decide), Option.isSome_some]
  · rw [userForkPages, uses]
    omega

/-- The first task with one user page forks. -/
theorem kernelFork_copies_one_page :
    ∃ mm after, Task.userpagesCount.get mm.memory smallImage.initTask = 1 ∧
      kernelFork smallImage (onePageKernel mm) 0 0 0 = some (after, 1) ∧
      (directoryWalk after.memory (after.taskArray 1) 0x123).isSome := by
  obtain ⟨mm, owner, roles, records, uses, present, enough⟩ := onePageKernel_recorded
  obtain ⟨after, call, same, _⟩ := @kernelFork_copies_address_space _ (onePageKernel mm) _ 0
    roles Nat.zero_lt_one rfl (show 1 < nTasksMax by decide) rfl records enough
  exact ⟨mm, after, uses, call, (same 0x123).mpr present⟩

end PellOs

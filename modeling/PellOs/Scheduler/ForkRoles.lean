import PellOs.Scheduler.UserFork

/-!
# Forks of any kind

A fork that finds all its pages keeps the roles of the pages, whatever kind of thread it makes and
whatever the copy of the user pages reads.
-/

namespace PellOs

/-- Pages that a fork takes. -/
def forkPages (kernel : Kernel) (cloneFlags : Nat) : Nat :=
  if cloneFlags &&& taskFlagsKernelThread ≠ 0 then 1
  else userForkPages kernel.memory kernel.current

/-- User pages of the new task. -/
def forkUsers (kernel : Kernel) (cloneFlags : Nat) : Nat :=
  if cloneFlags &&& taskFlagsKernelThread ≠ 0 then 0
  else Task.userpagesCount.get kernel.memory kernel.current

/-- Table pages of the new task. -/
def forkTables (kernel : Kernel) (cloneFlags : Nat) : Nat :=
  if cloneFlags &&& taskFlagsKernelThread ≠ 0 then 0
  else (recordedTables kernel.memory kernel.current
    (Task.userpagesCount.get kernel.memory kernel.current)).card

theorem one_le_forkPages (kernel : Kernel) (cloneFlags : Nat) :
    1 ≤ forkPages kernel cloneFlags := by
  rw [forkPages, userForkPages]
  split_ifs <;> omega

section Context

variable {kernel middle : Kernel} {begun : Mm} {newTask cloneFlags fn args : Nat}

/-- Memory of a new kernel thread. -/
def threadMemory (memory : Memory) (newTask fn args : Nat) : Memory :=
  Task.x20.set (Task.x19.set memory newTask fn) newTask args

theorem forkContext_thread (thread : cloneFlags &&& taskFlagsKernelThread ≠ 0) :
    forkContext { kernel with mm := begun } newTask cloneFlags fn args =
      some { kernel with mm := begun.setMemory (threadMemory begun.memory newTask fn args) } := by
  unfold forkContext
  rw [if_pos thread]
  rfl

theorem forkContext_copies (user : ¬cloneFlags &&& taskFlagsKernelThread ≠ 0)
    (result : forkContext { kernel with mm := begun } newTask cloneFlags fn args = some middle) :
    ∃ mm status, middle = { kernel with mm } ∧
      copyPages kernel.current newTask kernel.ttbr0 (2 ^ 31) 0
        (begun.setMemory (ptRegsMemory begun.memory kernel.current newTask)) =
          some (mm, status) := by
  unfold forkContext at result
  rw [if_neg user] at result
  unfold copyVirtualMemory at result
  obtain ⟨⟨copied, status⟩, call, rfl⟩ := Option.map_eq_some_iff.mp result
  obtain ⟨⟨mm, code⟩, run, same⟩ := Option.map_eq_some_iff.mp call
  obtain ⟨rfl, rfl⟩ := Prod.mk.inj same
  exact ⟨mm, code, rfl, run⟩

end Context

section Fork

variable {image : Image} {kernel after : Kernel} {owner : Nat → Option PageRole}
  {parent index cloneFlags fn args pid : Nat} {begun : Mm}

/-- The last part of a fork follows the part that depends on the kind of thread. -/
theorem kernelFork_result (inside : index < mmNumOfPages)
    (call : getNextFreePage (preemptDisable kernel).mm = (begun, pageAt index))
    (result : kernelFork image kernel cloneFlags fn args = some (after, pid)) :
    ∃ mm, forkContext { kernel with mm := begun } (kernelAdr index) cloneFlags fn args =
        some { kernel with mm } ∧
      after = forkEnd image kernel mm (kernelAdr index) cloneFlags ∧ pid = kernel.nTasks := by
  have finish {mm : Mm} (context : forkContext { kernel with mm := begun } (kernelAdr index)
      cloneFlags fn args = some { kernel with mm }) :
      after = forkEnd image kernel mm (kernelAdr index) cloneFlags ∧ pid = kernel.nTasks := by
    rw [kernelFork_eq inside call context] at result
    obtain ⟨rfl, rfl⟩ := Prod.mk.inj (Option.some.inj result)
    exact ⟨rfl, rfl⟩
  by_cases thread : cloneFlags &&& taskFlagsKernelThread ≠ 0
  · exact ⟨_, forkContext_thread thread, finish (forkContext_thread thread)⟩
  · cases context : forkContext { kernel with mm := begun }
      (kernelAdr index) cloneFlags fn args with
    | none =>
        rw [kernelFork_none inside call context] at result
        cases result
    | some middle =>
        obtain ⟨mm, -, rfl, -⟩ := forkContext_copies thread context
        exact ⟨mm, rfl, finish context⟩

theorem kernelFork_nTasks (result : kernelFork image kernel cloneFlags fn args = some (after, pid))
    (left : 0 < freeCount kernel.mm) : after.nTasks = (kernel.nTasks + 1) % 2 ^ 8 := by
  obtain ⟨index, inside, free, call⟩ := getNextFreePage_preemptDisable left
  obtain ⟨mm, -, rfl, -⟩ := kernelFork_result inside call result
  rw [nTasks_forkEnd]

/-! ## Kernel threads -/

theorem threadMemory_outside (memory : Memory) {newTask address : Nat}
    (fits : newTask + 2 * pageSize ≤ wordSize)
    (off : address < newTask ∨ newTask + 16 ≤ address) :
    threadMemory memory newTask fn args address = memory address := by
  simp only [pageSize] at fits
  rw [threadMemory, Field.set_outside (by simp only [Task.x20, Task.cpuContext]; omega)
      (by simp only [Task.x20, Task.cpuContext]; omega),
    Field.set_outside (by simp only [Task.x19, Task.cpuContext]; omega)
      (by simp only [Task.x19, Task.cpuContext]; omega)]

/-- A kernel thread starts with the function and its argument in `x19` and `x20`. -/
theorem forkEnd_threadMemory (image : Image) {kernel : Kernel} {mm : Mm} {memory : Memory}
    {newTask : Nat} (cloneFlags : Nat) (same : mm.memory = threadMemory memory newTask fn args)
    (fits : newTask + 2 * pageSize ≤ wordSize)
    (current_fits : kernel.current + 2 * pageSize ≤ wordSize)
    (apart : kernel.current + pageSize ≤ newTask ∨ newTask + pageSize ≤ kernel.current) :
    Task.x19.get (forkEnd image kernel mm newTask cloneFlags).memory newTask = fn % wordSize ∧
      Task.x20.get (forkEnd image kernel mm newTask cloneFlags).memory newTask =
        args % wordSize := by
  have kept : ∀ {field : Field}, field.offset + field.width ≤ 16 →
      field.get (forkEnd image kernel mm newTask cloneFlags).memory newTask =
        field.get (threadMemory memory newTask fn args) newTask := by
    intro field low
    have inside : field.InPage := low.trans (by decide)
    rw [forkEnd_get image mm cloneFlags fits current_fits apart inside, ← same]
    refine Field.get_congr (inside.fits fits) fun address lower upper => ?_
    exact forkFields_outside image mm.memory fits (by omega) (by omega)
  rw [kept (by decide), kept (by decide), threadMemory,
    Field.get_set_apart fits (by decide) (by decide) (by decide)]
  exact ⟨Field.get_set_word fits (by decide) rfl, Field.get_set_word fits (by decide) rfl⟩

theorem threadFork_filled (fork : ForkBegun image kernel owner index begun) :
    ForkFilled image kernel owner index begun
      (begun.setMemory (threadMemory begun.memory (kernelAdr index) fn args))
      (Function.update owner index (some (.taskStruct kernel.nTasks))) := by
  have page := kernelAdr_range fork.fresh.1
  have confined : ∀ address, address < kernelAdr index ∨ kernelAdr index + 16 ≤ address →
      threadMemory begun.memory (kernelAdr index) fn args address = begun.memory address :=
    fun address off => threadMemory_outside _ page.2 off
  obtain ⟨roles, walks⟩ := @PageRoles.edit_task _ _ _ _ _ fork.roles
    (threadMemory begun.memory (kernelAdr index) fn args) kernel.nTasks (by omega) (by
      rw [withTask_new]
      intro address off
      simp only [pageSize] at off
      exact confined address (by omega))
  have differ : ∀ {other role}, owner other = some role → other ≠ index := by
    rintro other role owned rfl
    rw [fork.fresh.2] at owned
    cases owned
  refine ⟨roles, ?_, Function.update_self .., ?_, ?_, ?_, ?_⟩
  · intro other role owned
    rw [Function.update_of_ne (differ owned), owned]
  · intro other role owned
    by_cases same : other = index
    · exact Or.inr ⟨same ▸ fork.fresh.2, Or.inl same⟩
    · rw [Function.update_of_ne same] at owned
      exact Or.inl owned
  · intro pid known address lower upper
    have apart := fork.roles.tasks_apart (by omega : pid < _) (Nat.lt_succ_self _)
      (Nat.ne_of_lt known)
    rw [withTask_old kernel index known, withTask_new] at apart
    simp only [pageSize] at apart upper
    exact confined address (by omega)
  · intro other role owned _ _ address lower upper
    have apart := kernelAdr_apart (differ owned)
    simp only [pageSize] at apart upper
    exact confined address (by omega)
  · intro pid path known long
    have same := @walks pid path (by omega) (by omega)
    rwa [withTask_old kernel index known] at same

/-! ## Any fork -/

/-- What a fork leaves when it finds the pages it takes: a new task whose page records are those of
the current task for a user process, and empty for a kernel thread. -/
structure ForkMade (image : Image) (kernel : Kernel) (owner : Nat → Option PageRole)
    (index cloneFlags : Nat) (after : Kernel) (grown : Nat → Option PageRole) : Prop where
  forked : Forked image kernel owner index after grown
  started : cloneFlags < 256 ^ 8 → TaskStarted image after.memory (kernelAdr index) cloneFlags
    (Task.priority.get kernel.memory kernel.current)
  preempt : Task.preemptCount.get after.memory kernel.current =
    Task.preemptCount.get kernel.memory kernel.current
  userpages : Task.userpagesCount.get after.memory (kernelAdr index) = forkUsers kernel cloneFlags
  kernelpages : Task.kernelpagesCount.get after.memory (kernelAdr index) =
    forkTables kernel cloneFlags
  left : freeCount after.mm + forkPages kernel cloneFlags = freeCount kernel.mm

theorem freeCount_forkEnd (image : Image) (kernel : Kernel) (mm : Mm) (newTask cloneFlags : Nat) :
    freeCount (forkEnd image kernel mm newTask cloneFlags).mm = freeCount mm := by
  rw [mm_forkEnd]
  exact freeCount_congr (Mm.pageBitmap_setMemory _ _)

/-- A fork that finds the pages it takes and does not fault makes a task. -/
theorem kernelFork_made (roles : PageRoles image kernel.mm kernel.taskArray kernel.nTasks owner)
    (known : parent < kernel.nTasks) (current : kernel.current = kernel.taskArray parent)
    (room : kernel.nTasks < nTasksMax)
    (few : Task.userpagesCount.get kernel.memory kernel.current ≤ maxProcessPages)
    (enough : forkPages kernel cloneFlags ≤ freeCount kernel.mm)
    (result : kernelFork image kernel cloneFlags fn args = some (after, pid)) :
    ∃ index grown, pid = kernel.nTasks ∧
      ForkMade image kernel owner index cloneFlags after grown := by
  have some_page := one_le_forkPages kernel cloneFlags
  obtain ⟨index, inside, free, call⟩ :=
    getNextFreePage_preemptDisable (by omega : 0 < freeCount kernel.mm)
  have fork := forkBegun roles known current inside free
  have begun_left := fork.left
  have page := kernelAdr_range inside
  obtain ⟨mm, context, rfl, rfl⟩ := kernelFork_result inside call result
  by_cases thread : cloneFlags &&& taskFlagsKernelThread ≠ 0
  · rw [forkContext_thread thread] at context
    obtain rfl := congrArg Kernel.mm (Option.some.inj context)
    have filled := @threadFork_filled _ _ _ _ fn args _ fork
    have blank : ∀ {field : Field}, 152 ≤ field.offset → field.offset + field.width ≤ 560 →
        field.get (forkEnd image kernel ((takePage (preemptDisable kernel).mm index).setMemory
          (threadMemory (takePage (preemptDisable kernel).mm index).memory (kernelAdr index) fn
            args)) (kernelAdr index) cloneFlags).memory (kernelAdr index) = 0 := by
      intro field low high
      rw [forkEnd_field fork filled known current low high, Mm.memory_setMemory,
        Field.get_eq (by simp only [pageSize] at page; omega)]
      apply Memory.read_zero
      intro address lower upper
      rw [threadMemory_outside _ page.2 (by omega)]
      exact fork.zero address (by omega) (by simp only [pageSize]; omega)
    refine ⟨index, _, rfl, forkEnd_forked fork filled known current room,
      fun small => forkEnd_started fork filled known current small,
      (forkEnd_memory fork filled known current).2, ?_, ?_, ?_⟩
    · rw [forkUsers, if_pos thread]
      exact blank (by decide) (by decide)
    · rw [forkTables, if_pos thread]
      exact blank (by decide) (by decide)
    · rw [freeCount_forkEnd, freeCount_congr (Mm.pageBitmap_setMemory _ _), forkPages,
        if_pos thread, begun_left]
  · obtain ⟨copied, status, same, run⟩ := forkContext_copies thread context
    obtain rfl := congrArg Kernel.mm same
    simp only [maxProcessPages] at few
    rw [forkPages, if_neg thread, userForkPages] at enough
    have current_task : withTask kernel index parent = kernel.current := by
      rw [withTask_old kernel index known, current]
    have same_count := @userForkStart_current _ _ _ _ _ fork known current Task.userpagesCount
      (by decide) (by decide)
    have same_tables := userForkStart_tables fork known current
      (by omega : Task.userpagesCount.get kernel.memory kernel.current ≤ 128)
    have start_left : freeCount (userForkStart kernel index) =
        freeCount (takePage (preemptDisable kernel).mm index) :=
      freeCount_congr (Mm.pageBitmap_setMemory _ _)
    have start := @PagesTaken.refl _ _ _ parent _ _ (userForkStart_roles fork).1
      (by rw [withTask_new]; exact userForkStart_blank fork (by decide))
      (by rw [withTask_new]; exact userForkStart_blank fork (by decide))
      (by rw [withTask_new]; exact userForkStart_blank fork (by decide))
    change copyPages kernel.current (kernelAdr index) kernel.ttbr0 (2 ^ 31) 0
      (userForkStart kernel index) = some (mm, status) at run
    rw [← current_task, ← withTask_new kernel index] at run
    rw [← current_task] at same_count same_tables
    obtain ⟨grown, taken⟩ := copyPages_taken start known
      (by rw [same_count, current_task]; simp only [maxProcessPages]; omega)
      (by rw [same_count, same_tables, current_task]; omega) (Nat.zero_le _) run
    rw [same_count, current_task] at taken
    have filled := userFork_filled fork taken
    have users := taken.userpages
    have tables := taken.kernelpages
    have left := taken.left
    rw [current_task] at same_tables
    rw [withTask_new] at users tables
    rw [current_task, same_tables] at tables left
    refine ⟨index, grown, rfl, forkEnd_forked fork filled known current room,
      fun small => forkEnd_started fork filled known current small,
      (forkEnd_memory fork filled known current).2, ?_, ?_, ?_⟩
    · rw [forkUsers, if_neg thread, forkEnd_field fork filled known current (by decide) (by decide)]
      exact users
    · rw [forkTables, if_neg thread, forkEnd_field fork filled known current (by decide)
        (by decide)]
      exact tables
    · rw [freeCount_forkEnd, forkPages, if_neg thread, userForkPages]
      omega

/-- A fork that finds no page at all returns with preemption disabled. -/
theorem kernelFork_full (none_left : freeCount kernel.mm = 0) :
    kernelFork image kernel cloneFlags fn args = some (preemptDisable kernel, 0xFF) := by
  have still_none : freeCount (preemptDisable kernel).mm = 0 := by
    rw [freeCount_congr (pageBitmap_preemptDisable kernel), none_left]
  have call : allocateKernelPage (preemptDisable kernel).mm = ((preemptDisable kernel).mm, 0) := by
    unfold allocateKernelPage
    rw [getNextFreePage_of_zero still_none]
    rfl
  unfold kernelFork
  simp only [call, if_true]

end Fork

end PellOs

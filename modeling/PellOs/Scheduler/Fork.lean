import PellOs.Scheduler.CopyMemory

/-!
# Fork

`kernel_fork` takes a page for the new task, fills it from the current task and, for a user
process, copies the address space.  The steps write to the new task, to pages that were free and
to `preempt_count` of the current task, which has its old value again at the end.
-/

namespace PellOs

namespace Kernel

@[simp] theorem memory_setMemory (kernel : Kernel) (memory : Memory) :
    (kernel.setMemory memory).memory = memory := rfl

@[simp] theorem mm_setMemory (kernel : Kernel) (memory : Memory) :
    (kernel.setMemory memory).mm = kernel.mm.setMemory memory := rfl

@[simp] theorem nTasks_setMemory (kernel : Kernel) (memory : Memory) :
    (kernel.setMemory memory).nTasks = kernel.nTasks := rfl

@[simp] theorem taskArray_setMemory (kernel : Kernel) (memory : Memory) :
    (kernel.setMemory memory).taskArray = kernel.taskArray := rfl

@[simp] theorem current_setMemory (kernel : Kernel) (memory : Memory) :
    (kernel.setMemory memory).current = kernel.current := rfl

@[simp] theorem ttbr0_setMemory (kernel : Kernel) (memory : Memory) :
    (kernel.setMemory memory).ttbr0 = kernel.ttbr0 := rfl

@[simp] theorem firstFree_setMemory (kernel : Kernel) (memory : Memory) :
    (kernel.setMemory memory).firstFree = kernel.firstFree := rfl

@[simp] theorem timerArr_setMemory (kernel : Kernel) (memory : Memory) :
    (kernel.setMemory memory).timerArr = kernel.timerArr := rfl

@[simp] theorem currentTick_setMemory (kernel : Kernel) (memory : Memory) :
    (kernel.setMemory memory).currentTick = kernel.currentTick := rfl

@[simp] theorem registers_setMemory (kernel : Kernel) (memory : Memory) :
    (kernel.setMemory memory).registers = kernel.registers := rfl

end Kernel

section Enroll

variable {image : Image} {mm : Mm} {tasks : Nat → Nat} {count : Nat}
  {owner : Nat → Option PageRole}

/-- A page with the role of the next task, without page directory, becomes that task. -/
theorem PageRoles.enroll (roles : PageRoles image mm tasks count owner) {index : Nat}
    (later : count ≠ 0) (owned : owner index = some (.taskStruct count))
    (directory : Task.pagedirectory.get mm.memory (kernelAdr index) = 0) :
    PageRoles image mm (Function.update tasks count (kernelAdr index)) (count + 1) owner where
  inside := roles.inside
  unused := roles.unused
  task := by
    intro pid known
    by_cases new : pid = count
    · subst new
      rw [Function.update_self]
      exact Or.inr ⟨later, index, rfl, owned⟩
    · rw [Function.update_of_ne new]
      exact roles.task (by omega)
  directory := by
    intro pid known
    by_cases new : pid = count
    · subst new
      rw [Function.update_self]
      exact Or.inl directory
    · rw [Function.update_of_ne new]
      exact roles.directory (by omega)
  depth := roles.depth
  entry := roles.entry

end Enroll

/-! ## Stores into a task -/

theorem Field.set_outside {memory : Memory} {base value address : Nat} {field : Field}
    (fits : base + field.offset < wordSize)
    (outside : address < base + field.offset ∨ base + field.offset + field.width ≤ address) :
    field.set memory base value address = memory address := by
  rw [Field.set_eq fits, Memory.write_outside _ outside]

theorem forkFields_outside (image : Image) (memory : Memory)
    {current newTask cloneFlags address : Nat}
    (fits : newTask + 2 * pageSize ≤ wordSize)
    (low : address < newTask + 88 ∨ newTask + 152 ≤ address)
    (high : address < newTask + 560 ∨ newTask + 576 ≤ address) :
    forkFields image memory current newTask cloneFlags address = memory address := by
  simp only [pageSize] at fits
  unfold forkFields
  rw [Field.set_outside (by simp only [Task.sp, Task.cpuContext]; omega)
      (by simp only [Task.sp, Task.cpuContext]; omega),
    Field.set_outside (by simp only [Task.pc, Task.cpuContext]; omega)
      (by simp only [Task.pc, Task.cpuContext]; omega),
    Field.set_outside (by simp only [Task.fdTableFile]; omega)
      (by simp only [Task.fdTableFile]; omega),
    Field.set_outside (by simp only [Task.fdTableBitmap]; omega)
      (by simp only [Task.fdTableBitmap]; omega),
    Field.set_outside (by simp only [Task.state]; omega) (by simp only [Task.state]; omega),
    Field.set_outside (by simp only [Task.counter]; omega) (by simp only [Task.counter]; omega),
    Field.set_outside (by simp only [Task.priority]; omega) (by simp only [Task.priority]; omega),
    Field.set_outside (by simp only [Task.flags]; omega) (by simp only [Task.flags]; omega),
    Field.set_outside (by simp only [Task.preemptCount]; omega)
      (by simp only [Task.preemptCount]; omega)]

/-- A field lies in the first page of a structure. -/
def Field.InPage (field : Field) : Prop := field.offset + field.width ≤ pageSize

/-- Two fields have no byte in common. -/
def Field.Apart (field other : Field) : Prop :=
  field.offset + field.width ≤ other.offset ∨ other.offset + other.width ≤ field.offset

instance (field : Field) : Decidable field.InPage := inferInstanceAs (Decidable (_ ≤ _))

instance (field other : Field) : Decidable (field.Apart other) :=
  inferInstanceAs (Decidable (_ ∨ _))

section Fields

variable {memory : Memory} {base value : Nat} {field other : Field}

theorem Field.InPage.fits (inside : field.InPage) (fits : base + 2 * pageSize ≤ wordSize) :
    base + field.offset < wordSize := by
  simp only [Field.InPage, pageSize] at inside fits
  omega

theorem Field.InPage.get_congr {after : Memory} (inside : field.InPage)
    (fits : base + 2 * pageSize ≤ wordSize) (agree : memory.AgreeOn after base pageSize) :
    field.get after base = field.get memory base :=
  Field.get_congr (inside.fits fits) (agree.mono (Nat.le_add_right _ _) (by
    simp only [Field.InPage] at inside
    omega))

theorem Field.get_set_apart (fits : base + 2 * pageSize ≤ wordSize) (inside : field.InPage)
    (other_inside : other.InPage) (apart : field.Apart other) :
    field.get (other.set memory base value) base = field.get memory base := by
  refine Field.get_congr (inside.fits fits) (Field.agreeOn_set (other_inside.fits fits) value ?_)
  simp only [Field.Apart] at apart
  omega

theorem Field.get_set (fits : base + 2 * pageSize ≤ wordSize) (inside : field.InPage)
    (small : value < 256 ^ field.width) : field.get (field.set memory base value) base = value :=
  Field.get_set_same (inside.fits fits) small

theorem Field.get_set_word (fits : base + 2 * pageSize ≤ wordSize) (inside : field.InPage)
    (wide : field.width = 8) : field.get (field.set memory base value) base = value % wordSize := by
  rw [Field.get_eq (inside.fits fits), Field.set_eq (inside.fits fits), Memory.read_write_same,
    wide, wordSize_eq_pow]

end Fields

/-- What `kernel_fork` has stored in a new task. -/
structure TaskStarted (image : Image) (memory : Memory) (task cloneFlags weight : Nat) : Prop where
  preemptCount : Task.preemptCount.get memory task = 1
  flags : Task.flags.get memory task = cloneFlags
  priority : Task.priority.get memory task = weight
  counter : Task.counter.get memory task = weight
  state : Task.state.get memory task = TaskState.running.toNat
  fdTableBitmap : Task.fdTableBitmap.get memory task = 0
  fdTableFile : Task.fdTableFile.get memory task = 0
  pc : Task.pc.get memory task = image.retFromFork % 256 ^ 8
  sp : Task.sp.get memory task = getTaskPtRegs task

theorem forkFields_started (image : Image) (memory : Memory) {current newTask cloneFlags : Nat}
    (fits : newTask + 2 * pageSize ≤ wordSize) (current_fits : current + 2 * pageSize ≤ wordSize)
    (apart : current + pageSize ≤ newTask ∨ newTask + pageSize ≤ current)
    (small : cloneFlags < 256 ^ 8) :
    TaskStarted image (forkFields image memory current newTask cloneFlags) newTask cloneFlags
      (Task.priority.get memory current) := by
  have same_priority : ∀ {field : Field} {value : Nat} {store : Memory}, field.InPage →
      Task.priority.get (field.set store newTask value) current =
        Task.priority.get store current := by
    intro field value store inside
    have field_fits := inside.fits fits
    simp only [Field.InPage, pageSize] at inside fits current_fits apart
    refine Field.get_congr (by simp only [Task.priority]; omega) ?_
    apply Field.agreeOn_set field_fits
    simp only [Task.priority]
    omega
  have weight := Task.priority.get_lt memory current
  have entry : ∀ {store : Memory}, Task.priority.get
      (Task.priority.set store newTask (Task.priority.get memory current)) newTask =
        Task.priority.get memory current := fun {_} => Field.get_set fits (by decide) weight
  have word : wordSize = 256 ^ 8 := by decide
  unfold forkFields
  simp (disch := decide) only [same_priority, entry]
  constructor
  · simp (disch := first | assumption | decide) only [Field.get_set_apart]
    exact Field.get_set fits (by decide) (by decide)
  · simp (disch := first | assumption | decide) only [Field.get_set_apart]
    exact Field.get_set fits (by decide) small
  · simp (disch := first | assumption | decide) only [Field.get_set_apart]
    exact Field.get_set fits (by decide) weight
  · simp (disch := first | assumption | decide) only [Field.get_set_apart]
    exact Field.get_set fits (by decide) weight
  · simp (disch := first | assumption | decide) only [Field.get_set_apart]
    exact Field.get_set fits (by decide) (by decide)
  · simp (disch := first | assumption | decide) only [Field.get_set_apart]
    exact Field.get_set fits (by decide) (by decide)
  · simp (disch := first | assumption | decide) only [Field.get_set_apart]
    exact Field.get_set fits (by decide) (by decide)
  · simp (disch := first | assumption | decide) only [Field.get_set_apart]
    exact Field.get_set_word fits (by decide) rfl
  · refine Field.get_set fits (by decide) ?_
    rw [getTaskPtRegs, show Task.sp.width = 8 from rfl, ← word]
    exact Nat.mod_lt _ (by decide)

theorem TaskStarted.congr {image : Image} {memory after : Memory} {task cloneFlags weight : Nat}
    (started : TaskStarted image memory task cloneFlags weight)
    (fits : task + 2 * pageSize ≤ wordSize) (agree : memory.AgreeOn after task pageSize) :
    TaskStarted image after task cloneFlags weight := by
  have same : ∀ {field : Field}, field.InPage →
      field.get after task = field.get memory task := by
    intro field inside
    refine Field.get_congr (inside.fits fits) (agree.mono (by omega) ?_)
    simp only [Field.InPage] at inside
    omega
  constructor
  · rw [same (by decide), started.preemptCount]
  · rw [same (by decide), started.flags]
  · rw [same (by decide), started.priority]
  · rw [same (by decide), started.counter]
  · rw [same (by decide), started.state]
  · rw [same (by decide), started.fdTableBitmap]
  · rw [same (by decide), started.fdTableFile]
  · rw [same (by decide), started.pc]
  · rw [same (by decide), started.sp]

/-! ## The page of the new task -/

/-- The task array with the new task in the next slot. -/
def withTask (kernel : Kernel) (index : Nat) : Nat → Nat :=
  Function.update kernel.taskArray kernel.nTasks (kernelAdr index)

@[simp] theorem withTask_new (kernel : Kernel) (index : Nat) :
    withTask kernel index kernel.nTasks = kernelAdr index := Function.update_self ..

theorem withTask_old (kernel : Kernel) (index : Nat) {pid : Nat} (known : pid < kernel.nTasks) :
    withTask kernel index pid = kernel.taskArray pid :=
  Function.update_of_ne (Nat.ne_of_lt known) _ _

/-- State once the page of the new task has been taken. -/
structure ForkBegun (image : Image) (kernel : Kernel) (owner : Nat → Option PageRole)
    (index : Nat) (mm : Mm) : Prop where
  roles : PageRoles image mm (withTask kernel index) (kernel.nTasks + 1)
    (Function.update owner index (some (.taskStruct kernel.nTasks)))
  fresh : index < mmNumOfPages ∧ owner index = none
  zero : ∀ address, kernelAdr index ≤ address → address < kernelAdr index + pageSize →
    mm.memory address = 0
  outside : ∀ address, address < kernelAdr index ∨ kernelAdr index + pageSize ≤ address →
    address < kernel.current + 128 ∨ kernel.current + 136 ≤ address →
      mm.memory address = kernel.memory address
  preempt : Task.preemptCount.get mm.memory kernel.current =
    (Task.preemptCount.get kernel.memory kernel.current + 1) % wordSize
  left : freeCount mm + 1 = freeCount kernel.mm
  walks : ∀ {pid path}, pid < kernel.nTasks → path.length ≤ 4 →
    walk mm.memory (kernel.taskArray pid) path = walk kernel.memory (kernel.taskArray pid) path

section Begin

variable {image : Image} {kernel : Kernel} {owner : Nat → Option PageRole} {parent index : Nat}

private theorem preempt_inPage : Task.preemptCount.InPage := by decide

private theorem mm_preemptDisable (kernel : Kernel) :
    kernel.mm.setMemory (preemptDisable kernel).memory = (preemptDisable kernel).mm := rfl

theorem pageBitmap_preemptDisable (kernel : Kernel) :
    (preemptDisable kernel).mm.pageBitmap = kernel.mm.pageBitmap := rfl

theorem getNextFreePage_preemptDisable (left : 0 < freeCount kernel.mm) :
    ∃ index, index < mmNumOfPages ∧ IsFree kernel.mm index ∧
      getNextFreePage (preemptDisable kernel).mm =
        (takePage (preemptDisable kernel).mm index, pageAt index) := by
  rw [← freeCount_congr (pageBitmap_preemptDisable kernel)] at left
  obtain ⟨index, inside, free, call⟩ := getNextFreePage_of_pos left
  rw [isFree_congr (pageBitmap_preemptDisable kernel)] at free
  exact ⟨index, inside, free, call⟩

theorem forkBegun (roles : PageRoles image kernel.mm kernel.taskArray kernel.nTasks owner)
    (known : parent < kernel.nTasks) (current : kernel.current = kernel.taskArray parent)
    (inside : index < mmNumOfPages) (free : IsFree kernel.mm index) :
    ForkBegun image kernel owner index (takePage (preemptDisable kernel).mm index) := by
  have range := roles.task_range known
  rw [← current] at range
  have fresh : owner index = none := (roles.unused inside).mpr free
  have confined : ∀ address, address < kernel.current + 128 ∨ kernel.current + 136 ≤ address →
      (preemptDisable kernel).memory address = kernel.memory address := by
    intro address off
    exact Field.set_outside (preempt_inPage.fits range.2) off
  obtain ⟨disabled, same_walks⟩ := @PageRoles.edit_task _ _ _ _ _ roles
    ((preemptDisable kernel).memory) _ known (by
      rw [← current]
      intro address off
      exact confined address (by simp only [pageSize] at off; omega))
  rw [mm_preemptDisable] at disabled
  have still_free : IsFree (preemptDisable kernel).mm index := by
    rw [isFree_congr (pageBitmap_preemptDisable kernel)]
    exact free
  have task_apart := roles.task_apart known inside (by rw [fresh]; simp)
  rw [← current] at task_apart
  have outside : ∀ address, address < kernelAdr index ∨ kernelAdr index + pageSize ≤ address →
      (takePage (preemptDisable kernel).mm index).memory address =
        (preemptDisable kernel).memory address := by
    intro address off
    exact @agreeOn_takePage _ _ _ 1 (by omega) address (le_refl _) (Nat.lt_succ_self _)
  have zero : ∀ address, kernelAdr index ≤ address → address < kernelAdr index + pageSize →
      (takePage (preemptDisable kernel).mm index).memory address = 0 := by
    intro address lower upper
    rw [kernelAdr] at lower upper
    rw [memory_takePage]
    exact Memory.fill_inside _ lower upper
  have taken := @PageRoles.take _ _ _ _ _ disabled _ (.taskStruct kernel.nTasks) inside still_free
    (by simp)
  refine ⟨?_, ⟨inside, fresh⟩, zero, ?_, ?_, ?_, ?_⟩
  · refine taken.enroll (by omega) (Function.update_self ..) ?_
    have page := kernelAdr_range inside
    rw [Field.get_eq (by simp only [Task.pagedirectory, pageSize] at page ⊢; omega)]
    apply Memory.read_zero
    intro address lower upper
    simp only [Task.pagedirectory] at lower upper
    exact zero address (by omega) (by simp only [pageSize]; omega)
  · intro address off_page off_preempt
    rw [outside address off_page, confined address off_preempt]
  · have same : Task.preemptCount.get (takePage (preemptDisable kernel).mm index).memory
        kernel.current = Task.preemptCount.get (preemptDisable kernel).memory kernel.current := by
      apply Field.get_congr (preempt_inPage.fits range.2)
      intro address lower upper
      simp only [Task.preemptCount, pageSize] at lower upper task_apart
      exact outside address (by simp only [pageSize]; omega)
    rw [same]
    exact Field.get_set range.2 preempt_inPage (Nat.mod_lt _ (by decide))
  · rw [freeCount_takePage inside still_free, freeCount_congr (pageBitmap_preemptDisable kernel)]
  · intro pid path pid_known short
    rw [disabled.walk_take pid_known short inside still_free]
    exact same_walks pid_known short

end Begin

/-! ## The end of a fork -/

/-- What the part of `kernel_fork` that depends on the kind of thread may do. -/
structure ForkFilled (image : Image) (kernel : Kernel) (owner : Nat → Option PageRole)
    (index : Nat) (begun mm : Mm) (grown : Nat → Option PageRole) : Prop where
  roles : PageRoles image mm (withTask kernel index) (kernel.nTasks + 1) grown
  kept : ∀ {other role}, owner other = some role → grown other = some role
  task : grown index = some (.taskStruct kernel.nTasks)
  added : ∀ {other role}, grown other = some role → owner other = some role ∨
    owner other = none ∧ (other = index ∨
      ∃ path, role = .user kernel.nTasks path ∨ role = .table kernel.nTasks path)
  other_tasks : ∀ {pid}, pid < kernel.nTasks →
    begun.memory.AgreeOn mm.memory (kernel.taskArray pid) pageSize
  pages : ∀ {other role}, owner other = some role → (∀ pid, role ≠ .taskStruct pid) →
    (∀ path, role ≠ .table kernel.nTasks path) →
      begun.memory.AgreeOn mm.memory (kernelAdr other) pageSize
  walks : ∀ {pid path}, pid < kernel.nTasks → path.length = 4 →
    walk mm.memory (kernel.taskArray pid) path = walk begun.memory (kernel.taskArray pid) path

/-- The kernel after the last part of `kernel_fork`. -/
def forkEnd (image : Image) (kernel : Kernel) (mm : Mm) (newTask cloneFlags : Nat) : Kernel :=
  let kernel := { kernel with mm }
  let kernel := kernel.setMemory
    (forkFields image kernel.memory kernel.current newTask cloneFlags)
  preemptEnable { kernel with
    nTasks := (kernel.nTasks + 1) % 2 ^ 8
    taskArray := Function.update kernel.taskArray kernel.nTasks newTask }

/-- Outcome of a fork: a new task in the next slot, nothing else changed but formerly free
pages. -/
structure Forked (image : Image) (kernel : Kernel) (owner : Nat → Option PageRole) (index : Nat)
    (after : Kernel) (grown : Nat → Option PageRole) : Prop where
  nTasks : after.nTasks = kernel.nTasks + 1
  taskArray : after.taskArray = withTask kernel index
  current : after.current = kernel.current
  ttbr0 : after.ttbr0 = kernel.ttbr0
  fresh : index < mmNumOfPages ∧ owner index = none
  task : grown index = some (.taskStruct kernel.nTasks)
  roles : PageRoles image after.mm after.taskArray after.nTasks grown
  kept : ∀ {other role}, owner other = some role → grown other = some role
  added : ∀ {other role}, grown other = some role → owner other = some role ∨
    owner other = none ∧ (other = index ∨
      ∃ path, role = .user kernel.nTasks path ∨ role = .table kernel.nTasks path)
  other_tasks : ∀ {pid}, pid < kernel.nTasks →
    kernel.memory.AgreeOn after.memory (kernel.taskArray pid) pageSize
  pages : ∀ {other role}, owner other = some role → (∀ pid, role ≠ .taskStruct pid) →
    (∀ path, role ≠ .table kernel.nTasks path) →
      kernel.memory.AgreeOn after.memory (kernelAdr other) pageSize
  walks : ∀ {pid path}, pid < kernel.nTasks → path.length = 4 →
    walk after.memory (kernel.taskArray pid) path = walk kernel.memory (kernel.taskArray pid) path

theorem memory_preemptEnable (kernel : Kernel) : (preemptEnable kernel).memory =
    Task.preemptCount.set kernel.memory kernel.current
      ((Task.preemptCount.get kernel.memory kernel.current + (wordSize - 1)) % wordSize) := by
  rw [preemptEnable, Kernel.memory_setMemory]

theorem memory_forkEnd (image : Image) (kernel : Kernel) (mm : Mm) (newTask cloneFlags : Nat) :
    (forkEnd image kernel mm newTask cloneFlags).memory = Task.preemptCount.set
      (forkFields image mm.memory kernel.current newTask cloneFlags) kernel.current
      ((Task.preemptCount.get (forkFields image mm.memory kernel.current newTask cloneFlags)
        kernel.current + (wordSize - 1)) % wordSize) := by
  rw [forkEnd, memory_preemptEnable]
  simp only [Kernel.memory, Kernel.mm_setMemory, Mm.memory_setMemory, Kernel.current_setMemory]

theorem mm_forkEnd (image : Image) (kernel : Kernel) (mm : Mm) (newTask cloneFlags : Nat) :
    (forkEnd image kernel mm newTask cloneFlags).mm =
      mm.setMemory (forkEnd image kernel mm newTask cloneFlags).memory := by
  rw [forkEnd, preemptEnable, Kernel.mm_setMemory, Kernel.memory_setMemory, Kernel.mm_setMemory,
    Mm.setMemory_setMemory]

theorem nTasks_forkEnd (image : Image) (kernel : Kernel) (mm : Mm) (newTask cloneFlags : Nat) :
    (forkEnd image kernel mm newTask cloneFlags).nTasks = (kernel.nTasks + 1) % 2 ^ 8 := by
  rw [forkEnd, preemptEnable, Kernel.nTasks_setMemory, Kernel.nTasks_setMemory]

theorem taskArray_forkEnd (image : Image) (kernel : Kernel) (mm : Mm) (newTask cloneFlags : Nat) :
    (forkEnd image kernel mm newTask cloneFlags).taskArray =
      Function.update kernel.taskArray kernel.nTasks newTask := by
  rw [forkEnd, preemptEnable, Kernel.taskArray_setMemory, Kernel.taskArray_setMemory,
    Kernel.nTasks_setMemory]

theorem current_forkEnd (image : Image) (kernel : Kernel) (mm : Mm) (newTask cloneFlags : Nat) :
    (forkEnd image kernel mm newTask cloneFlags).current = kernel.current := by
  rw [forkEnd, preemptEnable, Kernel.current_setMemory, Kernel.current_setMemory]

theorem ttbr0_forkEnd (image : Image) (kernel : Kernel) (mm : Mm) (newTask cloneFlags : Nat) :
    (forkEnd image kernel mm newTask cloneFlags).ttbr0 = kernel.ttbr0 := by
  rw [forkEnd, preemptEnable, Kernel.ttbr0_setMemory, Kernel.ttbr0_setMemory]

theorem preempt_restored {count : Nat} (small : count < wordSize) :
    ((count + 1) % wordSize + (wordSize - 1)) % wordSize = count := by
  rcases Nat.lt_or_ge (count + 1) wordSize with fits | wraps
  · rw [Nat.mod_eq_of_lt fits, show count + 1 + (wordSize - 1) = count + wordSize by omega,
      Nat.add_mod_right, Nat.mod_eq_of_lt small]
  · obtain rfl : count = wordSize - 1 := by omega
    decide

theorem forkEnd_get (image : Image) {kernel : Kernel} (mm : Mm) {newTask : Nat} (cloneFlags : Nat)
    (fits : newTask + 2 * pageSize ≤ wordSize)
    (current_fits : kernel.current + 2 * pageSize ≤ wordSize)
    (apart : kernel.current + pageSize ≤ newTask ∨ newTask + pageSize ≤ kernel.current)
    {field : Field} (inside : field.InPage) :
    field.get (forkEnd image kernel mm newTask cloneFlags).memory newTask =
      field.get (forkFields image mm.memory kernel.current newTask cloneFlags) newTask := by
  refine Field.get_congr (inside.fits fits) ?_
  simp only [Field.InPage, pageSize] at inside apart
  rw [memory_forkEnd]
  refine Field.agreeOn_set (preempt_inPage.fits current_fits) _ ?_
  simp only [Task.preemptCount]
  omega

section End

variable {image : Image} {kernel : Kernel} {owner grown : Nat → Option PageRole}
  {parent index cloneFlags : Nat} {begun mm : Mm}

/-- The current task has its old `preempt_count` again; other bytes outside the new task keep
their contents, and so do the new task's bytes outside the fields. -/
theorem forkEnd_memory (fork : ForkBegun image kernel owner index begun)
    (filled : ForkFilled image kernel owner index begun mm grown) (known : parent < kernel.nTasks)
    (current : kernel.current = kernel.taskArray parent) :
    (∀ address, address < kernelAdr index + 88 ∨ kernelAdr index + 152 ≤ address →
      address < kernelAdr index + 560 ∨ kernelAdr index + 576 ≤ address →
      address < kernel.current + 128 ∨ kernel.current + 136 ≤ address →
        (forkEnd image kernel mm (kernelAdr index) cloneFlags).memory address =
          mm.memory address) ∧
      Task.preemptCount.get (forkEnd image kernel mm (kernelAdr index) cloneFlags).memory
        kernel.current = Task.preemptCount.get kernel.memory kernel.current := by
  have parent_lt : parent < kernel.nTasks + 1 := by omega
  have range := filled.roles.task_range parent_lt
  have page := kernelAdr_range fork.fresh.1
  have apart := filled.roles.tasks_apart parent_lt (Nat.lt_succ_self _) (Nat.ne_of_lt known)
  rw [withTask_old kernel index known, ← current] at range apart
  rw [withTask_new] at apart
  have fields : ∀ address, address < kernelAdr index + 88 ∨ kernelAdr index + 152 ≤ address →
      address < kernelAdr index + 560 ∨ kernelAdr index + 576 ≤ address →
        forkFields image mm.memory kernel.current (kernelAdr index) cloneFlags address =
          mm.memory address := fun address low high => forkFields_outside image _ page.2 low high
  have count : Task.preemptCount.get
      (forkFields image mm.memory kernel.current (kernelAdr index) cloneFlags) kernel.current =
        (Task.preemptCount.get kernel.memory kernel.current + 1) % wordSize := by
    rw [← fork.preempt]
    apply Field.get_congr (preempt_inPage.fits range.2)
    intro address lower upper
    simp only [Task.preemptCount, pageSize] at lower upper apart
    rw [fields address (by omega) (by omega)]
    have same := filled.other_tasks known
    rw [← current] at same
    exact same address (by omega) (by simp only [pageSize]; omega)
  constructor
  · intro address low high off
    rw [memory_forkEnd, Field.set_outside (preempt_inPage.fits range.2) off,
      fields address low high]
  · have small := Task.preemptCount.get_lt kernel.memory kernel.current
    rw [memory_forkEnd, count, preempt_restored small]
    exact Field.get_set range.2 preempt_inPage small

private theorem forkEnd_current_bytes (fork : ForkBegun image kernel owner index begun)
    (filled : ForkFilled image kernel owner index begun mm grown) (known : parent < kernel.nTasks)
    (current : kernel.current = kernel.taskArray parent) :
    kernel.memory.AgreeOn (forkEnd image kernel mm (kernelAdr index) cloneFlags).memory
      (kernel.current + 128) 8 := by
  have range := filled.roles.task_range (by omega : parent < _)
  rw [withTask_old kernel index known, ← current] at range
  have same := (@forkEnd_memory _ _ _ _ _ _ cloneFlags _ _ fork filled known current).2
  rw [Field.get_eq (preempt_inPage.fits range.2),
    Field.get_eq (preempt_inPage.fits range.2)] at same
  exact Memory.agreeOn_of_read_eq same

private theorem forkEnd_other_tasks (fork : ForkBegun image kernel owner index begun)
    (filled : ForkFilled image kernel owner index begun mm grown) (known : parent < kernel.nTasks)
    (current : kernel.current = kernel.taskArray parent) {pid : Nat}
    (pid_known : pid < kernel.nTasks) :
    kernel.memory.AgreeOn (forkEnd image kernel mm (kernelAdr index) cloneFlags).memory
      (kernel.taskArray pid) pageSize := by
  intro address lower upper
  have apart := filled.roles.tasks_apart (by omega : pid < _) (Nat.lt_succ_self _)
    (Nat.ne_of_lt pid_known)
  rw [withTask_old kernel index pid_known, withTask_new] at apart
  by_cases preempt : kernel.current + 128 ≤ address ∧ address < kernel.current + 136
  · exact forkEnd_current_bytes fork filled known current address preempt.1 preempt.2
  · simp only [pageSize] at apart upper
    rw [(forkEnd_memory fork filled known current).1 address (by omega) (by omega) (by omega),
      filled.other_tasks pid_known address lower (by simp only [pageSize]; omega),
      fork.outside address (by simp only [pageSize]; omega) (by omega)]

theorem forkEnd_field (fork : ForkBegun image kernel owner index begun)
    (filled : ForkFilled image kernel owner index begun mm grown) (known : parent < kernel.nTasks)
    (current : kernel.current = kernel.taskArray parent) {field : Field}
    (low : 152 ≤ field.offset) (high : field.offset + field.width ≤ 560) :
    field.get (forkEnd image kernel mm (kernelAdr index) cloneFlags).memory (kernelAdr index) =
      field.get mm.memory (kernelAdr index) := by
  have page := kernelAdr_range fork.fresh.1
  have apart := filled.roles.tasks_apart (by omega : parent < _) (Nat.lt_succ_self _)
    (Nat.ne_of_lt known)
  rw [withTask_old kernel index known, ← current, withTask_new] at apart
  simp only [pageSize] at page apart
  apply Field.get_congr (by omega)
  intro address lower upper
  exact (forkEnd_memory fork filled known current).1 address (by omega) (by omega) (by omega)

/-- The pages from before the fork other than tasks keep their bytes. -/
theorem forkEnd_pages (fork : ForkBegun image kernel owner index begun)
    (filled : ForkFilled image kernel owner index begun mm grown) (known : parent < kernel.nTasks)
    (current : kernel.current = kernel.taskArray parent) {other : Nat} {role : PageRole}
    (owned : grown other = some role) (not_task : ∀ pid, role ≠ .taskStruct pid) :
    mm.memory.AgreeOn (forkEnd image kernel mm (kernelAdr index) cloneFlags).memory
      (kernelAdr other) pageSize := by
  intro address lower upper
  have inside := filled.roles.inside owned
  have new_apart := filled.roles.task_apart (Nat.lt_succ_self _) inside (by
    rw [owned]
    exact fun clash => not_task _ (Option.some.inj clash))
  have current_apart := filled.roles.task_apart (by omega : parent < _) inside (by
    rw [owned]
    exact fun clash => not_task _ (Option.some.inj clash))
  rw [withTask_new] at new_apart
  rw [withTask_old kernel index known, ← current] at current_apart
  simp only [pageSize] at new_apart current_apart upper
  exact (forkEnd_memory fork filled known current).1 address (by omega) (by omega) (by omega)

theorem forkEnd_started (fork : ForkBegun image kernel owner index begun)
    (filled : ForkFilled image kernel owner index begun mm grown) (known : parent < kernel.nTasks)
    (current : kernel.current = kernel.taskArray parent) (small : cloneFlags < 256 ^ 8) :
    TaskStarted image (forkEnd image kernel mm (kernelAdr index) cloneFlags).memory
      (kernelAdr index) cloneFlags (Task.priority.get kernel.memory kernel.current) := by
  have page := kernelAdr_range fork.fresh.1
  have range := filled.roles.task_range (by omega : parent < _)
  have apart := filled.roles.tasks_apart (by omega : parent < _) (Nat.lt_succ_self _)
    (Nat.ne_of_lt known)
  rw [withTask_old kernel index known, ← current] at range apart
  rw [withTask_new] at apart
  have weight : Task.priority.get mm.memory kernel.current =
      Task.priority.get kernel.memory kernel.current := by
    apply Field.get_congr (Field.InPage.fits (by decide) range.2)
    intro address lower upper
    have same := filled.other_tasks known
    rw [← current] at same
    simp only [Task.priority, pageSize] at lower upper apart
    rw [same address (by omega) (by simp only [pageSize]; omega),
      fork.outside address (by simp only [pageSize]; omega) (by omega)]
  have started := forkFields_started image mm.memory page.2 range.2 apart small
  rw [weight] at started
  refine started.congr page.2 ?_
  intro address lower upper
  rw [memory_forkEnd, Field.set_outside (preempt_inPage.fits range.2)]
  simp only [Task.preemptCount, pageSize] at apart upper ⊢
  omega

theorem forkEnd_roles (fork : ForkBegun image kernel owner index begun)
    (filled : ForkFilled image kernel owner index begun mm grown) (known : parent < kernel.nTasks)
    (current : kernel.current = kernel.taskArray parent) :
    PageRoles image (forkEnd image kernel mm (kernelAdr index) cloneFlags).mm
        (withTask kernel index) (kernel.nTasks + 1) grown ∧
      ∀ {pid path}, pid < kernel.nTasks + 1 → path.length ≤ 4 →
        walk (forkEnd image kernel mm (kernelAdr index) cloneFlags).memory
          (withTask kernel index pid) path = walk mm.memory (withTask kernel index pid) path := by
  have page := kernelAdr_range fork.fresh.1
  have range := filled.roles.task_range (by omega : parent < _)
  obtain ⟨between, first_walks⟩ := @PageRoles.edit_task _ _ _ _ _ filled.roles
    (forkFields image mm.memory kernel.current (kernelAdr index) cloneFlags) kernel.nTasks
    (by omega) (by
      rw [withTask_new]
      intro address off
      simp only [pageSize] at off
      exact forkFields_outside image _ page.2 (by omega) (by omega))
  obtain ⟨final, second_walks⟩ := @PageRoles.edit_task _ _ _ _ _ between
    ((forkEnd image kernel mm (kernelAdr index) cloneFlags).memory) parent (by omega) (by
      rw [withTask_old kernel index known, ← current]
      rw [withTask_old kernel index known, ← current] at range
      intro address off
      simp only [pageSize] at off
      rw [Mm.memory_setMemory, memory_forkEnd, Field.set_outside (preempt_inPage.fits range.2)]
      simp only [Task.preemptCount]
      omega)
  rw [Mm.setMemory_setMemory, ← mm_forkEnd] at final
  refine ⟨final, ?_⟩
  intro pid path pid_known short
  rw [second_walks pid_known short, Mm.memory_setMemory, first_walks pid_known short]

/-- The whole fork, once the part that depends on the kind of thread is known. -/
theorem forkEnd_forked (fork : ForkBegun image kernel owner index begun)
    (filled : ForkFilled image kernel owner index begun mm grown) (known : parent < kernel.nTasks)
    (current : kernel.current = kernel.taskArray parent) (room : kernel.nTasks < nTasksMax) :
    Forked image kernel owner index (forkEnd image kernel mm (kernelAdr index) cloneFlags)
      grown := by
  obtain ⟨roles, same_walks⟩ := @forkEnd_roles _ _ _ _ _ _ cloneFlags _ _ fork filled known current
  have count : (forkEnd image kernel mm (kernelAdr index) cloneFlags).nTasks =
      kernel.nTasks + 1 := by
    rw [nTasks_forkEnd]
    simp only [nTasksMax] at room
    omega
  refine ⟨count, taskArray_forkEnd _ _ _ _ _, current_forkEnd _ _ _ _ _, ttbr0_forkEnd _ _ _ _ _,
    fork.fresh, filled.task, ?_, filled.kept, filled.added, ?_, ?_, ?_⟩
  · rw [count, taskArray_forkEnd]
    exact roles
  · intro pid pid_known
    exact forkEnd_other_tasks fork filled known current pid_known
  · intro other role owned not_task not_table
    have differ : other ≠ index := by
      rintro rfl
      rw [fork.fresh.2] at owned
      cases owned
    have page_apart := kernelAdr_apart differ
    have current_apart := filled.roles.task_apart (by omega : parent < _)
      (filled.roles.inside (filled.kept owned)) (by
        rw [filled.kept owned]
        exact fun clash => not_task _ (Option.some.inj clash))
    rw [withTask_old kernel index known, ← current] at current_apart
    have begun_same : kernel.memory.AgreeOn begun.memory (kernelAdr other) pageSize := by
      intro address lower upper
      simp only [pageSize] at current_apart page_apart upper
      exact fork.outside address (by simp only [pageSize]; omega) (by omega)
    exact (begun_same.trans (filled.pages owned not_task not_table)).trans
      (forkEnd_pages fork filled known current (filled.kept owned) not_task)
  · intro pid path pid_known long
    have same := @same_walks pid path (by omega) (by omega)
    rw [withTask_old kernel index pid_known] at same
    rw [same, filled.walks pid_known long, fork.walks pid_known (by omega)]

end End

/-! ## Saved user registers -/

/-- The saved registers of the new task, copied from the current task with zero in `x0`. -/
def ptRegsMemory (memory : Memory) (current task : Nat) : Memory :=
  (memory.copy (getTaskPtRegs task) (getTaskPtRegs current) sizeofPtRegs).write
    (getTaskPtRegs task) 8 0

theorem getTaskPtRegs_eq {task : Nat} (fits : task + 2 * pageSize ≤ wordSize) :
    getTaskPtRegs task = task + 3824 := by
  simp only [pageSize] at fits
  rw [getTaskPtRegs, taskSize, sizeofPtRegs, Nat.mod_eq_of_lt (by omega)]
  omega

theorem ptRegsMemory_outside {memory : Memory} {current task address : Nat}
    (fits : task + 2 * pageSize ≤ wordSize)
    (off : address < task + 3824 ∨ task + pageSize ≤ address) :
    ptRegsMemory memory current task address = memory address := by
  simp only [pageSize] at off
  rw [ptRegsMemory, getTaskPtRegs_eq fits, Memory.write_outside _ (by omega),
    Memory.copy_outside _ (by rw [sizeofPtRegs]; omega)]

theorem ptRegsMemory_regs {memory : Memory} {current task offset : Nat}
    (fits : task + 2 * pageSize ≤ wordSize) (current_fits : current + 2 * pageSize ≤ wordSize)
    (inside : offset < sizeofPtRegs) :
    ptRegsMemory memory current task (task + 3824 + offset) =
      if offset < 8 then 0 else memory (current + 3824 + offset) := by
  rw [ptRegsMemory, getTaskPtRegs_eq fits, getTaskPtRegs_eq current_fits]
  split_ifs with first
  · exact Memory.write_zero_inside _ (by omega) (by omega)
  · rw [Memory.write_outside _ (by omega), Memory.copy_inside _ _ _ inside]

/-! ## `kernel_fork` -/

section Fork

variable {image : Image} {kernel : Kernel} {owner : Nat → Option PageRole}
  {parent index cloneFlags fn args : Nat}

theorem withMm_preemptDisable (kernel : Kernel) (mm : Mm) :
    { preemptDisable kernel with mm } = { kernel with mm } := by
  simp only [preemptDisable, Kernel.taskArray_setMemory, Kernel.nTasks_setMemory,
    Kernel.current_setMemory, Kernel.ttbr0_setMemory, Kernel.firstFree_setMemory,
    Kernel.timerArr_setMemory, Kernel.currentTick_setMemory, Kernel.registers_setMemory]

theorem allocateKernelPage_taken {mm begun : Mm} (inside : index < mmNumOfPages)
    (call : getNextFreePage mm = (begun, pageAt index)) :
    allocateKernelPage mm = (begun, kernelAdr index) := by
  unfold allocateKernelPage
  rw [call]
  simp only [pageAt_ne_zero, if_false, kernelAdr_eq inside]

theorem kernelFork_eq {begun mm : Mm} (inside : index < mmNumOfPages)
    (call : getNextFreePage (preemptDisable kernel).mm = (begun, pageAt index))
    (context : forkContext { kernel with mm := begun } (kernelAdr index) cloneFlags fn args =
      some { kernel with mm }) :
    kernelFork image kernel cloneFlags fn args =
      some (forkEnd image kernel mm (kernelAdr index) cloneFlags, kernel.nTasks) := by
  unfold kernelFork
  simp only [allocateKernelPage_taken inside call, withMm_preemptDisable,
    if_neg (kernelAdr_ne_zero index), context]
  rw [forkEnd, Kernel.nTasks_setMemory]

/-- A fork does not return when the part that depends on the kind of thread faults. -/
theorem kernelFork_none {begun : Mm} (inside : index < mmNumOfPages)
    (call : getNextFreePage (preemptDisable kernel).mm = (begun, pageAt index))
    (context : forkContext { kernel with mm := begun } (kernelAdr index) cloneFlags fn args =
      none) : kernelFork image kernel cloneFlags fn args = none := by
  unfold kernelFork
  simp only [allocateKernelPage_taken inside call, withMm_preemptDisable,
    if_neg (kernelAdr_ne_zero index), context]

end Fork

end PellOs

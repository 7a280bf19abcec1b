import PellOs.Kmalloc.Model
import PellOs.Mm.Paging

/-!
# Tasks, address spaces and the scheduler

The kernel's static data next to its memory, and the functions of `scheduler.c`, `paging.c` and
`software_timer.c` that work on both.  Loops whose end depends on memory contents carry fuel and
return `none` when it runs out, and so does a copy that faults in kernel mode.
-/

namespace PellOs

/-- Start of the kernel image in the linker script. -/
def imageStart : Nat := 0xffff000000080000

/-- Link-time addresses.  The kernel image ends below `LOW_MEMORY`. -/
structure Image where
  /-- `&init_task`. -/
  initTask : Nat
  /-- Address of `ret_from_fork`. -/
  retFromFork : Nat
  above_start : imageStart ≤ initTask
  below_pages : initTask + taskSize ≤ virtualAddressStart + lowMemory

/-- `onehit_timer_t`. -/
structure OnehitTimer where
  finishTime : Nat
  taskPtr : Nat

/-- Number of software timers. -/
def timerCount : Nat := 5

/-- Memory, the static variables of the kernel and the registers that a task switch saves. -/
structure Kernel where
  mm : Mm
  /-- `task_array`; cells from `N_TASKS` on are the memory behind it. -/
  taskArray : Nat → Nat
  /-- `n_tasks`, a `uint8_t`. -/
  nTasks : Nat
  /-- `current`. -/
  current : Nat
  /-- `ttbr0_el1`. -/
  ttbr0 : Nat
  /-- `first_free` of the kernel heap. -/
  firstFree : Nat
  /-- `timer_arr`. -/
  timerArr : Nat → OnehitTimer
  /-- `current_tick`. -/
  currentTick : Nat
  /-- `x19 … x28, fp, sp` and the return address. -/
  registers : Nat → Nat

namespace Kernel

/-- Kernel memory. -/
def memory (kernel : Kernel) : Memory := kernel.mm.memory

/-- Replace kernel memory. -/
def setMemory (kernel : Kernel) (memory : Memory) : Kernel :=
  { kernel with mm := kernel.mm.setMemory memory }

end Kernel

/-- `preempt_disable`. -/
def preemptDisable (kernel : Kernel) : Kernel :=
  kernel.setMemory (Task.preemptCount.set kernel.memory kernel.current
    ((Task.preemptCount.get kernel.memory kernel.current + 1) % wordSize))

/-- `preempt_enable`. -/
def preemptEnable (kernel : Kernel) : Kernel :=
  kernel.setMemory (Task.preemptCount.set kernel.memory kernel.current
    ((Task.preemptCount.get kernel.memory kernel.current + (wordSize - 1)) % wordSize))

/-! ## Fork -/

/-- The loop of `copy_virtual_memory` from index `i` on, with the result. -/
def copyPages (source task ttbr0 : Nat) : Nat → Nat → Mm → Option (Mm × Int)
  | 0, _, _ => none
  | fuel + 1, i, mm =>
      let count := Task.userpagesCount.get mm.memory source
      if count < 2 ^ 31 ∧ i < count then
        let virtAdr := (Task.userpageVirtual i).get mm.memory source
        let (mm, kernelVirtualAdr) := allocateUserPage mm task virtAdr
        if kernelVirtualAdr = 0 then
          some (mm, -1)
        else
          match memcpyVirtual ttbr0 mm.memory kernelVirtualAdr
            ((Task.userpageVirtual i).get mm.memory source) pageSize with
          | none => none
          | some memory => copyPages source task ttbr0 fuel (i + 1) (mm.setMemory memory)
      else
        some (mm, 0)

/-- `copy_virtual_memory`. -/
@[irreducible] def copyVirtualMemory (kernel : Kernel) (task : Nat) : Option (Kernel × Int) :=
  (copyPages kernel.current task kernel.ttbr0 (2 ^ 31) 0 kernel.mm).map
    fun (mm, result) => ({ kernel with mm }, result)

/-- The part of `kernel_fork` that depends on the kind of thread.  The result of
`copy_virtual_memory` is not looked at. -/
@[irreducible] def forkContext (kernel : Kernel) (newTask cloneFlags fn args : Nat) :
    Option Kernel :=
  if cloneFlags &&& taskFlagsKernelThread ≠ 0 then
    let memory := Task.x19.set kernel.memory newTask fn
    some (kernel.setMemory (Task.x20.set memory newTask args))
  else
    let child := getTaskPtRegs newTask
    let memory := kernel.memory.copy child (getTaskPtRegs kernel.current) sizeofPtRegs
    let memory := memory.write child 8 0
    (copyVirtualMemory (kernel.setMemory memory) newTask).map Prod.fst

/-- The fields that `kernel_fork` sets in every new task. -/
@[irreducible] def forkFields (image : Image) (memory : Memory)
    (current newTask cloneFlags : Nat) : Memory :=
  let memory := Task.preemptCount.set memory newTask 1
  let memory := Task.flags.set memory newTask cloneFlags
  let memory := Task.priority.set memory newTask (Task.priority.get memory current)
  let memory := Task.counter.set memory newTask (Task.priority.get memory newTask)
  let memory := Task.state.set memory newTask TaskState.running.toNat
  let memory := Task.fdTableBitmap.set memory newTask 0
  let memory := Task.fdTableFile.set memory newTask 0
  let memory := Task.pc.set memory newTask image.retFromFork
  Task.sp.set memory newTask (getTaskPtRegs newTask)

/-- `kernel_fork`, with the value it returns. -/
@[irreducible] def kernelFork (image : Image) (kernel : Kernel) (cloneFlags fn args : Nat) :
    Option (Kernel × Nat) :=
  let kernel := preemptDisable kernel
  let (mm, newTask) := allocateKernelPage kernel.mm
  let kernel := { kernel with mm }
  if newTask = 0 then
    some (kernel, 0xFF)
  else
    match forkContext kernel newTask cloneFlags fn args with
    | none => none
    | some kernel =>
        let kernel := kernel.setMemory
          (forkFields image kernel.memory kernel.current newTask cloneFlags)
        let pid := kernel.nTasks
        let kernel := { kernel with
          nTasks := (kernel.nTasks + 1) % 2 ^ 8
          taskArray := Function.update kernel.taskArray pid newTask }
        some (preemptEnable kernel, pid)

/-! ## Page faults -/

/-- `do_mem_abort`, with the value it returns. -/
def doMemAbort (kernel : Kernel) (addr esr : Nat) : Kernel × Int :=
  let dfs := esr &&& 63
  if dfs &&& 60 = 4 then
    let (mm, page) := getNextFreePage kernel.mm
    if page = 0 then
      ({ kernel with mm }, -1)
    else
      ({ kernel with mm := mapPage mm kernel.current (addr &&& pageMask) page }, 0)
  else
    (kernel, -1)

/-! ## Task switches -/

/-- `cpu_switch_to`: the registers go to the old task's `cpu_context` and come from the new
one's. -/
def cpuSwitchTo (kernel : Kernel) (prev next : Nat) : Kernel :=
  let memory := (List.range 13).foldl
    (fun memory index => (Task.cpuContext index).set memory prev (kernel.registers index))
    kernel.memory
  { kernel.setMemory memory with
    registers := fun index => (Task.cpuContext index).get memory next }

/-- `switch_to`. -/
def switchTo (kernel : Kernel) (next : Nat) : Kernel :=
  if kernel.current = next then kernel
  else
    cpuSwitchTo
      { kernel with current := next, ttbr0 := Task.pagedirectory.get kernel.memory next }
      kernel.current next

end PellOs

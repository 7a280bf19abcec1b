import PellOs.Scheduler.ContextRuns
import PellOs.Scheduler.ForkFrame

/-!
# Nested exceptions

Exceptions come while a user program or the kernel runs, and nest on the kernel stack of their task.
System calls let other tasks run, which have exceptions of their own.  Whatever happens in between,
an exception that returns leaves the registers as it has found them, save that a system call puts
its result into `x0`.
-/

namespace PellOs

open A64

/-! ## Returns into the kernel -/

/-- `pop_regs 1` sets the registers to the words of the frame and leaves the stack pointer of EL0
alone. -/
theorem run_popRegs_kernel {cpu : Cpu} (fits : cpu.sp.toNat + sFrameSize < 2 ^ 64) :
    ptRegs 1 (cpu.run (popRegs 1)) =
        (poppedFrame cpu).set 31 (cpu.sp + BitVec.ofNat 64 sFrameSize) ∧
      (cpu.run (popRegs 1)).sp.toNat = cpu.sp.toNat + sFrameSize ∧
      (cpu.run (popRegs 1)).memory = cpu.memory := by
  simp only [sFrameSize] at fits
  have offset : ∀ amount < 272, (cpu.sp + BitVec.ofNat 64 amount).toNat = cpu.sp.toNat + amount :=
    fun amount small => Cpu.toNat_add_ofNat (by omega)
  let system : List Instr := [.ldp .x22 .x23 256, .ldp .x30 .x21 240, .msr .elrEl1 .x22,
    .msr .spsrEl1 .x23]
  have split : popRegs 1 = system ++ (Cpu.ldpAll pairedRegs 0 ++ [Instr.addSp 272]) := rfl
  let word (index : Nat) : Word := loadWord cpu.memory (cpu.sp.toNat + 8 * index)
  let loaded : Cpu :=
    { cpu with
      x := Cpu.setAll cpu.x [.x22, .x23, .x30, .x21] [word 32, word 33, word 30, word 31]
      sys := Function.update (Function.update cpu.sys .elrEl1 (word 32)) .spsrEl1 (word 33) }
  have top : cpu.run system = loaded := by
    have high : (cpu.sp + BitVec.ofNat 64 256).toNat = cpu.sp.toNat + 256 := offset 256 (by decide)
    have low : (cpu.sp + BitVec.ofNat 64 240).toNat = cpu.sp.toNat + 240 := offset 240 (by decide)
    rw [show system = _ from rfl, Cpu.run_cons, Cpu.exec, Cpu.loadPair_eq (by omega), high,
      Cpu.run_cons, Cpu.exec, Cpu.loadPair_eq (by dsimp only; omega)]
    dsimp only
    rw [low]
    rfl
  have rest : loaded.run (Cpu.ldpAll pairedRegs 0) = _ :=
    Cpu.run_ldpAll (by decide) (by
      simp only [pairedRegs, List.length_cons, List.length_nil]
      change cpu.sp.toNat + 0 + 8 * 30 < 2 ^ 64
      omega)
  rw [split, Cpu.run_append, top, Cpu.run_append, rest]
  refine ⟨?_, Cpu.toNat_add_ofNat fits, rfl⟩
  have pairs := @Cpu.map_setAll loaded.x pairedRegs (loadWords cpu.memory cpu.sp.toNat 30)
    (by decide) (length_loadWords _ _ _).symm
  have link : Cpu.setAll loaded.x pairedRegs (loadWords cpu.memory (cpu.sp.toNat + 0) 30) .x30 =
      word 30 := Cpu.setAll_of_notMem (by decide)
  rw [poppedFrame, show 34 = 30 + 4 from rfl, loadWords_add, ptRegs,
    List.set_append_right _ _ (by rw [length_loadWords]; decide)]
  refine congrArg₂ List.append pairs ?_
  rw [length_loadWords]
  exact congrArg₂ List.cons link rfl

/-! ## The core -/

/-- End of the members of `task_struct`; the stack of a task must not grow below. -/
def taskStructEnd : Nat := 576

/-- The registers that an exception has saved on the kernel stack. -/
structure Saved where
  /-- The exception level that has been interrupted. -/
  el : Nat
  /-- Address of the `task_pt_regs`. -/
  frame : Nat

/-- A core and its tasks, each with the exceptions that it is still to return from, latest first. -/
structure Core where
  cpu : Cpu
  /-- `current`. -/
  current : Nat
  /-- The core is in EL0. -/
  user : Bool
  /-- The tasks by their addresses. -/
  tasks : List Nat
  /-- The kernel stack of a task lies between these addresses. -/
  stackLow : Nat → Nat
  stackTop : Nat → Nat
  saved : Nat → List Saved

/-- `str x0, [sp, #S_X0]`. -/
def storeResult (cpu : Cpu) : Cpu :=
  { cpu with memory := storeWord cpu.memory cpu.sp.toNat (cpu.x .x0) }

namespace Core

/-- The exception level that code runs at. -/
def el (core : Core) : Nat := if core.user then 0 else 1

/-- An exception and `push_regs`. -/
def trap (core : Core) (elr spsr : Word) : Core :=
  { core with
    cpu := (takeException core.cpu elr spsr).run (pushRegs core.el)
    user := false
    saved := Function.update core.saved core.current
      (⟨core.el, core.cpu.sp.toNat - sFrameSize⟩ :: core.saved core.current) }

/-- `pop_regs` and `eret`. -/
def ret (core : Core) (el : Nat) : Core :=
  { core with
    cpu := core.cpu.run (popRegs el)
    user := el = 0
    saved := Function.update core.saved core.current (core.saved core.current).tail }

/-- `ret_from_syscall` after `disable_irq`. -/
def retFromSyscall (core : Core) : Core := { core with cpu := storeResult core.cpu }.ret 0

/-- `switch_to` another task. -/
def switch (core : Core) (next : Nat) : Core :=
  { core with cpu := callCpuSwitchTo core.cpu core.current next, current := next }

/-- A fork has made the task in a page.  A user process starts as if it were to return from the
system call of its parent. -/
def fork (core : Core) (index cloneFlags : Nat) (cpu : Cpu) : Core :=
  { core with
    cpu
    tasks := kernelAdr index :: core.tasks
    stackLow := Function.update core.stackLow (kernelAdr index) (kernelAdr index + taskStructEnd)
    stackTop := Function.update core.stackTop (kernelAdr index) (kernelAdr index + pageSize)
    saved := Function.update core.saved (kernelAdr index)
      (if cloneFlags &&& taskFlagsKernelThread ≠ 0 then []
      else [⟨0, getTaskPtRegs (kernelAdr index)⟩]) }

/-- The bytes in which a task that is not current or an interrupted program is saved. -/
def Guarded (core : Core) (address : Nat) : Prop :=
  ∃ task ∈ core.tasks,
    (task ≠ core.current ∧ task ≤ address ∧ address < task + sizeofCpuContext) ∨
      ∃ saved ∈ core.saved task, saved.frame ≤ address ∧ address < saved.frame + sizeofPtRegs

/-- The stack of the current task is below what is saved there already, and leaves room for one more
`task_pt_regs`. -/
structure HasRoom (core : Core) : Prop where
  bottom : core.stackLow core.current + sFrameSize ≤ core.cpu.sp.toNat
  top : core.cpu.sp.toNat ≤ core.stackTop core.current
  below : ∀ saved ∈ core.saved core.current, core.cpu.sp.toNat ≤ saved.frame

/-- Kernel code may switch to another task. -/
structure CanSwitch (core : Core) (next : Nat) : Prop where
  kernel : core.user = false
  known : next ∈ core.tasks
  other : next ≠ core.current

/-- The handler of the latest exception is done, and the stack is back at its frame. -/
structure CanReturn (core : Core) (saved : Saved) (rest : List Saved) : Prop where
  kernel : core.user = false
  latest : core.saved core.current = saved :: rest
  stack : core.cpu.sp.toNat = saved.frame

end Core

/-- A call of `kernel_fork` that finds its pages, on a kernel whose tasks include those of the
core. -/
structure CoreFork (image : Image) (core : Core) (cloneFlags fn args index : Nat)
    (memory : Memory) (kernel : Kernel) (owner : Nat → Option PageRole) (parent : Nat) : Prop where
  privileged : core.user = false
  same : kernel.memory = core.cpu.memory ∧ kernel.current = core.current
  roles : PageRoles image kernel.mm kernel.taskArray kernel.nTasks owner
  known : parent < kernel.nTasks
  current : kernel.current = kernel.taskArray parent
  listed : ∀ {task}, task ∈ core.tasks → ∃ pid < kernel.nTasks, kernel.taskArray pid = task
  room : kernel.nTasks < nTasksMax
  few : Task.userpagesCount.get kernel.memory kernel.current ≤ maxProcessPages
  enough : forkPages kernel cloneFlags ≤ freeCount kernel.mm
  small : cloneFlags < wordSize
  call : ∃ after, kernelFork image kernel cloneFlags fn args = some (after, kernel.nTasks) ∧
    after.memory = memory ∧ after.taskArray kernel.nTasks = kernelAdr index

/-- A step of the core. -/
inductive CoreStep (image : Image) (core : Core) : Core → Prop
  /-- Any code of the current task, at its exception level. -/
  | work (cpu : Cpu)
      (kept : ∀ {address}, core.Guarded address →
        cpu.memory address = core.cpu.memory address)
      (stack : core.user = true → cpu.sp = core.cpu.sp) :
      CoreStep image core { core with cpu }
  | trap (elr spsr : Word) (room : core.user = false → core.HasRoom) :
      CoreStep image core (core.trap elr spsr)
  | ret {saved : Saved} {rest : List Saved} (can : core.CanReturn saved rest) :
      CoreStep image core (core.ret saved.el)
  | retFromSyscall {frame : Nat} {rest : List Saved} (can : core.CanReturn ⟨0, frame⟩ rest) :
      CoreStep image core core.retFromSyscall
  /-- A kernel thread, which runs on its own page, enters EL0 for the first time. -/
  | start (kernel : core.user = false) (nothing : core.saved core.current = [])
      (own : core.stackTop core.current = core.current + pageSize)
      (stack : core.cpu.sp.toNat = getTaskPtRegs core.current) :
      CoreStep image core (core.ret 0)
  | switch {next : Nat} (can : core.CanSwitch next) : CoreStep image core (core.switch next)
  | fork {cloneFlags fn args index : Nat} (cpu : Cpu) {kernel : Kernel}
      {owner : Nat → Option PageRole} {parent : Nat}
      (call : CoreFork image core cloneFlags fn args index cpu.memory kernel owner parent) :
      CoreStep image core (core.fork index cloneFlags cpu)

/-- The steps of a run. -/
def CoreRun (image : Image) : Core → Core → Prop := Relation.ReflTransGen (CoreStep image)

/-- The steps of a run all of which lead where a condition holds. -/
def CoreRunWhile (image : Image) (condition : Core → Prop) : Core → Core → Prop :=
  Relation.ReflTransGen fun before after => CoreStep image before after ∧ condition after

/-! ## The invariant -/

/-- Every task has a `task_struct` and a kernel stack of its own.  The stack is in the page of the
task, or in the kernel image. -/
structure Placed (image : Image) (core : Core) : Prop where
  current : core.current ∈ core.tasks
  fits : ∀ {task}, task ∈ core.tasks → task + 2 * pageSize ≤ wordSize
  contexts : ∀ {left right}, left ∈ core.tasks → right ∈ core.tasks → left ≠ right →
    left + sizeofCpuContext ≤ right ∨ right + sizeofCpuContext ≤ left
  regions : ∀ {left right}, left ∈ core.tasks → right ∈ core.tasks → left ≠ right →
    core.stackTop left ≤ core.stackLow right ∨ core.stackTop right ≤ core.stackLow left
  apart : ∀ {left right}, left ∈ core.tasks → right ∈ core.tasks →
    left + sizeofCpuContext ≤ core.stackLow right ∨ core.stackTop right ≤ left
  deep : ∀ {task}, task ∈ core.tasks → core.stackLow task + sFrameSize ≤ core.stackTop task
  homes : ∀ {task}, task ∈ core.tasks →
    task ≤ core.stackLow task ∧ core.stackTop task ≤ task + pageSize ∨
      image.initTask + taskSize ≤ core.stackLow task ∧
        core.stackTop task ≤ virtualAddressStart + lowMemory

/-- The saved registers of a task lie on its stack, one above the other.  Those of a user program
end where the page of the task ends. -/
structure SavedOn (task low top : Nat) (list : List Saved) : Prop where
  inside : ∀ saved ∈ list, low ≤ saved.frame ∧ saved.frame + sizeofPtRegs ≤ top
  nested : list.Pairwise fun inner outer => inner.frame + sizeofPtRegs ≤ outer.frame
  outermost : ∀ saved ∈ list, saved.el = 0 →
    saved.frame + sizeofPtRegs = task + pageSize ∧ top = task + pageSize

/-- The saved registers of all tasks are in place.  A user program has nothing on its kernel
stack. -/
structure CoreInv (image : Image) (core : Core) : Prop where
  placed : Placed image core
  on : ∀ {task}, task ∈ core.tasks →
    SavedOn task (core.stackLow task) (core.stackTop task) (core.saved task)
  user : core.user = true → core.cpu.sp.toNat = core.current + pageSize ∧
    core.stackTop core.current = core.current + pageSize ∧ core.saved core.current = []

namespace SavedOn

variable {task low top : Nat} {list : List Saved}

theorem nil (task low top : Nat) : SavedOn task low top [] where
  inside _ member := by cases member
  nested := List.Pairwise.nil
  outermost _ member := by cases member

theorem tail (on : SavedOn task low top list) : SavedOn task low top list.tail where
  inside _ member := on.inside _ (List.mem_of_mem_tail member)
  nested := on.nested.tail
  outermost _ member := on.outermost _ (List.mem_of_mem_tail member)

theorem cons (on : SavedOn task low top list) {saved : Saved}
    (inside : low ≤ saved.frame ∧ saved.frame + sizeofPtRegs ≤ top)
    (below : ∀ outer ∈ list, saved.frame + sizeofPtRegs ≤ outer.frame)
    (user : saved.el = 0 → saved.frame + sizeofPtRegs = task + pageSize ∧ top = task + pageSize) :
    SavedOn task low top (saved :: list) where
  inside := List.forall_mem_cons.mpr ⟨inside, on.inside⟩
  nested := List.pairwise_cons.mpr ⟨below, on.nested⟩
  outermost := List.forall_mem_cons.mpr ⟨user, on.outermost⟩

/-- The saved registers of a user program are alone on the stack. -/
theorem eq_nil_of_user {saved : Saved} (on : SavedOn task low top (saved :: list))
    (user : saved.el = 0) : list = [] := by
  cases list with
  | nil => rfl
  | cons outer rest =>
      have above := (List.pairwise_cons.mp on.nested).1 outer List.mem_cons_self
      obtain ⟨-, fits⟩ := on.inside outer (by simp)
      obtain ⟨edge, same⟩ := on.outermost saved List.mem_cons_self user
      simp only [sizeofPtRegs] at above fits edge
      omega

end SavedOn

/-- Tasks that have not taken an exception yet, one of which runs in the kernel. -/
structure CoreStarted (image : Image) (core : Core) : Prop where
  placed : Placed image core
  kernel : core.user = false
  idle : ∀ task, core.saved task = []

theorem CoreStarted.inv {image : Image} {core : Core} (started : CoreStarted image core) :
    CoreInv image core where
  placed := started.placed
  on {task} _ := by
    rw [started.idle]
    exact .nil _ _ _
  user user := by
    rw [started.kernel] at user
    cases user

/-! ## Forks -/

namespace CoreFork

variable {image : Image} {core : Core} {cloneFlags fn args index parent : Nat} {memory : Memory}
  {kernel : Kernel} {owner : Nat → Option PageRole}

/-- The page of the new task is not one of another task, and these keep their bytes. -/
theorem made
    (fork : CoreFork image core cloneFlags fn args index memory kernel owner parent) :
    index < mmNumOfPages ∧ ∀ {task}, task ∈ core.tasks →
      (task + pageSize ≤ kernelAdr index ∨ kernelAdr index + pageSize ≤ task) ∧
        core.cpu.memory.AgreeOn memory task pageSize := by
  obtain ⟨after, result, rfl, new⟩ := fork.call
  obtain ⟨page, grown, -, made⟩ := kernelFork_made fork.roles fork.known fork.current fork.room
    fork.few fork.enough result
  have forked := made.forked
  rw [forked.taskArray, withTask_new] at new
  obtain rfl := kernelAdr_injective new
  refine ⟨forked.fresh.1, fun {task} known => ?_⟩
  obtain ⟨pid, bound, rfl⟩ := fork.listed known
  rw [← fork.same.1]
  have apart := forked.roles.tasks_apart (by rw [forked.nTasks]; omega)
    (by rw [forked.nTasks]; exact Nat.lt_succ_self _) (Nat.ne_of_lt bound)
  rw [forked.taskArray, withTask_new, withTask_old kernel page bound] at apart
  exact ⟨apart, forked.other_tasks bound⟩

theorem stack_apart
    (fork : CoreFork image core cloneFlags fn args index memory kernel owner parent)
    (placed : Placed image core) {task : Nat} (known : task ∈ core.tasks) :
    core.stackTop task ≤ kernelAdr index ∨ kernelAdr index + pageSize ≤ core.stackLow task := by
  obtain ⟨inside, others⟩ := fork.made
  have apart := (others known).1
  have range := kernelAdr_range inside
  rcases placed.homes known with ⟨low, top⟩ | ⟨-, top⟩
  · omega
  · omega

theorem stack_kept
    (fork : CoreFork image core cloneFlags fn args index memory kernel owner parent)
    (placed : Placed image core) {task address : Nat} (known : task ∈ core.tasks)
    (lower : core.stackLow task ≤ address) (upper : address < core.stackTop task) :
    memory address = core.cpu.memory address := by
  rcases placed.homes known with ⟨low, top⟩ | ⟨low, top⟩
  · exact (fork.made.2 known).2 address (by omega) (by omega)
  · obtain ⟨after, result, rfl, -⟩ := fork.call
    rw [kernelFork_image fork.roles fork.known fork.current fork.few fork.enough result
      ⟨by omega, Or.inl (by omega)⟩, fork.same.1]

end CoreFork

/-! ## Steps -/

section Steps

variable {image : Image} {before after : Core}

namespace CoreInv

theorem hasRoom (inv : CoreInv image before) (room : before.user = false → before.HasRoom) :
    before.HasRoom := by
  cases mode : before.user with
  | false => exact room mode
  | true =>
      obtain ⟨stack, top, nothing⟩ := inv.user mode
      refine ⟨?_, ?_, fun saved member => ?_⟩
      · rw [stack, ← top]
        exact inv.placed.deep inv.placed.current
      · rw [stack, top]
      · rw [nothing] at member
        cases member

theorem stackTop_lt (inv : CoreInv image before) {task : Nat} (known : task ∈ before.tasks) :
    before.stackTop task < 2 ^ 64 := by
  have fits := inv.placed.fits known
  simp only [pageSize] at fits
  change _ ≤ 2 ^ 64 at fits
  rcases inv.placed.homes known with ⟨-, top⟩ | ⟨-, top⟩
  · simp only [pageSize] at top
    omega
  · exact lt_of_le_of_lt top (by decide)

theorem run_trap (inv : CoreInv image before) (elr spsr : Word)
    (room : before.user = false → before.HasRoom) :
    (before.trap elr spsr).cpu.sp.toNat = before.cpu.sp.toNat - sFrameSize ∧
      (before.trap elr spsr).cpu.memory =
        storeWords before.cpu.memory (before.cpu.sp.toNat - sFrameSize)
          (ptRegs before.el (takeException before.cpu elr spsr)) := by
  have bottom := (inv.hasRoom room).bottom
  have pushed := @run_pushRegs before.el (takeException before.cpu elr spsr) (by
    change sFrameSize ≤ before.cpu.sp.toNat
    omega)
  exact pushed

theorem cpuSwitchTo_fits (inv : CoreInv image before) {task : Nat} (known : task ∈ before.tasks) :
    task + 104 < 2 ^ 64 := by
  have fits := inv.placed.fits known
  simp only [pageSize] at fits
  change _ ≤ 2 ^ 64 at fits
  omega

theorem memory_switch (inv : CoreInv image before) {next : Nat} (can : before.CanSwitch next) :
    (before.switch next).cpu.memory =
      storeWords before.cpu.memory before.current (cpuContext before.cpu) :=
  (run_callCpuSwitchTo (inv.cpuSwitchTo_fits inv.placed.current)
    (inv.cpuSwitchTo_fits can.known)).1

end CoreInv

theorem memory_ret (core : Core) (el : Nat) : (core.ret el).cpu.memory = core.cpu.memory := by
  apply Cpu.memory_run_of_not_stores
  unfold popRegs
  split_ifs <;> decide

/-- The latest exception of the current task has its frame on the stack. -/
theorem CoreInv.latest (inv : CoreInv image before) {saved : Saved} {rest : List Saved}
    (can : before.CanReturn saved rest) :
    SavedOn before.current (before.stackLow before.current) (before.stackTop before.current)
      (saved :: rest) := by
  have on := inv.on inv.placed.current
  rwa [can.latest] at on

theorem sp_ret {core : Core} (fits : core.cpu.sp.toNat + sFrameSize < 2 ^ 64) (el : Nat) :
    (core.ret el).cpu.sp.toNat = core.cpu.sp.toNat + sFrameSize := by
  by_cases user : el = 0
  · rw [user]
    exact (run_popRegs fits).2.1
  · have code : popRegs el = popRegs 1 := by simp [popRegs, user]
    change (core.cpu.run (popRegs el)).sp.toNat = _
    rw [code]
    exact (run_popRegs_kernel fits).2.1

theorem CoreInv.return_fits (inv : CoreInv image before) {saved : Saved} {rest : List Saved}
    (can : before.CanReturn saved rest) : before.cpu.sp.toNat + sFrameSize < 2 ^ 64 := by
  obtain ⟨-, inside⟩ := (inv.latest can).inside saved List.mem_cons_self
  rw [can.stack]
  exact lt_of_le_of_lt inside (inv.stackTop_lt inv.placed.current)

theorem CoreStep.known (step : CoreStep image before after) {task : Nat}
    (known : task ∈ before.tasks) : task ∈ after.tasks := by
  cases step with
  | fork cpu call => exact List.mem_cons_of_mem _ known
  | _ => exact known

theorem CoreStep.keeps_context (step : CoreStep image before after) (inv : CoreInv image before)
    {task : Nat} (known : task ∈ before.tasks) (away : before.current ≠ task) :
    before.cpu.memory.AgreeOn after.cpu.memory task sizeofCpuContext := by
  have apart := inv.placed.apart known inv.placed.current
  have contexts := inv.placed.contexts known inv.placed.current away.symm
  intro address lower upper
  cases step with
  | work cpu kept stack => exact kept ⟨task, known, Or.inl ⟨away.symm, lower, upper⟩⟩
  | trap elr spsr room =>
      obtain ⟨bottom, top, -⟩ := inv.hasRoom room
      rw [(inv.run_trap elr spsr room).2]
      apply storeWords_outside
      rw [length_ptRegs]
      simp only [sFrameSize] at bottom ⊢
      omega
  | ret can => rw [memory_ret]
  | @retFromSyscall frame rest can =>
      obtain ⟨bottom, top⟩ := (inv.latest can).inside ⟨0, frame⟩ List.mem_cons_self
      have stack := can.stack
      simp only [sizeofPtRegs] at bottom top stack
      rw [Core.retFromSyscall, memory_ret]
      apply Memory.write_outside
      rw [stack]
      omega
  | start kernel nothing own stack => rw [memory_ret]
  | switch can =>
      rw [inv.memory_switch can]
      apply storeWords_outside
      rw [length_cpuContext]
      simp only [sizeofCpuContext] at contexts upper
      omega
  | fork cpu call =>
      refine (call.made.2 known).2 address lower (lt_of_lt_of_le upper ?_)
      simp only [sizeofCpuContext, pageSize]
      omega

/-- No step changes the saved registers of an exception that has not returned afterwards. -/
theorem CoreStep.keeps_frame (step : CoreStep image before after) (inv : CoreInv image before)
    {task : Nat} (known : task ∈ before.tasks) {saved : Saved} {rest : List Saved}
    (earlier : saved :: rest <:+ before.saved task) (later : saved :: rest <:+ after.saved task) :
    before.cpu.memory.AgreeOn after.cpu.memory saved.frame sizeofPtRegs := by
  have member : saved ∈ before.saved task := earlier.subset List.mem_cons_self
  obtain ⟨low, high⟩ := (inv.on known).inside saved member
  have regions := inv.placed.regions known inv.placed.current
  have apart := inv.placed.apart inv.placed.current known
  intro address lower upper
  cases step with
  | work cpu kept stack => exact kept ⟨task, known, Or.inr ⟨saved, member, lower, upper⟩⟩
  | trap elr spsr room =>
      obtain ⟨bottom, top, below⟩ := inv.hasRoom room
      rw [(inv.run_trap elr spsr room).2]
      apply storeWords_outside
      rw [length_ptRegs]
      simp only [sFrameSize] at bottom ⊢
      by_cases same : task = before.current
      · have above := below saved (same ▸ member)
        omega
      · have other := regions same
        omega
  | ret can => rw [memory_ret]
  | @retFromSyscall frame rest can =>
      obtain ⟨bottom, top⟩ := (inv.latest can).inside ⟨0, frame⟩ List.mem_cons_self
      have stack := can.stack
      simp only [sizeofPtRegs] at bottom top stack
      rw [Core.retFromSyscall, memory_ret]
      apply Memory.write_outside
      rw [stack]
      by_cases same : task = before.current
      · -- The frame of the system call itself is not saved any more.
        subst same
        have nested := List.pairwise_cons.mp (inv.latest can).nested
        change _ <:+ Function.update before.saved before.current _ before.current at later
        rw [Function.update_self, can.latest] at later
        have above := nested.1 saved (later.subset List.mem_cons_self)
        simp only [sizeofPtRegs] at above
        omega
      · have other := regions same
        omega
  | start kernel nothing own stack => rw [memory_ret]
  | switch can =>
      rw [inv.memory_switch can]
      apply storeWords_outside
      rw [length_cpuContext]
      simp only [sizeofCpuContext] at apart
      omega
  | fork cpu call =>
      exact call.stack_kept inv.placed known (by omega) (by omega)

theorem CoreFork.placed {cloneFlags fn args index parent : Nat} {memory : Memory}
    {kernel : Kernel} {owner : Nat → Option PageRole} (cpu : Cpu)
    (fork : CoreFork image before cloneFlags fn args index memory kernel owner parent)
    (placed : Placed image before) : Placed image (before.fork index cloneFlags cpu) := by
  obtain ⟨inside, others⟩ := fork.made
  have old {task : Nat} (known : task ∈ before.tasks) : task ≠ kernelAdr index := by
    rintro rfl
    have apart := (others known).1
    simp only [pageSize] at apart
    omega
  have small : sizeofCpuContext < taskStructEnd ∧ taskStructEnd + sFrameSize ≤ pageSize := by decide
  simp only [sizeofCpuContext, sFrameSize] at small
  refine ⟨List.mem_cons_of_mem _ placed.current, ?_, ?_, ?_, ?_, ?_, ?_⟩
  · intro task known
    rcases List.mem_cons.mp known with rfl | known
    · exact (kernelAdr_range inside).2
    · exact placed.fits known
  · intro left right left_known right_known differ
    rcases List.mem_cons.mp left_known with rfl | left_known <;>
      rcases List.mem_cons.mp right_known with rfl | right_known
    · exact absurd rfl differ
    · have apart := (others right_known).1
      simp only [sizeofCpuContext]
      omega
    · have apart := (others left_known).1
      simp only [sizeofCpuContext]
      omega
    · exact placed.contexts left_known right_known differ
  · intro left right left_known right_known differ
    rcases List.mem_cons.mp left_known with rfl | left_known <;>
      rcases List.mem_cons.mp right_known with rfl | right_known
    · exact absurd rfl differ
    · have apart := fork.stack_apart placed right_known
      simp only [Core.fork, Function.update_self, Function.update_of_ne (old right_known)]
      omega
    · have apart := fork.stack_apart placed left_known
      simp only [Core.fork, Function.update_self, Function.update_of_ne (old left_known)]
      omega
    · simp only [Core.fork, Function.update_of_ne (old left_known),
        Function.update_of_ne (old right_known)]
      exact placed.regions left_known right_known differ
  · intro left right left_known right_known
    rcases List.mem_cons.mp right_known with rfl | right_known
    · simp only [Core.fork, Function.update_self, sizeofCpuContext]
      rcases List.mem_cons.mp left_known with rfl | left_known
      · omega
      · have apart := (others left_known).1
        omega
    · simp only [Core.fork, Function.update_of_ne (old right_known)]
      rcases List.mem_cons.mp left_known with rfl | left_known
      · have apart := fork.stack_apart placed right_known
        simp only [sizeofCpuContext]
        omega
      · exact placed.apart left_known right_known
  · intro task known
    rcases List.mem_cons.mp known with rfl | known
    · simp only [Core.fork, Function.update_self, sFrameSize]
      omega
    · simp only [Core.fork, Function.update_of_ne (old known)]
      exact placed.deep known
  · intro task known
    rcases List.mem_cons.mp known with rfl | known
    · simp only [Core.fork, Function.update_self]
      omega
    · simp only [Core.fork, Function.update_of_ne (old known)]
      exact placed.homes known

theorem Placed.of_eq (placed : Placed image before) (tasks : after.tasks = before.tasks)
    (low : after.stackLow = before.stackLow) (top : after.stackTop = before.stackTop)
    (current : after.current ∈ before.tasks) : Placed image after := by
  obtain ⟨-, fits, contexts, regions, apart, deep, homes⟩ := placed
  rw [← tasks, ← low, ← top] at *
  exact ⟨current, fits, contexts, regions, apart, deep, homes⟩

theorem CoreStep.placed (step : CoreStep image before after) (placed : Placed image before) :
    Placed image after := by
  cases step with
  | switch can => exact placed.of_eq rfl rfl rfl can.known
  | fork cpu call => exact call.placed cpu placed
  | _ => exact placed.of_eq rfl rfl rfl placed.current

/-- The frame of an exception is below what the task has saved already. -/
theorem CoreInv.on_trap (inv : CoreInv image before) (elr spsr : Word)
    (room : before.user = false → before.HasRoom) {task : Nat} (known : task ∈ before.tasks) :
    SavedOn task (before.stackLow task) (before.stackTop task)
      ((before.trap elr spsr).saved task) := by
  by_cases same : task = before.current
  · subst same
    obtain ⟨bottom, top, below⟩ := inv.hasRoom room
    simp only [sFrameSize] at bottom
    simp only [Core.trap, Function.update_self]
    refine (inv.on known).cons ?_ (fun outer member => ?_) fun user => ?_
    · simp only [sFrameSize, sizeofPtRegs]
      omega
    · have above := below outer member
      simp only [sFrameSize, sizeofPtRegs]
      omega
    · have mode : before.user = true := by
        by_contra kernel
        simp [Core.el, kernel] at user
      obtain ⟨stack, edge, -⟩ := inv.user mode
      refine ⟨?_, edge⟩
      simp only [sFrameSize, sizeofPtRegs]
      omega
  · simp only [Core.trap, Function.update_of_ne same]
    exact inv.on known

theorem CoreInv.on_tail (inv : CoreInv image before) {task : Nat} (known : task ∈ before.tasks) :
    SavedOn task (before.stackLow task) (before.stackTop task)
      (Function.update before.saved before.current (before.saved before.current).tail task) := by
  by_cases same : task = before.current
  · rw [same, Function.update_self]
    exact (inv.on inv.placed.current).tail
  · rw [Function.update_of_ne same]
    exact inv.on known

theorem CoreInv.return_user (inv : CoreInv image before) {saved : Saved} {rest : List Saved}
    (can : before.CanReturn saved rest) (user : saved.el = 0) :
    before.cpu.sp.toNat + sFrameSize = before.current + pageSize ∧
      before.stackTop before.current = before.current + pageSize ∧
      Function.update before.saved before.current (before.saved before.current).tail
        before.current = [] := by
  obtain ⟨edge, top⟩ := (inv.latest can).outermost saved List.mem_cons_self user
  rw [Function.update_self, can.latest, can.stack]
  exact ⟨edge, top, (inv.latest can).eq_nil_of_user user⟩

/-- A forked user process has its saved registers at the end of its page. -/
theorem CoreFork.on {cloneFlags fn args index parent : Nat} {cpu : Cpu}
    {kernel : Kernel} {owner : Nat → Option PageRole}
    (fork : CoreFork image before cloneFlags fn args index cpu.memory kernel owner parent)
    (inv : CoreInv image before) {task : Nat} (known : task ∈ kernelAdr index :: before.tasks) :
    SavedOn task ((before.fork index cloneFlags cpu).stackLow task)
      ((before.fork index cloneFlags cpu).stackTop task)
      ((before.fork index cloneFlags cpu).saved task) := by
  obtain ⟨inside, others⟩ := fork.made
  rcases List.mem_cons.mp known with rfl | known
  · simp only [Core.fork, Function.update_self]
    split_ifs
    · exact .nil _ _ _
    · have page := getTaskPtRegs_eq (kernelAdr_range inside).2
      refine (SavedOn.nil _ _ _).cons ?_ (fun outer member => by cases member) fun _ => ?_
      · simp only [page, taskStructEnd, sizeofPtRegs, pageSize]
        omega
      · simp only [page, sizeofPtRegs, pageSize, and_self]
  · have differ : task ≠ kernelAdr index := by
      rintro rfl
      have apart := (others known).1
      simp only [pageSize] at apart
      omega
    simp only [Core.fork, Function.update_of_ne differ]
    exact inv.on known

theorem CoreStep.inv (step : CoreStep image before after) (inv : CoreInv image before) :
    CoreInv image after := by
  have placed := step.placed inv.placed
  cases step with
  | work cpu kept stack =>
      refine ⟨placed, inv.on, fun user => ?_⟩
      dsimp only
      rw [stack user]
      exact inv.user user
  | trap elr spsr room => exact ⟨placed, inv.on_trap elr spsr room, fun user => by cases user⟩
  | ret can =>
      refine ⟨placed, inv.on_tail, fun user => ?_⟩
      obtain ⟨edge, empty⟩ := inv.return_user can (of_decide_eq_true user)
      exact ⟨(sp_ret (inv.return_fits can) _).trans edge, empty⟩
  | @retFromSyscall frame rest can =>
      refine ⟨placed, inv.on_tail, fun _ => ?_⟩
      obtain ⟨edge, empty⟩ := inv.return_user can rfl
      have stored := @sp_ret { before with cpu := storeResult before.cpu } (inv.return_fits can) 0
      exact ⟨Eq.trans stored edge, empty⟩
  | start kernel nothing own stack =>
      refine ⟨placed, inv.on_tail, fun _ => ⟨?_, own, ?_⟩⟩
      · have fits := inv.placed.fits inv.placed.current
        have frame := getTaskPtRegs_eq fits
        simp only [pageSize] at fits
        change _ ≤ 2 ^ 64 at fits
        rw [frame] at stack
        have leaves := @sp_ret before (by rw [stack, sFrameSize]; omega) 0
        rw [stack, sFrameSize] at leaves
        exact leaves
      · change Function.update before.saved before.current _ before.current = []
        rw [Function.update_self, nothing]
  | switch can =>
      refine ⟨placed, inv.on, fun user => ?_⟩
      exact absurd (can.kernel.symm.trans user) (by decide)
  | fork cpu call =>
      refine ⟨placed, fun known => call.on inv known, fun user => ?_⟩
      exact absurd (call.privileged.symm.trans user) (by decide)

theorem CoreRun.inv (run : CoreRun image before after) (inv : CoreInv image before) :
    CoreInv image after := by
  induction run with
  | refl => exact inv
  | tail _ step ih => exact step.inv ih

/-- While an exception has not returned, the registers that it has saved stay the same. -/
theorem CoreRunWhile.keeps_frame {task : Nat} {saved : Saved} {rest : List Saved}
    (run : CoreRunWhile image (fun later => saved :: rest <:+ later.saved task) before after)
    (inv : CoreInv image before) (known : task ∈ before.tasks)
    (start : saved :: rest <:+ before.saved task) :
    before.cpu.memory.AgreeOn after.cpu.memory saved.frame sizeofPtRegs ∧ CoreInv image after ∧
      task ∈ after.tasks := by
  suffices before.cpu.memory.AgreeOn after.cpu.memory saved.frame sizeofPtRegs ∧
      CoreInv image after ∧ task ∈ after.tasks ∧ saved :: rest <:+ after.saved task from
    ⟨this.1, this.2.1, this.2.2.1⟩
  induction run with
  | refl => exact ⟨Memory.AgreeOn.refl _ _ _, inv, known, start⟩
  | tail _ step ih =>
      obtain ⟨agree, inv, known, nested⟩ := ih
      exact ⟨agree.trans (step.1.keeps_frame inv known nested step.2), step.1.inv inv,
        step.1.known known, step.2⟩

theorem CoreRunWhile.keeps_context {task : Nat}
    (run : CoreRunWhile image (fun later => later.current ≠ task) before after)
    (inv : CoreInv image before) (known : task ∈ before.tasks) (away : before.current ≠ task) :
    before.cpu.memory.AgreeOn after.cpu.memory task sizeofCpuContext ∧ CoreInv image after ∧
      task ∈ after.tasks := by
  suffices before.cpu.memory.AgreeOn after.cpu.memory task sizeofCpuContext ∧
      CoreInv image after ∧ task ∈ after.tasks ∧ after.current ≠ task from
    ⟨this.1, this.2.1, this.2.2.1⟩
  induction run with
  | refl => exact ⟨Memory.AgreeOn.refl _ _ _, inv, known, away⟩
  | tail _ step ih =>
      obtain ⟨agree, inv, known, away⟩ := ih
      exact ⟨agree.trans (step.1.keeps_context inv known away), step.1.inv inv,
        step.1.known known, step.2⟩

end Steps

/-! ## Transparency -/

/-- The exception that the current task takes, when it is still to return. -/
def Core.entered (core : Core) : Saved := ⟨core.el, core.cpu.sp.toNat - sFrameSize⟩

/-- After an exception has returned the registers are those that it has found, except that a system
call returns its result in `x0`. -/
def ExceptionTransparent (image : Image) (core : Core) : Prop :=
  ∀ elr spsr, (core.user = false → core.HasRoom) →
    ∀ {handled}, CoreRunWhile image
        (fun later => core.entered :: core.saved core.current <:+ later.saved core.current)
        (core.trap elr spsr) handled →
      handled.current = core.current →
      handled.CanReturn core.entered (core.saved core.current) →
        ptRegs core.el (handled.ret core.el).cpu =
          ptRegs core.el (takeException core.cpu elr spsr) ∧
          (core.user = true → ptRegs 0 handled.retFromSyscall.cpu =
            handled.cpu.x .x0 :: (ptRegs 0 (takeException core.cpu elr spsr)).tail)

/-- The registers with which a forked user process gets the core for the first time. -/
structure StartsUser (image : Image) (task : Nat) (cpu : Cpu) : Prop where
  pc : (cpu.x .x30).toNat = image.retFromFork % wordSize
  sp : cpu.sp.toNat = getTaskPtRegs task
  x19 : cpu.x .x19 = 0

/-- A user process that is forked in a system call starts in `ret_from_fork` and goes on with the
registers that its parent had at the call, except for zero in `x0`. -/
def ForkReturnsTwice (image : Image) (core : Core) : Prop :=
  ∀ elr spsr, core.user = true →
    ∀ {inside}, CoreRunWhile image
        (fun later => core.entered :: core.saved core.current <:+ later.saved core.current)
        (core.trap elr spsr) inside →
      inside.current = core.current →
      ∀ {cloneFlags fn args index cpu kernel owner parent},
        CoreFork image inside cloneFlags fn args index cpu.memory kernel owner parent →
        ¬cloneFlags &&& taskFlagsKernelThread ≠ 0 →
        (∀ {away}, CoreRunWhile image (fun later => later.current ≠ kernelAdr index)
            (inside.fork index cloneFlags cpu) away →
          away.CanSwitch (kernelAdr index) →
            StartsUser image (kernelAdr index) (away.switch (kernelAdr index)).cpu) ∧
          ∀ {handled}, CoreRunWhile image
              (fun later => [⟨0, getTaskPtRegs (kernelAdr index)⟩] <:+
                later.saved (kernelAdr index))
              (inside.fork index cloneFlags cpu) handled →
            handled.current = kernelAdr index →
            handled.CanReturn ⟨0, getTaskPtRegs (kernelAdr index)⟩ [] →
              ptRegs 0 (handled.ret 0).cpu =
                0 :: (ptRegs 0 (takeException core.cpu elr spsr)).tail

section Transparent

variable {image : Image} {start core : Core}

theorem poppedFrame_storeResult (cpu : Cpu) :
    poppedFrame (storeResult cpu) = cpu.x .x0 :: (poppedFrame cpu).tail :=
  loadWords_storeWord _ _ _ _

/-- The frame of an exception keeps the registers until the exception returns. -/
theorem CoreInv.trapped (inv : CoreInv image core) {elr spsr : Word}
    (room : core.user = false → core.HasRoom) {later : Core}
    (run : CoreRunWhile image
      (fun later => core.entered :: core.saved core.current <:+ later.saved core.current)
      (core.trap elr spsr) later) :
    loadWords later.cpu.memory core.entered.frame 34 =
        ptRegs core.el (takeException core.cpu elr spsr) ∧ CoreInv image later := by
  have step : CoreStep image core (core.trap elr spsr) := .trap elr spsr room
  have latest : core.entered :: core.saved core.current <:+
      (core.trap elr spsr).saved core.current := by
    simp only [Core.trap, Function.update_self]
    exact List.suffix_rfl
  obtain ⟨agree, later_inv, -⟩ :=
    run.keeps_frame (step.inv inv) (step.known inv.placed.current) latest
  refine ⟨?_, later_inv⟩
  rw [loadWords_congr agree, (inv.run_trap elr spsr room).2]
  exact loadWords_storeWords _ _ (ptRegs core.el (takeException core.cpu elr spsr))

theorem CoreInv.exceptionTransparent (inv : CoreInv image core) :
    ExceptionTransparent image core := by
  intro elr spsr room handled run same can
  obtain ⟨stored, handled_inv⟩ := inv.trapped room run
  have bottom := (inv.hasRoom room).bottom
  rw [← show handled.cpu.sp.toNat = core.entered.frame from can.stack] at stored
  change poppedFrame handled.cpu = _ at stored
  have fits := handled_inv.return_fits can
  cases mode : core.user with
  | true =>
      have level : core.el = 0 := by rw [Core.el, if_pos mode]
      rw [level] at stored ⊢
      refine ⟨(run_popRegs fits).1.trans stored, fun _ => ?_⟩
      have popped := @run_popRegs (storeResult handled.cpu) fits
      exact popped.1.trans ((poppedFrame_storeResult _).trans (by rw [stored]))
  | false =>
      have level : core.el = 1 := by simp [Core.el, mode]
      rw [level] at stored ⊢
      refine ⟨?_, fun user => by cases user⟩
      have stack : handled.cpu.sp + BitVec.ofNat 64 sFrameSize = core.cpu.sp := by
        apply BitVec.eq_of_toNat_eq
        rw [Cpu.toNat_add_ofNat fits, can.stack]
        simp only [Core.entered]
        omega
      rw [Core.ret, (run_popRegs_kernel fits).1, stored, stack]
      rfl

theorem CoreFork.child {cloneFlags fn args index parent : Nat} {cpu : Cpu} {kernel : Kernel}
    {owner : Nat → Option PageRole}
    (fork : CoreFork image core cloneFlags fn args index cpu.memory kernel owner parent)
    (fits : core.current + 2 * pageSize ≤ wordSize)
    (user : ¬cloneFlags &&& taskFlagsKernelThread ≠ 0) :
    (Task.cpuContext 0).get cpu.memory (kernelAdr index) = 0 ∧
      Task.pc.get cpu.memory (kernelAdr index) = image.retFromFork % wordSize ∧
      Task.sp.get cpu.memory (kernelAdr index) = getTaskPtRegs (kernelAdr index) ∧
      loadWords cpu.memory (getTaskPtRegs (kernelAdr index)) 34 =
        0 :: (loadWords core.cpu.memory (getTaskPtRegs core.current) 34).tail := by
  obtain ⟨inside, -⟩ := fork.made
  obtain ⟨after, result, same, new⟩ := fork.call
  have made := kernelFork_userChild fork.roles fork.known fork.current fork.few fork.small user
    fork.enough result
  rw [new] at made
  obtain ⟨regs, x19, pc, sp⟩ := made
  rw [same] at regs x19 pc sp
  rw [fork.same.1, fork.same.2] at regs
  have zero {address : Nat} (bytes : ∀ offset < 8, cpu.memory (address + offset) = 0) :
      cpu.memory.read address 8 = 0 := by
    refine Memory.read_zero fun target lower upper => ?_
    have byte := bytes (target - address) (by omega)
    rwa [Nat.add_sub_of_le lower] at byte
  have page := (kernelAdr_range inside).2
  refine ⟨?_, pc, sp, ?_⟩
  · rw [Field.get_eq (by simp only [pageSize, Task.cpuContext] at page ⊢; omega)]
    exact zero x19
  · rw [getTaskPtRegs_eq page, getTaskPtRegs_eq fits]
    have first := zero fun offset small => by
      rw [regs offset (by rw [sizeofPtRegs]; omega), if_pos small]
    change BitVec.ofNat 64 (cpu.memory.read _ 8) :: loadWords cpu.memory _ 33 =
      0 :: loadWords core.cpu.memory _ 33
    rw [first]
    refine congrArg _ (loadWords_shift fun offset small => ?_)
    have rest := regs (offset + 8) (by rw [sizeofPtRegs]; omega)
    rw [if_neg (by omega)] at rest
    exact (congrArg _ (by omega)).trans (rest.trans (congrArg _ (by omega)))

theorem CoreInv.forkReturnsTwice (inv : CoreInv image core) : ForkReturnsTwice image core := by
  intro elr spsr mode inside run same cloneFlags fn args index cpu kernel owner parent call user
  have room : core.user = false → core.HasRoom := fun kernel =>
    absurd (kernel.symm.trans mode) (by decide)
  obtain ⟨stored, inside_inv⟩ := inv.trapped room run
  have step : CoreStep image inside (inside.fork index cloneFlags cpu) := .fork cpu call
  have forked := step.inv inside_inv
  have known : kernelAdr index ∈ (inside.fork index cloneFlags cpu).tasks := List.mem_cons_self
  have fits := inside_inv.placed.fits inside_inv.placed.current
  obtain ⟨x19, pc, sp, frame⟩ := call.child fits user
  constructor
  · intro away path can
    have differ : inside.current ≠ kernelAdr index := by
      intro equal
      have apart := (call.made.2 inside_inv.placed.current).1
      rw [equal] at apart
      simp only [pageSize] at apart
      omega
    obtain ⟨agree, away_inv, away_known⟩ := path.keeps_context forked known differ
    have switched : CoreStep image away (away.switch (kernelAdr index)) := .switch can
    have kept := agree.trans (switched.keeps_context away_inv away_known can.other.symm)
    have child_fits := away_inv.cpuSwitchTo_fits away_known
    have loaded := (@run_callCpuSwitchTo away.cpu away.current (kernelAdr index)
      (away_inv.cpuSwitchTo_fits away_inv.placed.current) child_fits).2.1
    have found : ContextStored cpu.memory (kernelAdr index)
        (away.switch (kernelAdr index)).cpu :=
      contextStored_of_loadWords ((loadWords_congr kept).symm.trans loaded.symm) child_fits.le
    refine ⟨found.pc.symm.trans pc, found.sp.symm.trans sp, BitVec.eq_of_toNat_eq ?_⟩
    exact (@ContextStored.regs _ _ _ found 0 .x19 rfl).symm.trans x19
  · intro handled path current can
    obtain ⟨agree, handled_inv, -⟩ := path.keeps_frame forked known (by
      simp only [Core.fork, Function.update_self, if_neg user]
      exact List.suffix_rfl)
    have popped := (run_popRegs (handled_inv.return_fits can)).1
    have top := (inv.user mode).1
    have home : core.entered.frame = getTaskPtRegs inside.current := by
      rw [getTaskPtRegs_eq fits, same]
      simp only [Core.entered, top, pageSize, sFrameSize]
      omega
    have level : core.el = 0 := by rw [Core.el, if_pos mode]
    refine popped.trans ?_
    rw [poppedFrame, can.stack, loadWords_congr agree]
    change loadWords cpu.memory _ 34 = _
    rw [frame, ← home, stored, level]

/-- In every run of any number of tasks, however their exceptions nest and whatever other tasks do
meanwhile, an exception returns with the registers that it has found, a system call with its result
in `x0`, and a fork in a system call with zero there in the new process. -/
theorem exceptions_nest (started : CoreStarted image start) (run : CoreRun image start core) :
    ExceptionTransparent image core ∧ ForkReturnsTwice image core := by
  have inv := run.inv started.inv
  exact ⟨inv.exceptionTransparent, inv.forkReturnsTwice⟩

end Transparent

/-- Two kernel threads, the first of which is about to enter its user program. -/
def turnCore : Core where
  cpu :=
    { x := fun _ => 7
      sp := BitVec.ofNat 64 (getTaskPtRegs (kernelAdr 0))
      sys := fun _ => 0
      memory := fun _ => 0 }
  current := kernelAdr 0
  user := false
  tasks := [kernelAdr 0, kernelAdr 1]
  stackLow task := task + taskStructEnd
  stackTop task := task + pageSize
  saved _ := []

theorem turnCore_started : CoreStarted smallImage turnCore where
  placed := by
    have apart : ∀ {left right}, left ∈ turnCore.tasks → right ∈ turnCore.tasks → left ≠ right →
        left + pageSize ≤ right ∨ right + pageSize ≤ left := by
      intro left right left_known right_known differ
      rcases List.mem_pair.mp left_known with rfl | rfl <;>
        rcases List.mem_pair.mp right_known with rfl | rfl
      · exact absurd rfl differ
      · exact kernelAdr_apart (by decide)
      · exact kernelAdr_apart (by decide)
      · exact absurd rfl differ
    refine ⟨List.mem_cons_self, ?_, ?_, ?_, ?_, ?_, ?_⟩
    · intro task known
      rcases List.mem_pair.mp known with rfl | rfl
      · exact (kernelAdr_range (by decide)).2
      · exact (kernelAdr_range (by decide)).2
    · intro left right left_known right_known differ
      have pages := apart left_known right_known differ
      simp only [pageSize, sizeofCpuContext] at pages ⊢
      omega
    · intro left right left_known right_known differ
      have pages := apart left_known right_known differ
      simp only [turnCore, pageSize, taskStructEnd] at pages ⊢
      omega
    · intro left right left_known right_known
      by_cases same : left = right
      · simp only [turnCore, same, sizeofCpuContext, taskStructEnd]
        omega
      · have pages := apart left_known right_known same
        simp only [turnCore, pageSize, sizeofCpuContext, taskStructEnd] at pages ⊢
        omega
    · intro task known
      simp only [turnCore, pageSize, sFrameSize, taskStructEnd]
      omega
    · intro task known
      exact Or.inl ⟨Nat.le_add_right _ _, le_refl _⟩
  kernel := rfl
  idle _ := rfl

section Nested

variable {image : Image} {core : Core} {saved : Saved} {rest : List Saved} {elr spsr : Word}

/-- The frame of an exception is the latest when the handler begins. -/
theorem CoreInv.canReturn_trap (inv : CoreInv image core)
    (room : core.user = false → core.HasRoom) :
    (core.trap elr spsr).CanReturn core.entered (core.saved core.current) where
  kernel := rfl
  latest := Function.update_self ..
  stack := (inv.run_trap elr spsr room).1

/-- A handler that could return can so after an exception of its own. -/
theorem CoreInv.canReturn_nested (inv : CoreInv image core) (can : core.CanReturn saved rest)
    (room : core.HasRoom) : ((core.trap elr spsr).ret 1).CanReturn saved rest := by
  have take : CoreStep image core (core.trap elr spsr) := .trap elr spsr fun _ => room
  have nested_can : (core.trap elr spsr).CanReturn core.entered _ :=
    inv.canReturn_trap fun _ => room
  refine ⟨rfl, ?_, ?_⟩
  · change Function.update (Function.update _ _ _) core.current _ core.current = _
    rw [Function.update_self, nested_can.latest]
    exact can.latest
  · rw [sp_ret ((take.inv inv).return_fits nested_can), nested_can.stack, ← can.stack]
    exact Nat.sub_add_cancel ((Nat.le_add_left _ _).trans room.bottom)

/-- A stack with room for two frames has room for a nested exception. -/
theorem CoreInv.hasRoom_trap (inv : CoreInv image core) (user : core.user = true)
    (deep : core.stackLow core.current + 2 * sFrameSize ≤ core.stackTop core.current) :
    (core.trap elr spsr).HasRoom := by
  have no_kernel : core.user = false → core.HasRoom := fun kernel =>
    absurd (kernel.symm.trans user) (by decide)
  obtain ⟨stack, top, nothing⟩ := inv.user user
  have frame := (inv.run_trap elr spsr no_kernel).1
  rw [stack, ← top] at frame
  refine ⟨?_, ?_, fun saved member => ?_⟩
  · change core.stackLow core.current + sFrameSize ≤ _
    omega
  · change _ ≤ core.stackTop core.current
    omega
  · change saved ∈ Function.update core.saved core.current _ core.current at member
    rw [Function.update_self, nothing] at member
    obtain rfl := List.mem_singleton.mp member
    rw [frame]
    dsimp only
    rw [stack, top]

theorem CoreInv.run_nested (inv : CoreInv image core) (room : core.user = false → core.HasRoom)
    (deep : (core.trap elr spsr).HasRoom) {nestedElr nestedSpsr : Word} :
    CoreRunWhile image
      (fun later => core.entered :: core.saved core.current <:+ later.saved core.current)
      (core.trap elr spsr) (((core.trap elr spsr).trap nestedElr nestedSpsr).ret 1) := by
  let handler := core.trap elr spsr
  have handling : CoreInv image handler := CoreStep.inv (.trap elr spsr room) inv
  have take : CoreStep image handler (handler.trap nestedElr nestedSpsr) :=
    .trap nestedElr nestedSpsr fun _ => deep
  have nested_can : (handler.trap nestedElr nestedSpsr).CanReturn handler.entered _ :=
    handling.canReturn_trap fun _ => deep
  have can : handler.CanReturn core.entered _ := inv.canReturn_trap room
  have again := @CoreInv.canReturn_nested _ _ _ _ nestedElr nestedSpsr handling can deep
  have latest := nested_can.latest
  rw [can.latest] at latest
  have level : handler.entered.el = 1 := by simp [handler, Core.entered, Core.el, Core.trap]
  have back : CoreStep image (handler.trap nestedElr nestedSpsr)
      ((handler.trap nestedElr nestedSpsr).ret 1) := level ▸ .ret nested_can
  refine .tail (.single ⟨take, ?_⟩) ⟨back, ?_⟩
  · change _ <:+ (handler.trap nestedElr nestedSpsr).saved handler.current
    exact latest ▸ List.suffix_cons _ _
  · change _ <:+ ((handler.trap nestedElr nestedSpsr).ret 1).saved handler.current
    exact again.latest ▸ List.suffix_rfl

end Nested

/-- An interrupt of the kernel inside one of a user program. -/
theorem exceptions_nest_twice :
    let program := turnCore.ret 0
    let handler := program.trap 1 2
    ptRegs 1 ((handler.trap 3 4).ret 1).cpu = ptRegs 1 (takeException handler.cpu 3 4) ∧
      ptRegs 0 (((handler.trap 3 4).ret 1).ret 0).cpu =
        ptRegs 0 (takeException program.cpu 1 2) := by
  -- The program is a variable, so that nothing runs its code when terms are compared.
  have of_program {program : Core} (enter : CoreStep smallImage turnCore program)
      (user : program.user = true) (deep : program.stackLow program.current + 2 * sFrameSize ≤
        program.stackTop program.current) :
      ptRegs 1 (((program.trap 1 2).trap 3 4).ret 1).cpu =
          ptRegs 1 (takeException (program.trap 1 2).cpu 3 4) ∧
        ptRegs 0 ((((program.trap 1 2).trap 3 4).ret 1).ret 0).cpu =
          ptRegs 0 (takeException program.cpu 1 2) := by
    have no_kernel : program.user = false → program.HasRoom := fun kernel =>
      absurd (kernel.symm.trans user) (by decide)
    have take : CoreStep smallImage program (program.trap 1 2) := .trap 1 2 no_kernel
    have inside := enter.inv turnCore_started.inv
    have handling := take.inv inside
    have can : (program.trap 1 2).CanReturn program.entered (program.saved program.current) :=
      inside.canReturn_trap no_kernel
    have room : (program.trap 1 2).HasRoom := inside.hasRoom_trap user deep
    have level : program.el = 0 := by rw [Core.el, if_pos user]
    obtain ⟨program_transparent, -⟩ := exceptions_nest turnCore_started (.single enter)
    obtain ⟨handler_transparent, -⟩ :=
      exceptions_nest turnCore_started (.tail (.single enter) take)
    have nested := @handler_transparent 3 4 (fun _ => room) ((program.trap 1 2).trap 3 4) .refl rfl
      (handling.canReturn_trap fun _ => room)
    have interrupted := @program_transparent 1 2 no_kernel (((program.trap 1 2).trap 3 4).ret 1)
      (inside.run_nested no_kernel room) rfl (handling.canReturn_nested can room)
    rw [level] at interrupted
    exact ⟨nested.1, interrupted.1⟩
  have stack : turnCore.cpu.sp.toNat = getTaskPtRegs turnCore.current :=
    toNat_getTaskPtRegs (kernelAdr 0)
  have enter : CoreStep smallImage turnCore (turnCore.ret 0) := .start rfl rfl rfl stack
  have deep (task : Nat) :
      (turnCore.ret 0).stackLow task + 2 * sFrameSize ≤ (turnCore.ret 0).stackTop task := by
    simp only [Core.ret, turnCore, taskStructEnd, sFrameSize, pageSize]
    omega
  exact of_program enter rfl (deep (turnCore.ret 0).current)

end PellOs

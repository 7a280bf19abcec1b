import PellOs.Scheduler.ForkRoles
import PellOs.Scheduler.SavedRegisters

/-!
# Runs of many tasks on one core

Tasks take turns on the core.  Between exceptions, task switches, forks and returns to EL0 any code
runs; it may do anything to the registers, but the bytes in which other tasks and interrupted user
programs are saved are not its own.  Whatever the order of the steps, a task finds its registers as
it left them.
-/

namespace PellOs

open A64

/-- `sizeof(cpu_context)`. -/
def sizeofCpuContext : Nat := 104

/-- A core and its tasks. -/
structure Context where
  cpu : Cpu
  /-- `current`. -/
  current : Nat
  /-- The core is in EL0. -/
  user : Bool
  /-- The pages of the tasks. -/
  tasks : List Nat
  /-- Tasks that are inside `el0_irq`. -/
  inIrq : Nat → Bool

/-- The hardware saves where an exception comes from. -/
def takeException (cpu : Cpu) (elr spsr : Word) : Cpu :=
  { cpu with sys := Function.update (Function.update cpu.sys .elrEl1 elr) .spsrEl1 spsr }

namespace Context

/-- The first instructions of `el0_sync`: an exception and `push_regs 0`. -/
def enterSync (context : Context) (elr spsr : Word) : Context :=
  { context with cpu := (takeException context.cpu elr spsr).run (pushRegs 0), user := false }

/-- The first instructions of `el0_irq`. -/
def enterIrq (context : Context) (elr spsr : Word) : Context :=
  { context.enterSync elr spsr with inIrq := Function.update context.inIrq context.current true }

/-- `pop_regs 0` and `eret`. -/
def leave (context : Context) : Context :=
  { context with
    cpu := context.cpu.run (popRegs 0)
    user := true
    inIrq := Function.update context.inIrq context.current false }

/-- `switch_to` another task. -/
def switch (context : Context) (next : Nat) : Context :=
  { context with cpu := callCpuSwitchTo context.cpu context.current next, current := next }

/-- A fork has made the task in a page. -/
def fork (context : Context) (index : Nat) (cpu : Cpu) : Context :=
  { context with cpu, tasks := kernelAdr index :: context.tasks }

/-- The bytes in which a task that is not current or an interrupted user program is saved. -/
def Guarded (context : Context) (address : Nat) : Prop :=
  ∃ task ∈ context.tasks,
    (task ≠ context.current ∧ task ≤ address ∧ address < task + sizeofCpuContext) ∨
      (context.inIrq task = true ∧ getTaskPtRegs task ≤ address ∧
        address < getTaskPtRegs task + sizeofPtRegs)

/-- Kernel code may switch to another task. -/
structure CanSwitch (context : Context) (next : Nat) : Prop where
  kernel : context.user = false
  known : next ∈ context.tasks
  other : next ≠ context.current

/-- The stack is back at the frame of `push_regs 0`, or still at the one of `kernel_fork`. -/
structure CanLeave (context : Context) : Prop where
  kernel : context.user = false
  stack : context.cpu.sp.toNat = getTaskPtRegs context.current

end Context

/-- A call of `kernel_fork` that gets a page of its own for the new task. -/
structure ForkCall (image : Image) (context : Context) (cloneFlags fn args index : Nat)
    (memory : Memory) : Prop where
  kernel : context.user = false
  small : cloneFlags < wordSize
  inside : index < mmNumOfPages
  apart : ∀ {task}, task ∈ context.tasks →
    task + pageSize ≤ kernelAdr index ∨ kernelAdr index + pageSize ≤ task
  kept : ∀ {address}, context.Guarded address → memory address = context.cpu.memory address
  call : ∃ kernel begun after pid, kernel.memory = context.cpu.memory ∧
    kernel.current = context.current ∧
      getNextFreePage (preemptDisable kernel).mm = (begun, pageAt index) ∧
        kernelFork image kernel cloneFlags fn args = some (after, pid) ∧ after.memory = memory

/-- A step of the core. -/
inductive ContextStep (image : Image) (context : Context) : Context → Prop
  /-- Any code of the current task, nested exceptions included. -/
  | work (cpu : Cpu)
      (kept : ∀ {address}, context.Guarded address →
        cpu.memory address = context.cpu.memory address)
      (stack : context.user = true → cpu.sp = context.cpu.sp) :
      ContextStep image context { context with cpu }
  | irq (elr spsr : Word) (user : context.user = true) :
      ContextStep image context (context.enterIrq elr spsr)
  | sync (elr spsr : Word) (user : context.user = true) :
      ContextStep image context (context.enterSync elr spsr)
  | eret (can : context.CanLeave) : ContextStep image context context.leave
  | switch {next : Nat} (can : context.CanSwitch next) :
      ContextStep image context (context.switch next)
  | fork {cloneFlags fn args index : Nat} (cpu : Cpu)
      (call : ForkCall image context cloneFlags fn args index cpu.memory) :
      ContextStep image context (context.fork index cpu)

/-- The steps of a run. -/
def ContextRun (image : Image) : Context → Context → Prop :=
  Relation.ReflTransGen (ContextStep image)

/-- The steps of a run all of which lead where a condition holds. -/
def RunWhile (image : Image) (condition : Context → Prop) : Context → Context → Prop :=
  Relation.ReflTransGen fun before after => ContextStep image before after ∧ condition after

/-- Some tasks with pages of their own, one of which runs in the kernel. -/
structure Started (context : Context) : Prop where
  fits : ∀ {task}, task ∈ context.tasks → task + 2 * pageSize ≤ wordSize
  apart : ∀ {left right}, left ∈ context.tasks → right ∈ context.tasks → left ≠ right →
    left + pageSize ≤ right ∨ right + pageSize ≤ left
  current : context.current ∈ context.tasks
  kernel : context.user = false
  idle : ∀ task, context.inIrq task = false

/-! ## The invariant -/

/-- Every task has a page of its own, and a user program has nothing on its kernel stack. -/
structure ContextInv (context : Context) : Prop where
  fits : ∀ {task}, task ∈ context.tasks → task + 2 * pageSize ≤ wordSize
  apart : ∀ {left right}, left ∈ context.tasks → right ∈ context.tasks → left ≠ right →
    left + pageSize ≤ right ∨ right + pageSize ≤ left
  current : context.current ∈ context.tasks
  user : context.user = true →
    context.cpu.sp.toNat = context.current + pageSize ∧ context.inIrq context.current = false

theorem Started.inv {context : Context} (started : Started context) : ContextInv context where
  fits := started.fits
  apart := started.apart
  current := started.current
  user user := by rw [started.kernel] at user; cases user

section Steps

variable {image : Image} {before after : Context}

namespace ContextInv

theorem getTaskPtRegs_eq (inv : ContextInv before) {task : Nat} (known : task ∈ before.tasks) :
    getTaskPtRegs task = task + 3824 :=
  PellOs.getTaskPtRegs_eq (inv.fits known)

theorem guarded_cases (inv : ContextInv before) {address : Nat} (guarded : before.Guarded address) :
    ∃ task ∈ before.tasks, (task ≠ before.current ∧ task ≤ address ∧ address < task + 104) ∨
      (before.inIrq task = true ∧ task + 3824 ≤ address ∧ address < task + 4096) := by
  obtain ⟨task, known, place⟩ := guarded
  rw [inv.getTaskPtRegs_eq known, sizeofPtRegs, sizeofCpuContext] at place
  exact ⟨task, known, place⟩

/-- `push_regs 0` finds the kernel stack empty. -/
theorem run_pushRegs (inv : ContextInv before) (elr spsr : Word) (user : before.user = true) :
    ((takeException before.cpu elr spsr).run (pushRegs 0)).sp.toNat = before.current + 3824 ∧
      ((takeException before.cpu elr spsr).run (pushRegs 0)).memory =
        storeWords before.cpu.memory (before.current + 3824)
          (ptRegs 0 (takeException before.cpu elr spsr)) := by
  have stack : (takeException before.cpu elr spsr).sp.toNat = before.current + 4096 :=
    (inv.user user).1
  have frame : before.current + 4096 - sFrameSize = before.current + 3824 := by
    rw [sFrameSize]
    omega
  have pushed := @PellOs.run_pushRegs 0 (takeException before.cpu elr spsr)
    (by rw [stack, sFrameSize]; omega)
  rw [stack, frame] at pushed
  exact pushed

theorem pushRegs_keeps (inv : ContextInv before) (elr spsr : Word) (user : before.user = true)
    {address : Nat} (guarded : before.Guarded address) :
    ((takeException before.cpu elr spsr).run (pushRegs 0)).memory address =
      before.cpu.memory address := by
  obtain ⟨task, known, place⟩ := inv.guarded_cases guarded
  have other : task ≠ before.current := by
    rcases place with ⟨other, -⟩ | ⟨inside, -⟩
    · exact other
    · rintro rfl
      rw [(inv.user user).2] at inside
      cases inside
  have apart := inv.apart known inv.current other
  rw [(inv.run_pushRegs elr spsr user).2]
  apply storeWords_outside
  rw [length_ptRegs]
  simp only [pageSize] at apart
  omega

theorem cpuSwitchTo_fits (inv : ContextInv before) {task : Nat} (known : task ∈ before.tasks) :
    task + 104 < 2 ^ 64 := by
  have fits := inv.fits known
  simp only [pageSize] at fits
  change _ ≤ 2 ^ 64 at fits
  omega

theorem run_switch (inv : ContextInv before) {next : Nat} (can : before.CanSwitch next) :
    (before.switch next).cpu.memory =
        storeWords before.cpu.memory before.current (cpuContext before.cpu) ∧
      cpuContext (before.switch next).cpu = loadWords (before.switch next).cpu.memory next 13 := by
  obtain ⟨stored, loaded, -⟩ := @run_callCpuSwitchTo before.cpu before.current next
    (inv.cpuSwitchTo_fits inv.current) (inv.cpuSwitchTo_fits can.known)
  exact ⟨stored, loaded⟩

theorem switch_keeps (inv : ContextInv before) {next : Nat} (can : before.CanSwitch next)
    {address : Nat} (guarded : before.Guarded address) :
    (before.switch next).cpu.memory address = before.cpu.memory address := by
  obtain ⟨task, known, place⟩ := inv.guarded_cases guarded
  rw [(inv.run_switch can).1]
  apply storeWords_outside
  rw [length_cpuContext]
  by_cases same : task = before.current
  · rw [same] at place
    omega
  · have apart := inv.apart known inv.current same
    simp only [pageSize] at apart
    omega

theorem run_leave (inv : ContextInv before) (can : before.CanLeave) :
    ptRegs 0 before.leave.cpu = loadWords before.cpu.memory (before.current + 3824) 34 ∧
      before.leave.cpu.sp.toNat = before.current + 4096 ∧
      before.leave.cpu.memory = before.cpu.memory := by
  have fits := inv.fits inv.current
  have stack := can.stack
  rw [inv.getTaskPtRegs_eq inv.current] at stack
  simp only [pageSize] at fits
  change _ ≤ 2 ^ 64 at fits
  obtain ⟨regs, top, memory⟩ := @run_popRegs before.cpu (by rw [stack, sFrameSize]; omega)
  rw [poppedFrame, stack] at regs
  rw [stack, sFrameSize] at top
  exact ⟨regs, top, memory⟩

end ContextInv

/-- No step changes the bytes in which a task or a user program is saved. -/
theorem ContextStep.keeps (step : ContextStep image before after) (inv : ContextInv before)
    {address : Nat} (guarded : before.Guarded address) :
    after.cpu.memory address = before.cpu.memory address := by
  cases step with
  | work cpu kept stack => exact kept guarded
  | irq elr spsr user => exact inv.pushRegs_keeps elr spsr user guarded
  | sync elr spsr user => exact inv.pushRegs_keeps elr spsr user guarded
  | eret can => exact congrFun (inv.run_leave can).2.2 address
  | switch can => exact inv.switch_keeps can guarded
  | fork cpu call => exact call.kept guarded

theorem ContextStep.known (step : ContextStep image before after) {task : Nat}
    (known : task ∈ before.tasks) : task ∈ after.tasks := by
  cases step with
  | fork cpu call => exact List.mem_cons_of_mem _ known
  | _ => exact known

theorem ContextStep.inv (step : ContextStep image before after) (inv : ContextInv before) :
    ContextInv after := by
  cases step with
  | work cpu kept stack =>
      refine ⟨inv.fits, inv.apart, inv.current, fun user => ?_⟩
      obtain ⟨top, outside⟩ := inv.user user
      refine ⟨?_, outside⟩
      rw [← top, ← stack user]
  | irq elr spsr user => exact ⟨inv.fits, inv.apart, inv.current, fun user => by cases user⟩
  | sync elr spsr user => exact ⟨inv.fits, inv.apart, inv.current, fun user => by cases user⟩
  | eret can =>
      exact ⟨inv.fits, inv.apart, inv.current,
        fun _ => ⟨(inv.run_leave can).2.1, Function.update_self ..⟩⟩
  | switch can =>
      refine ⟨inv.fits, inv.apart, can.known, fun user => ?_⟩
      exact absurd (can.kernel.symm.trans user) (by decide)
  | fork cpu call =>
      refine ⟨?_, ?_, List.mem_cons_of_mem _ inv.current, fun user => ?_⟩
      · intro task known
        rcases List.mem_cons.mp known with rfl | known
        · exact (kernelAdr_range call.inside).2
        · exact inv.fits known
      · intro left right left_known right_known differ
        rcases List.mem_cons.mp left_known with rfl | left_known
        · rcases List.mem_cons.mp right_known with rfl | right_known
          · exact absurd rfl differ
          · exact (call.apart right_known).symm
        · rcases List.mem_cons.mp right_known with rfl | right_known
          · exact call.apart left_known
          · exact inv.apart left_known right_known differ
      · exact absurd (call.kernel.symm.trans user) (by decide)

theorem ContextRun.inv (run : ContextRun image before after) (inv : ContextInv before) :
    ContextInv after := by
  induction run with
  | refl => exact inv
  | tail _ step ih => exact step.inv ih

/-! ## Bytes kept by a run -/

theorem RunWhile.keeps {condition : Context → Prop} {task address count : Nat}
    (path : RunWhile image condition before after)
    (guards : ∀ {context}, task ∈ context.tasks → condition context →
      ∀ target, address ≤ target → target < address + count → context.Guarded target)
    (inv : ContextInv before) (known : task ∈ before.tasks) (start : condition before) :
    before.cpu.memory.AgreeOn after.cpu.memory address count ∧ ContextInv after ∧
      task ∈ after.tasks ∧ condition after := by
  induction path with
  | refl => exact ⟨Memory.AgreeOn.refl _ _ _, inv, known, start⟩
  | tail _ step ih =>
      obtain ⟨agree, inv, known, holds⟩ := ih
      refine ⟨agree.trans fun target lower upper => ?_, step.1.inv inv, step.1.known known, step.2⟩
      exact step.1.keeps inv (guards known holds target lower upper)

theorem guarded_context {task : Nat} (known : task ∈ before.tasks) (away : before.current ≠ task)
    (target : Nat) (lower : task ≤ target) (upper : target < task + 104) :
    before.Guarded target :=
  ⟨task, known, Or.inl ⟨away.symm, lower, upper⟩⟩

theorem guarded_frame {task : Nat} (known : task ∈ before.tasks)
    (inside : before.inIrq task = true) (target : Nat) (lower : getTaskPtRegs task ≤ target)
    (upper : target < getTaskPtRegs task + 272) : before.Guarded target :=
  ⟨task, known, Or.inr ⟨inside, lower, upper⟩⟩

/-- A task that gets the core back finds the registers that its `cpu_context` had when it was not
current for the first time. -/
theorem cpuContext_switch {task : Nat} (inv : ContextInv before) (known : task ∈ before.tasks)
    (away : before.current ≠ task)
    (path : RunWhile image (fun later => later.current ≠ task) before after)
    (can : after.CanSwitch task) :
    cpuContext (after.switch task).cpu = loadWords before.cpu.memory task 13 := by
  obtain ⟨agree, after_inv, after_known, after_away⟩ := path.keeps guarded_context inv known away
  have switched : after.cpu.memory.AgreeOn (after.switch task).cpu.memory task 104 :=
    fun target lower upper => after_inv.switch_keeps can
      (guarded_context after_known after_away target lower upper)
  rw [(after_inv.run_switch can).2]
  exact loadWords_congr (agree.trans switched)

/-! ## A forked task -/

/-- The registers with which `kernel_fork` lets a new task start. -/
structure FirstRun (image : Image) (task cloneFlags fn args : Nat) (cpu : Cpu) : Prop where
  pc : (cpu.x .x30).toNat = image.retFromFork % wordSize
  sp : cpu.sp.toNat = getTaskPtRegs task
  thread : cloneFlags &&& taskFlagsKernelThread ≠ 0 →
    (cpu.x .x19).toNat = fn % wordSize ∧ (cpu.x .x20).toNat = args % wordSize

/-- The members of the new task's `cpu_context` that `kernel_fork` sets. -/
theorem ForkCall.stored {cloneFlags fn args index : Nat} {memory : Memory}
    (call : ForkCall image before cloneFlags fn args index memory) (inv : ContextInv before)
    {cpu : Cpu} (same : ContextStored memory (kernelAdr index) cpu) :
    FirstRun image (kernelAdr index) cloneFlags fn args cpu := by
  obtain ⟨kernel, begun, after, pid, -, current, page, result, rfl⟩ := call.call
  obtain ⟨mm, context, rfl, -⟩ := kernelFork_result call.inside page result
  have fits := (kernelAdr_range call.inside).2
  have current_fits := inv.fits inv.current
  have apart := call.apart inv.current
  rw [← current] at current_fits apart
  have started := forkFields_started image mm.memory fits current_fits apart call.small
  have kept := @forkEnd_get image kernel mm _ cloneFlags fits current_fits apart
  refine ⟨?_, ?_, fun thread => ?_⟩
  · rw [← same.pc, kept (by decide), started.pc]
    rfl
  · rw [← same.sp, kept (by decide), started.sp]
  · rw [forkContext_thread thread] at context
    have thread_memory := congrArg Kernel.memory (Option.some.inj context)
    have stored := forkEnd_threadMemory image cloneFlags thread_memory.symm fits current_fits apart
    have x19 := @ContextStored.regs _ _ _ same 0 .x19 rfl
    have x20 := @ContextStored.regs _ _ _ same 1 .x20 rfl
    exact ⟨x19.symm.trans stored.1, x20.symm.trans stored.2⟩

end Steps

/-! ## Transparency -/

/-- A task that is switched out finds its registers when it is switched in again, and meanwhile each
has its place in the `cpu_context`. -/
def SwitchTransparent (image : Image) (context : Context) : Prop :=
  ∀ {next}, context.CanSwitch next →
    ContextStored (context.switch next).cpu.memory context.current context.cpu ∧
      ∀ {away}, RunWhile image (fun later => later.current ≠ context.current)
          (context.switch next) away →
        away.CanSwitch context.current →
          cpuContext (away.switch context.current).cpu = cpuContext context.cpu

/-- A new task finds the registers that `kernel_fork` has put into its `cpu_context`. -/
def ForkTransparent (image : Image) (context : Context) : Prop :=
  ∀ {cloneFlags fn args index cpu}, ForkCall image context cloneFlags fn args index cpu.memory →
    ∀ {away}, RunWhile image (fun later => later.current ≠ kernelAdr index)
        (context.fork index cpu) away →
      away.CanSwitch (kernelAdr index) →
        FirstRun image (kernelAdr index) cloneFlags fn args (away.switch (kernelAdr index)).cpu ∧
          cpuContext (away.switch (kernelAdr index)).cpu =
            loadWords cpu.memory (kernelAdr index) 13

/-- An interrupted user program finds its registers when the handler has returned, and meanwhile
each has its place in the `task_pt_regs`. -/
def InterruptTransparent (image : Image) (context : Context) : Prop :=
  ∀ elr spsr, context.user = true →
    FrameStored (context.enterIrq elr spsr).cpu.memory (getTaskPtRegs context.current)
        (takeException context.cpu elr spsr) ∧
      ∀ {handled}, RunWhile image (fun later => later.inIrq context.current = true)
          (context.enterIrq elr spsr) handled →
        handled.CanLeave → handled.current = context.current →
          ptRegs 0 handled.leave.cpu = ptRegs 0 (takeException context.cpu elr spsr)

section Transparent

variable {image : Image} {start context : Context}

theorem ContextInv.switchTransparent (inv : ContextInv context) :
    SwitchTransparent image context := by
  intro next can
  have stored : loadWords (context.switch next).cpu.memory context.current 13 =
      cpuContext context.cpu := by
    rw [(inv.run_switch can).1]
    exact loadWords_storeWords _ _ (cpuContext context.cpu)
  have fits := inv.cpuSwitchTo_fits inv.current
  refine ⟨contextStored_of_loadWords stored fits.le, fun {away} path back => ?_⟩
  have step : ContextStep image context (context.switch next) := .switch can
  rw [cpuContext_switch (step.inv inv) (step.known inv.current) can.other path back, stored]

theorem ContextInv.forkTransparent (inv : ContextInv context) : ForkTransparent image context := by
  intro cloneFlags fn args index cpu call away path can
  have step : ContextStep image context (context.fork index cpu) := .fork cpu call
  have new : (context.fork index cpu).current ≠ kernelAdr index := by
    intro same
    have apart := call.apart inv.current
    change context.current = kernelAdr index at same
    rw [same] at apart
    simp only [pageSize] at apart
    omega
  have found := cpuContext_switch (step.inv inv) List.mem_cons_self new path can
  have fits := (step.inv inv).cpuSwitchTo_fits (List.mem_cons_self : kernelAdr index ∈ _)
  exact ⟨call.stored inv (contextStored_of_loadWords found.symm fits.le), found⟩

theorem ContextInv.interruptTransparent (inv : ContextInv context) :
    InterruptTransparent image context := by
  intro elr spsr user
  have frame := inv.getTaskPtRegs_eq inv.current
  have fits := inv.fits inv.current
  simp only [pageSize] at fits
  have stored : loadWords (context.enterIrq elr spsr).cpu.memory
      (getTaskPtRegs context.current) 34 =
      ptRegs 0 (takeException context.cpu elr spsr) := by
    rw [frame]
    refine (congrArg (fun memory => loadWords memory (context.current + 3824) 34)
      (inv.run_pushRegs elr spsr user).2).trans ?_
    exact loadWords_storeWords _ _ (ptRegs 0 (takeException context.cpu elr spsr))
  refine ⟨frameStored_of_loadWords stored (by rw [frame, sFrameSize]; omega), ?_⟩
  intro handled path can same
  have step : ContextStep image context (context.enterIrq elr spsr) := .irq elr spsr user
  have inside : (context.enterIrq elr spsr).inIrq context.current = true := Function.update_self ..
  obtain ⟨agree, handled_inv, -, -⟩ :=
    path.keeps guarded_frame (step.inv inv) (step.known inv.current) inside
  rw [(handled_inv.run_leave can).1, same, ← frame, ← stored]
  exact loadWords_congr agree

/-- In every run of any number of tasks a task finds its registers as it left them at its last
switch or as `kernel_fork` set them, and a user program finds all of its registers after an
interrupt. -/
theorem registers_survive (started : Started start) (run : ContextRun image start context) :
    SwitchTransparent image context ∧ ForkTransparent image context ∧
      InterruptTransparent image context := by
  have inv := run.inv started.inv
  exact ⟨inv.switchTransparent, inv.forkTransparent, inv.interruptTransparent⟩

end Transparent

theorem toNat_getTaskPtRegs (task : Nat) :
    (BitVec.ofNat 64 (getTaskPtRegs task)).toNat = getTaskPtRegs task := by
  rw [BitVec.toNat_ofNat, getTaskPtRegs, Nat.mod_mod]

/-- Two tasks, the first of which is about to enter its user program. -/
def turnContext : Context where
  cpu :=
    { x := fun reg => if reg = .x19 then 7 else 0
      sp := BitVec.ofNat 64 (getTaskPtRegs (kernelAdr 0))
      sys := fun _ => 0
      memory := fun _ => 0 }
  current := kernelAdr 0
  user := false
  tasks := [kernelAdr 0, kernelAdr 1]
  inIrq := fun _ => false

theorem turnContext_started : Started turnContext where
  fits known := by
    rcases List.mem_pair.mp known with rfl | rfl
    · exact (kernelAdr_range (by decide)).2
    · exact (kernelAdr_range (by decide)).2
  apart left_known right_known differ := by
    rcases List.mem_pair.mp left_known with rfl | rfl
    · rcases List.mem_pair.mp right_known with rfl | rfl
      · exact absurd rfl differ
      · exact kernelAdr_apart (by decide)
    · rcases List.mem_pair.mp right_known with rfl | rfl
      · exact kernelAdr_apart (by decide)
      · exact absurd rfl differ
  current := List.mem_cons_self
  kernel := rfl
  idle _ := rfl

theorem ContextInv.canLeave_enterIrq {context : Context} (inv : ContextInv context)
    (elr spsr : Word) (user : context.user = true) : (context.enterIrq elr spsr).CanLeave where
  kernel := rfl
  stack := by
    change ((takeException context.cpu elr spsr).run (pushRegs 0)).sp.toNat =
      getTaskPtRegs context.current
    rw [(inv.run_pushRegs elr spsr user).1, inv.getTaskPtRegs_eq inv.current]

theorem registers_survive_two_tasks :
    cpuContext ((turnContext.switch (kernelAdr 1)).switch (kernelAdr 0)).cpu =
        cpuContext turnContext.cpu ∧
      ptRegs 0 (turnContext.leave.enterIrq 1 2).leave.cpu =
        ptRegs 0 (takeException turnContext.leave.cpu 1 2) := by
  have differ : kernelAdr 1 ≠ kernelAdr 0 := fun same =>
    absurd (kernelAdr_injective same) (by decide)
  have first_can : turnContext.CanSwitch (kernelAdr 1) :=
    ⟨rfl, List.mem_cons_of_mem _ List.mem_cons_self, differ⟩
  have back_can : (turnContext.switch (kernelAdr 1)).CanSwitch (kernelAdr 0) :=
    ⟨rfl, List.mem_cons_self, differ.symm⟩
  have leave_can : turnContext.CanLeave := ⟨rfl, toNat_getTaskPtRegs (kernelAdr 0)⟩
  have step : ContextStep smallImage turnContext turnContext.leave := .eret leave_can
  have handled_can : (turnContext.leave.enterIrq 1 2).CanLeave :=
    (step.inv turnContext_started.inv).canLeave_enterIrq 1 2 rfl
  have switched := (@registers_survive smallImage _ _ turnContext_started .refl).1 first_can
  have interrupted := (registers_survive turnContext_started (.single step)).2.2 1 2 rfl
  exact ⟨switched.2 .refl back_can, interrupted.2 .refl handled_can rfl⟩

end PellOs

import PellOs.Scheduler.Exceptions

/-!
# System calls

The stubs of the user library put a number into `x8` and raise an exception, which `el0_sync` takes
to the entry of the number in `sys_call_table`.  For the program it is the call of a function: the
handler of the stub gets its arguments, and the caller gets the result.
-/

namespace PellOs

open A64

/-! ## The code -/

/-- `ESR_EC_SHIFT`. -/
def esrEcShift : Nat := 26

/-- `ESR_EC_SVC64`. -/
def esrEcSvc64 : Word := 0x15

/-- `ESR_EC_DABT_LOW`. -/
def esrEcDabtLow : Word := 0x24

/-- `N_SYSCALLS`. -/
def nSyscalls : Nat := 7

/-- The functions of `sys_call_table`. -/
inductive SysCall
  | syscallWrite
  | syscallFork
  | syscallExit
  | syscallRead
  | syscallOpen
  | syscallClose
  | syscallWait
  deriving DecidableEq

/-- `sys_call_table`. -/
def sysCallTable : List SysCall :=
  [.syscallWrite, .syscallFork, .syscallExit, .syscallRead, .syscallOpen, .syscallClose,
    .syscallWait]

/-- The number that the stub for a function puts into `x8`: `SYS_CALL_WRITE`, `SYS_CALL_FORK`, and
so on. -/
def SysCall.number : SysCall → Nat
  | .syscallWrite => 0
  | .syscallFork => 1
  | .syscallExit => 2
  | .syscallRead => 3
  | .syscallOpen => 4
  | .syscallClose => 5
  | .syscallWait => 6

/-- Where `el0_sync` branches to. -/
inductive SyncTarget
  /-- `blr x16`. -/
  | handler (address : Word)
  | invalidSysCall
  | el0Da
  | syncInvalid
  deriving DecidableEq

/-- `el0_sys_call`.  The addresses behind `bl enable_irq` and `blr x16` are the links. -/
def el0SysCall (cpu : Cpu) (table enableLink handlerLink : Word) : SyncTarget × Cpu :=
  let cpu := cpu.set .x27 table
  let cpu := cpu.set .x26 (((cpu.x .x8).setWidth 32).setWidth 64)
  let cpu := cpu.set .x25 (BitVec.ofNat 64 nSyscalls)
  let cpu := cpu.set .x30 enableLink
  if cpu.x .x25 ≤ cpu.x .x26 then (.invalidSysCall, cpu)
  else
    let address := cpu.x .x27 + cpu.x .x26 <<< 3
    let cpu := cpu.set .x16 (loadWord cpu.memory address.toNat)
    (.handler (cpu.x .x16), cpu.set .x30 handlerLink)

/-- `el0_sync` behind `push_regs 0`, where `esr` is the contents of `esr_el1`. -/
def el0Sync (cpu : Cpu) (esr table enableLink handlerLink : Word) : SyncTarget × Cpu :=
  let cpu := cpu.set .x25 esr
  let cpu := cpu.set .x24 (cpu.x .x25 >>> esrEcShift)
  if cpu.x .x24 = esrEcSvc64 then el0SysCall cpu table enableLink handlerLink
  else if cpu.x .x24 = esrEcDabtLow then (.el0Da, cpu)
  else (.syncInvalid, cpu)

/-- A stub of the user library up to its `svc`. -/
def stubCode (call : SysCall) : List Instr := [.movImm .x8 call.number]

/-! ## The dispatch -/

theorem SysCall.number_lt (call : SysCall) : call.number < nSyscalls := by
  cases call <;> decide

theorem sysCallTable_number (call : SysCall) : sysCallTable[call.number]? = some call := by
  cases call <;> rfl

/-- The registers that `el0_sync` uses on its way to the handler. -/
def syncScratch : List Reg := [.x16, .x24, .x25, .x26, .x27, .x30]

section Dispatch

variable {cpu : Cpu} {esr table enableLink handlerLink : Word}

theorem el0Sync_keeps :
    (∀ reg ∉ syncScratch,
      (el0Sync cpu esr table enableLink handlerLink).2.x reg = cpu.x reg) ∧
      (el0Sync cpu esr table enableLink handlerLink).2.sp = cpu.sp ∧
      (el0Sync cpu esr table enableLink handlerLink).2.sys = cpu.sys ∧
      (el0Sync cpu esr table enableLink handlerLink).2.memory = cpu.memory := by
  unfold el0Sync el0SysCall
  dsimp only
  split_ifs <;> refine ⟨fun reg other => ?_, rfl, rfl, rfl⟩ <;>
    · simp only [syncScratch, List.mem_cons, List.not_mem_nil, or_false, not_or] at other
      simp [Cpu.set, Function.update, other]

/-- The word in `w8` selects the handler, if it is below `N_SYSCALLS`. -/
theorem el0Sync_svc (svc : esr >>> esrEcShift = esrEcSvc64) :
    (el0Sync cpu esr table enableLink handlerLink).1 =
      if (cpu.x .x8).toNat % 2 ^ 32 < nSyscalls then
        .handler (loadWord cpu.memory
          (table + BitVec.ofNat 64 (8 * ((cpu.x .x8).toNat % 2 ^ 32))).toNat)
      else .invalidSysCall := by
  have number : (((cpu.x .x8).setWidth 32).setWidth 64).toNat = (cpu.x .x8).toNat % 2 ^ 32 := by
    rw [BitVec.toNat_setWidth, BitVec.toNat_setWidth]
    omega
  have compare : BitVec.ofNat 64 nSyscalls ≤ ((cpu.x .x8).setWidth 32).setWidth 64 ↔
      ¬(cpu.x .x8).toNat % 2 ^ 32 < nSyscalls := by
    rw [BitVec.le_def, number, not_lt]
    rfl
  have target : (el0Sync cpu esr table enableLink handlerLink).1 =
      if BitVec.ofNat 64 nSyscalls ≤ ((cpu.x .x8).setWidth 32).setWidth 64 then .invalidSysCall
      else .handler (loadWord cpu.memory
        (table + (((cpu.x .x8).setWidth 32).setWidth 64 : Word) <<< 3).toNat) := by
    unfold el0Sync
    dsimp only
    rw [if_pos (by simpa [Cpu.set] using svc), el0SysCall]
    simp only [Cpu.set, ne_eq, reduceCtorEq, not_false_eq_true, Function.update_of_ne,
      Function.update_self]
    split_ifs <;> rfl
  rw [target, if_congr compare rfl rfl, ite_not]
  refine if_ctx_congr Iff.rfl (fun small => ?_) fun _ => rfl
  have shifted : (((cpu.x .x8).setWidth 32).setWidth 64 : Word) <<< 3 =
      BitVec.ofNat 64 (8 * ((cpu.x .x8).toNat % 2 ^ 32)) := by
    apply BitVec.eq_of_toNat_eq
    rw [BitVec.toNat_shiftLeft, number, Nat.shiftLeft_eq, BitVec.toNat_ofNat, Nat.mul_comm]
  rw [shifted]

end Dispatch

/-! ## Calls of the stubs -/

/-- The registers of the arguments of a function. -/
def argumentRegs : List Reg := [.x0, .x1, .x2, .x3, .x4, .x5, .x6, .x7]

/-- `sys_call_table` holds the addresses of the handlers and is not on the stack of the current
task. -/
structure CallTable (core : Core) (table : Word) (handlers : SysCall → Word) : Prop where
  entry : ∀ {index call}, sysCallTable[index]? = some call →
    loadWord core.cpu.memory (table.toNat + 8 * index) = handlers call
  fits : table.toNat + 8 * nSyscalls ≤ wordSize
  off_stack : table.toNat + 8 * nSyscalls ≤ core.stackLow core.current ∨
    core.stackTop core.current ≤ table.toNat

namespace Core

/-- A program before the `svc` of a stub. -/
def stub (core : Core) (call : SysCall) : Core :=
  { core with cpu := core.cpu.run (stubCode call) }

/-- `el0_sync` behind `push_regs 0`, up to its branch. -/
def dispatch (core : Core) (esr table enableLink handlerLink : Word) : Core :=
  { core with cpu := (el0Sync core.cpu esr table enableLink handlerLink).2 }

end Core

/-- The call of a stub is the call of a function.  Its handler gets the arguments, and when it is
done the program has the result in `x0`, the number in `x8`, and all else as it was. -/
def StubsAreCalls (image : Image) (core : Core) : Prop :=
  ∀ (call : SysCall) (elr spsr esr table enableLink handlerLink : Word) (handlers : SysCall → Word),
    core.user = true → esr >>> esrEcShift = esrEcSvc64 → CallTable core table handlers →
      let calling := core.stub call
      let entered := calling.trap elr spsr
      let dispatched := entered.dispatch esr table enableLink handlerLink
      (el0Sync entered.cpu esr table enableLink handlerLink).1 = .handler (handlers call) ∧
        (∀ reg ∈ argumentRegs, dispatched.cpu.x reg = core.cpu.x reg) ∧
        ∀ {handled}, CoreRunWhile image
            (fun later => calling.entered :: calling.saved calling.current <:+
              later.saved calling.current) dispatched handled →
          handled.current = core.current →
          handled.CanReturn calling.entered (calling.saved calling.current) →
            ptRegs 0 handled.retFromSyscall.cpu =
              ((ptRegs 0 (takeException core.cpu elr spsr)).set 0 (handled.cpu.x .x0)).set 8
                (BitVec.ofNat 64 call.number)

/-- Numbers that have no handler are refused. -/
def OthersRefused (core : Core) : Prop :=
  ∀ elr spsr esr table enableLink handlerLink : Word,
    core.user = true → esr >>> esrEcShift = esrEcSvc64 →
      nSyscalls ≤ (core.cpu.x .x8).toNat % 2 ^ 32 →
        (el0Sync (core.trap elr spsr).cpu esr table enableLink handlerLink).1 = .invalidSysCall

section Calls

variable {image : Image} {start core : Core}

theorem x_trap {elr spsr : Word} {reg : Reg} (other : reg ∉ [Reg.x21, .x22, .x23]) :
    (core.trap elr spsr).cpu.x reg = core.cpu.x reg := by
  have targets : (pushRegs core.el).flatMap Cpu.targets = [.x21, .x22, .x23] := by
    unfold pushRegs
    split_ifs <;> rfl
  exact Cpu.x_run_of_notMem (targets ▸ other)

theorem x8_stub (call : SysCall) :
    (core.stub call).cpu.x .x8 = BitVec.ofNat 64 call.number := rfl

theorem x_stub (call : SysCall) {reg : Reg} (other : reg ≠ .x8) :
    (core.stub call).cpu.x reg = core.cpu.x reg := Function.update_of_ne other ..

/-- The number of a stub is the only difference to the registers of the program. -/
theorem ptRegs_stub (call : SysCall) (elr spsr : Word) :
    ptRegs 0 (takeException (core.stub call).cpu elr spsr) =
      (ptRegs 0 (takeException core.cpu elr spsr)).set 8 (BitVec.ofNat 64 call.number) := rfl

theorem CoreInv.entry_trap (inv : CoreInv image core) {table elr spsr : Word}
    {handlers : SysCall → Word} (stored : CallTable core table handlers)
    (room : core.user = false → core.HasRoom) {index : Nat} {call : SysCall}
    (entry : sysCallTable[index]? = some call) :
    loadWord (core.trap elr spsr).cpu.memory (table.toNat + 8 * index) = handlers call := by
  obtain ⟨bottom, top, -⟩ := inv.hasRoom room
  obtain ⟨bound, -⟩ := List.getElem?_eq_some_iff.mp entry
  have short : index < 7 := bound
  have off := stored.off_stack
  rw [← stored.entry entry, (inv.run_trap elr spsr room).2]
  apply loadWord_congr
  intro address lower upper
  apply storeWords_outside
  rw [length_ptRegs]
  simp only [sFrameSize, nSyscalls] at bottom off ⊢
  omega

theorem CoreInv.stubsAreCalls (inv : CoreInv image core) : StubsAreCalls image core := by
  intro call elr spsr esr table enableLink handlerLink handlers user svc stored
    calling entered dispatched
  have stub : CoreStep image core calling := .work _ (fun _ => rfl) fun _ => rfl
  have calling_inv := stub.inv inv
  have no_kernel : calling.user = false → calling.HasRoom := fun kernel =>
    absurd (kernel.symm.trans user) (by decide)
  have trapped : CoreStep image calling entered := .trap elr spsr no_kernel
  obtain ⟨registers, stack, system, memory⟩ :=
    @el0Sync_keeps entered.cpu esr table enableLink handlerLink
  have number : (entered.cpu.x .x8).toNat % 2 ^ 32 = call.number := by
    have small := call.number_lt
    rw [x_trap (by decide), x8_stub, BitVec.toNat_ofNat]
    simp only [nSyscalls] at small
    omega
  have stub_stored : CallTable calling table handlers :=
    ⟨stored.entry, stored.fits, stored.off_stack⟩
  refine ⟨?_, fun reg argument => ?_, fun {handled} run same can => ?_⟩
  · have small := call.number_lt
    have fits := stored.fits
    have address : (table + BitVec.ofNat 64 (8 * call.number)).toNat =
        table.toNat + 8 * call.number := Cpu.toNat_add_ofNat (by
      change _ ≤ 2 ^ 64 at fits
      omega)
    rw [el0Sync_svc svc, number, if_pos small, address,
      calling_inv.entry_trap stub_stored no_kernel (sysCallTable_number call)]
  · have plain : reg ∉ syncScratch ∧ reg ∉ [Reg.x21, .x22, .x23] ∧ reg ≠ .x8 := by
      revert reg
      decide
    exact (registers reg plain.1).trans ((x_trap plain.2.1).trans (x_stub call plain.2.2))
  · have latest : calling.entered :: calling.saved calling.current <:+
        entered.saved calling.current := by
      simp only [entered, Core.trap, Function.update_self]
      exact List.suffix_rfl
    have dispatch : CoreStep image entered dispatched :=
      .work _ (fun _ => congrFun memory _) fun _ => stack
    have returned := (calling_inv.exceptionTransparent elr spsr no_kernel
      (.head ⟨dispatch, latest⟩ run) same can).2 user
    rw [returned, ptRegs_stub]
    rfl

theorem othersRefused (core : Core) : OthersRefused core := by
  intro elr spsr esr table enableLink handlerLink user svc large
  rw [el0Sync_svc svc, x_trap (by decide), if_neg (Nat.not_lt.mpr large)]

/-- In every run a program calls the functions of `sys_call_table` through the stubs as it calls its
own functions, and no other number reaches a handler. -/
theorem system_calls_are_calls (started : CoreStarted image start)
    (run : CoreRun image start core) : StubsAreCalls image core ∧ OthersRefused core :=
  ⟨(run.inv started.inv).stubsAreCalls, othersRefused core⟩

/-- The frame of the exception is still the latest when the handler begins. -/
theorem Core.CanReturn.dispatch {saved : Saved} {rest : List Saved}
    (can : core.CanReturn saved rest)
    (esr table enableLink handlerLink : Word) :
    (core.dispatch esr table enableLink handlerLink).CanReturn saved rest where
  kernel := can.kernel
  latest := can.latest
  stack := (congrArg BitVec.toNat el0Sync_keeps.2.1).trans can.stack

end Calls

/-- A program that reads, with a handler that returns at once. -/
theorem system_calls_are_calls_read :
    let program := turnCore.ret 0
    let entered := (program.stub .syscallRead).trap 1 2
    (el0Sync entered.cpu 0x54000000 0 3 4).1 = .handler 0 ∧
      ptRegs 0 (entered.dispatch 0x54000000 0 3 4).retFromSyscall.cpu =
        ((ptRegs 0 (takeException program.cpu 1 2)).set 0
          ((entered.dispatch 0x54000000 0 3 4).cpu.x .x0)).set 8 3 := by
  -- The program is a variable, so that nothing runs its code when terms are compared.
  have of_program {program : Core} (enter : CoreStep smallImage turnCore program)
      (user : program.user = true) (empty : program.cpu.memory = fun _ => 0)
      (high : 56 ≤ program.stackLow program.current) :
      (el0Sync ((program.stub .syscallRead).trap 1 2).cpu 0x54000000 0 3 4).1 = .handler 0 ∧
        let dispatched := ((program.stub .syscallRead).trap 1 2).dispatch 0x54000000 0 3 4
        ptRegs 0 dispatched.retFromSyscall.cpu =
          ((ptRegs 0 (takeException program.cpu 1 2)).set 0 (dispatched.cpu.x .x0)).set 8 3 := by
    have stored : CallTable program 0 fun _ => 0 := by
      refine ⟨fun {index call} _ => ?_, by decide, Or.inl high⟩
      rw [loadWord, Memory.read_zero fun _ _ _ => congrFun empty _]
      rfl
    obtain ⟨calls, -⟩ := system_calls_are_calls turnCore_started (.single enter)
    obtain ⟨handler, -, returned⟩ := calls .syscallRead 1 2 0x54000000 0 3 4 (fun _ => 0) user
      (by decide) stored
    have stub : CoreStep smallImage program (program.stub .syscallRead) :=
      .work _ (fun _ => rfl) fun _ => rfl
    have calling := stub.inv (enter.inv turnCore_started.inv)
    have can : ((program.stub .syscallRead).trap 1 2).CanReturn _ _ :=
      calling.canReturn_trap fun kernel => absurd (kernel.symm.trans user) (by decide)
    exact ⟨handler, returned .refl rfl (can.dispatch _ _ _ _)⟩
  have stack : turnCore.cpu.sp.toNat = getTaskPtRegs turnCore.current :=
    toNat_getTaskPtRegs (kernelAdr 0)
  have enter : CoreStep smallImage turnCore (turnCore.ret 0) := .start rfl rfl rfl stack
  have high (task : Nat) : 56 ≤ (turnCore.ret 0).stackLow task := by
    simp only [Core.ret, turnCore, taskStructEnd]
    omega
  exact of_program enter rfl (memory_ret turnCore 0) (high (turnCore.ret 0).current)

end PellOs

import PellOs.Lib.A64
import PellOs.Scheduler.Kernel

/-!
# Saved registers

The macros `push_regs` and `pop_regs` of `entry.S` and the function `cpu_switch_to` of `task.S`,
instruction by instruction.  What they store has the layout of `task_pt_regs` and of `cpu_context`,
and what they load is what is stored there, whichever registers they use on the way.
-/

namespace PellOs

open A64

/-! ## Layout of `task_pt_regs` -/

namespace PtRegs

/-- `regs[index]`. -/
def regs (index : Nat) : Field := ⟨8 * index, 8⟩

/-- `sp`. -/
def sp : Field := ⟨248, 8⟩

/-- `pc`. -/
def pc : Field := ⟨256, 8⟩

/-- `pstate`. -/
def pstate : Field := ⟨264, 8⟩

end PtRegs

/-- `S_FRAME_SIZE`. -/
def sFrameSize : Nat := 272

/-- `THREAD_CPU_CONTEXT`. -/
def threadCpuContext : Nat := 0

/-! ## The code -/

/-- `push_regs`. -/
def pushRegs (el : Nat) : List Instr :=
  [.subSp sFrameSize,
    .stp .x0 .x1 (16 * 0),
    .stp .x2 .x3 (16 * 1),
    .stp .x4 .x5 (16 * 2),
    .stp .x6 .x7 (16 * 3),
    .stp .x8 .x9 (16 * 4),
    .stp .x10 .x11 (16 * 5),
    .stp .x12 .x13 (16 * 6),
    .stp .x14 .x15 (16 * 7),
    .stp .x16 .x17 (16 * 8),
    .stp .x18 .x19 (16 * 9),
    .stp .x20 .x21 (16 * 10),
    .stp .x22 .x23 (16 * 11),
    .stp .x24 .x25 (16 * 12),
    .stp .x26 .x27 (16 * 13),
    .stp .x28 .x29 (16 * 14),
    if el = 0 then .mrs .x21 .spEl0 else .addFromSp .x21 sFrameSize,
    .mrs .x22 .elrEl1,
    .mrs .x23 .spsrEl1,
    .stp .x30 .x21 (16 * 15),
    .stp .x22 .x23 (16 * 16)]

/-- `pop_regs`. -/
def popRegs (el : Nat) : List Instr :=
  let stack : List Instr := if el = 0 then [.msr .spEl0 .x21] else []
  .ldp .x22 .x23 (16 * 16) ::
  .ldp .x30 .x21 (16 * 15) ::
  List.append stack
  [.msr .elrEl1 .x22,
    .msr .spsrEl1 .x23,
    .ldp .x0 .x1 (16 * 0),
    .ldp .x2 .x3 (16 * 1),
    .ldp .x4 .x5 (16 * 2),
    .ldp .x6 .x7 (16 * 3),
    .ldp .x8 .x9 (16 * 4),
    .ldp .x10 .x11 (16 * 5),
    .ldp .x12 .x13 (16 * 6),
    .ldp .x14 .x15 (16 * 7),
    .ldp .x16 .x17 (16 * 8),
    .ldp .x18 .x19 (16 * 9),
    .ldp .x20 .x21 (16 * 10),
    .ldp .x22 .x23 (16 * 11),
    .ldp .x24 .x25 (16 * 12),
    .ldp .x26 .x27 (16 * 13),
    .ldp .x28 .x29 (16 * 14),
    .addSp sFrameSize]

/-- `cpu_switch_to` up to its `ret`. -/
def cpuSwitchToCode : List Instr :=
  [.movImm .x10 threadCpuContext,
    .add .x8 .x0 .x10,
    .movFromSp .x9,
    .stpPost .x19 .x20 .x8,
    .stpPost .x21 .x22 .x8,
    .stpPost .x23 .x24 .x8,
    .stpPost .x25 .x26 .x8,
    .stpPost .x27 .x28 .x8,
    .stpPost .x29 .x9 .x8,
    .strPost .x30 .x8,
    .add .x8 .x1 .x10,
    .ldpPost .x19 .x20 .x8,
    .ldpPost .x21 .x22 .x8,
    .ldpPost .x23 .x24 .x8,
    .ldpPost .x25 .x26 .x8,
    .ldpPost .x27 .x28 .x8,
    .ldpPost .x29 .x9 .x8,
    .ldrPost .x30 .x8,
    .movToSp .x9]

/-! ## What is saved -/

/-- The stack pointer that `push_regs` stores. -/
def savedSp (el : Nat) (cpu : Cpu) : Word := if el = 0 then cpu.sys .spEl0 else cpu.sp

/-- The registers that `push_regs` and `pop_regs` handle in pairs. -/
def pairedRegs : List Reg :=
  [.x0, .x1, .x2, .x3, .x4, .x5, .x6, .x7, .x8, .x9, .x10, .x11, .x12, .x13, .x14, .x15, .x16,
    .x17, .x18, .x19, .x20, .x21, .x22, .x23, .x24, .x25, .x26, .x27, .x28, .x29]

/-- The registers that a called function has to preserve, without `x30`. -/
def calleeSavedRegs : List Reg :=
  [.x19, .x20, .x21, .x22, .x23, .x24, .x25, .x26, .x27, .x28, .x29]

/-- The registers in the order of `task_pt_regs`. -/
def ptRegs (el : Nat) (cpu : Cpu) : List Word :=
  pairedRegs.map cpu.x ++ [cpu.x .x30, savedSp el cpu, cpu.sys .elrEl1, cpu.sys .spsrEl1]

/-- The registers in the order of `cpu_context`. -/
def cpuContext (cpu : Cpu) : List Word := calleeSavedRegs.map cpu.x ++ [cpu.sp, cpu.x .x30]

@[simp] theorem length_ptRegs (el : Nat) (cpu : Cpu) : (ptRegs el cpu).length = 34 := rfl

@[simp] theorem length_cpuContext (cpu : Cpu) : (cpuContext cpu).length = 13 := rfl

/-! ## `push_regs` and `pop_regs` -/

/-- `push_regs` makes room on the stack and stores the registers there in the order of
`task_pt_regs`. -/
theorem run_pushRegs (el : Nat) {cpu : Cpu} (room : sFrameSize ≤ cpu.sp.toNat) :
    (cpu.run (pushRegs el)).sp.toNat = cpu.sp.toNat - sFrameSize ∧
      (cpu.run (pushRegs el)).memory =
        storeWords cpu.memory (cpu.sp.toNat - sFrameSize) (ptRegs el cpu) := by
  have top := cpu.sp.isLt
  have frame : (cpu.sp - BitVec.ofNat 64 sFrameSize).toNat = cpu.sp.toNat - sFrameSize := by
    simp only [sFrameSize] at room ⊢
    rw [BitVec.toNat_sub, BitVec.toNat_ofNat]
    omega
  have back : cpu.sp - BitVec.ofNat 64 sFrameSize + BitVec.ofNat 64 sFrameSize = cpu.sp :=
    BitVec.sub_add_cancel _ _
  let system : List Instr := [if el = 0 then .mrs .x21 .spEl0 else .addFromSp .x21 sFrameSize,
    .mrs .x22 .elrEl1, .mrs .x23 .spsrEl1]
  have split : pushRegs el = .subSp sFrameSize :: (Cpu.stpAll pairedRegs 0 ++
      (system ++ Cpu.stpAll [.x30, .x21, .x22, .x23] 240)) := rfl
  let saved : Cpu :=
    { cpu with
      sp := cpu.sp - BitVec.ofNat 64 sFrameSize
      memory := storeWords cpu.memory (cpu.sp.toNat - sFrameSize) (pairedRegs.map cpu.x) }
  have pairs : (cpu.exec (.subSp sFrameSize)).run (Cpu.stpAll pairedRegs 0) = saved := by
    have fits : (cpu.sp - BitVec.ofNat 64 sFrameSize).toNat + 0 + 8 * pairedRegs.length <
        2 ^ 64 := by
      rw [frame]
      simp only [sFrameSize, pairedRegs, List.length_cons, List.length_nil] at room ⊢
      omega
    rw [Cpu.exec, Cpu.run_stpAll (by decide) fits, Nat.add_zero, frame]
  have moved : saved.run system =
      ((saved.set .x21 (savedSp el cpu)).set .x22 (cpu.sys .elrEl1)).set .x23
        (cpu.sys .spsrEl1) := by
    have stack : saved.exec (if el = 0 then .mrs .x21 .spEl0 else .addFromSp .x21 sFrameSize) =
        saved.set .x21 (savedSp el cpu) := by
      rw [savedSp]
      split_ifs
      · rfl
      · rw [Cpu.exec, back]
    rw [show system = _ from rfl, Cpu.run_cons, stack]
    rfl
  have rest : (((saved.set .x21 (savedSp el cpu)).set .x22 (cpu.sys .elrEl1)).set .x23
      (cpu.sys .spsrEl1)).run (Cpu.stpAll [.x30, .x21, .x22, .x23] 240) = _ :=
    Cpu.run_stpAll (by decide) (by
      change (cpu.sp - BitVec.ofNat 64 sFrameSize).toNat + 240 + 8 * 4 < 2 ^ 64
      rw [frame]
      simp only [sFrameSize] at room ⊢
      omega)
  rw [split, Cpu.run_cons, Cpu.run_append, pairs, Cpu.run_append, moved, rest]
  refine ⟨frame, ?_⟩
  change storeWords (storeWords cpu.memory (cpu.sp.toNat - sFrameSize) (pairedRegs.map cpu.x))
      ((cpu.sp - BitVec.ofNat 64 sFrameSize).toNat + 240) _ = _
  rw [frame, ptRegs, storeWords_append]
  rfl

/-- The frame that `pop_regs` takes from the stack. -/
def poppedFrame (cpu : Cpu) : List Word := loadWords cpu.memory cpu.sp.toNat 34

/-- `pop_regs 0` sets the registers to the words of the frame and gives its room back. -/
theorem run_popRegs {cpu : Cpu} (fits : cpu.sp.toNat + sFrameSize < 2 ^ 64) :
    ptRegs 0 (cpu.run (popRegs 0)) = poppedFrame cpu ∧
      (cpu.run (popRegs 0)).sp.toNat = cpu.sp.toNat + sFrameSize ∧
      (cpu.run (popRegs 0)).memory = cpu.memory := by
  simp only [sFrameSize] at fits
  have offset : ∀ amount < 272, (cpu.sp + BitVec.ofNat 64 amount).toNat = cpu.sp.toNat + amount :=
    fun amount small => Cpu.toNat_add_ofNat (by omega)
  let system : List Instr := [.ldp .x22 .x23 256, .ldp .x30 .x21 240, .msr .spEl0 .x21,
    .msr .elrEl1 .x22, .msr .spsrEl1 .x23]
  have split : popRegs 0 = system ++ (Cpu.ldpAll pairedRegs 0 ++ [Instr.addSp 272]) := rfl
  let word (index : Nat) : Word := loadWord cpu.memory (cpu.sp.toNat + 8 * index)
  let loaded : Cpu :=
    { cpu with
      x := Cpu.setAll cpu.x [.x22, .x23, .x30, .x21] [word 32, word 33, word 30, word 31]
      sys := Function.update (Function.update (Function.update cpu.sys .spEl0 (word 31)) .elrEl1
        (word 32)) .spsrEl1 (word 33) }
  have top : cpu.run system = loaded := by
    have high : (cpu.sp + BitVec.ofNat 64 256).toNat = cpu.sp.toNat + 256 := offset 256 (by decide)
    have low : (cpu.sp + BitVec.ofNat 64 240).toNat = cpu.sp.toNat + 240 := offset 240 (by decide)
    rw [show system = _ from rfl, Cpu.run_cons, Cpu.exec, Cpu.loadPair_eq (by omega), high,
      Cpu.run_cons, Cpu.exec, Cpu.loadPair_eq (by dsimp only; omega)]
    dsimp only
    rw [low]
    rfl
  have rest : loaded.run (Cpu.ldpAll pairedRegs 0) = _ :=
    Cpu.run_ldpAll (by decide) (by
      simp only [pairedRegs, List.length_cons, List.length_nil]
      change cpu.sp.toNat + 0 + 8 * 30 < 2 ^ 64
      omega)
  rw [split, Cpu.run_append, top, Cpu.run_append, rest]
  refine ⟨?_, ?_, rfl⟩
  · have pairs := @Cpu.map_setAll loaded.x pairedRegs (loadWords cpu.memory cpu.sp.toNat 30)
      (by decide) (length_loadWords _ _ _).symm
    rw [poppedFrame, show 34 = 30 + 4 from rfl, loadWords_add, ptRegs]
    refine congrArg₂ List.append pairs ?_
    have link : Cpu.setAll loaded.x pairedRegs (loadWords cpu.memory (cpu.sp.toNat + 0) 30) .x30 =
        word 30 := Cpu.setAll_of_notMem (by decide)
    exact congrArg₂ List.cons link rfl
  · exact Cpu.toNat_add_ofNat fits

/-! ## `cpu_switch_to` -/

/-- The arguments of a call in `x0` and `x1`. -/
def callWith (cpu : Cpu) (x0 x1 : Nat) : Cpu :=
  (cpu.set .x0 (BitVec.ofNat 64 x0)).set .x1 (BitVec.ofNat 64 x1)

/-- `cpu_switch_to(prev, next)`. -/
def callCpuSwitchTo (cpu : Cpu) (prev next : Nat) : Cpu :=
  (callWith cpu prev next).run cpuSwitchToCode

/-- The registers that `cpu_switch_to` moves in pairs, with the stack pointer in `x9`. -/
def switchedRegs : List Reg := calleeSavedRegs ++ [Reg.x9]

theorem map_switchedRegs {x : Reg → Word} : switchedRegs.map x = calleeSavedRegs.map x ++ [x .x9] :=
  List.map_append

/-- The first half of `cpu_switch_to`. -/
def switchOutCode : List Instr :=
  [Instr.movImm .x10 threadCpuContext, Instr.add .x8 .x0 .x10, Instr.movFromSp .x9] ++
    (Cpu.stpPostAll .x8 switchedRegs ++ [Instr.strPost .x30 .x8, Instr.add .x8 .x1 .x10])

/-- The second half of `cpu_switch_to`. -/
def switchInCode : List Instr :=
  Cpu.ldpPostAll .x8 switchedRegs ++ [Instr.ldrPost .x30 .x8, Instr.movToSp .x9]

theorem cpuSwitchToCode_eq : cpuSwitchToCode = switchOutCode ++ switchInCode := rfl

theorem memory_strPost_add (cpu : Cpu) :
    (cpu.run [.strPost .x30 .x8, .add .x8 .x1 .x10]).memory =
      storeWord cpu.memory (cpu.x .x8).toNat (cpu.x .x30) := rfl

theorem cpuContext_ldrPost_movToSp (cpu : Cpu) :
    PellOs.cpuContext (cpu.run [.ldrPost .x30 .x8, .movToSp .x9]) =
      calleeSavedRegs.map cpu.x ++ [cpu.x .x9, loadWord cpu.memory (cpu.x .x8).toNat] := rfl

/-- The first half stores the registers of the running task in its `cpu_context`. -/
theorem run_switchOut {cpu : Cpu} {prev next : Nat} (prev_fits : prev + 104 < 2 ^ 64) :
    ((callWith cpu prev next).run switchOutCode).memory =
        storeWords cpu.memory prev (PellOs.cpuContext cpu) ∧
      ((callWith cpu prev next).run switchOutCode).x .x8 = BitVec.ofNat 64 next ∧
      ((callWith cpu prev next).run switchOutCode).sys = cpu.sys := by
  let start : Cpu := (callWith cpu prev next).run [.movImm .x10 threadCpuContext,
    .add .x8 .x0 .x10, .movFromSp .x9]
  have base : start.x .x8 = BitVec.ofNat 64 prev := BitVec.add_zero _
  have base_toNat : (start.x .x8).toNat = prev := by
    rw [base, BitVec.toNat_ofNat, Nat.mod_eq_of_lt (by omega)]
  have stored := @Cpu.run_stpPostAll start switchedRegs .x8 (by decide) (by decide) (by
    rw [base_toNat]
    change prev + 96 < 2 ^ 64
    omega)
  have last : (start.x .x8 + BitVec.ofNat 64 (8 * switchedRegs.length)).toNat = prev + 96 := by
    rw [Cpu.toNat_add_ofNat, base_toNat]
    · rfl
    · rw [base_toNat]
      change prev + 96 < 2 ^ 64
      omega
  have words : switchedRegs.map start.x = calleeSavedRegs.map cpu.x ++ [cpu.sp] := rfl
  rw [base_toNat, words] at stored
  rw [switchOutCode, Cpu.run_append, Cpu.run_append, stored]
  refine ⟨?_, BitVec.add_zero _, rfl⟩
  rw [memory_strPost_add, PellOs.cpuContext,
    show [cpu.sp, cpu.x .x30] = [cpu.sp] ++ [cpu.x .x30] from rfl, ← List.append_assoc,
    storeWords_append _ _ _ [cpu.x .x30]]
  dsimp only
  rw [Function.update_self, last]
  rfl

theorem run_switchIn {cpu : Cpu} {next : Nat} (base : cpu.x .x8 = BitVec.ofNat 64 next)
    (next_fits : next + 104 < 2 ^ 64) :
    PellOs.cpuContext (cpu.run switchInCode) = loadWords cpu.memory next 13 ∧
      (cpu.run switchInCode).memory = cpu.memory ∧ (cpu.run switchInCode).sys = cpu.sys := by
  have base_toNat : (cpu.x .x8).toNat = next := by
    rw [base, BitVec.toNat_ofNat, Nat.mod_eq_of_lt (by omega)]
  have loaded := @Cpu.run_ldpPostAll cpu switchedRegs .x8 (by decide) (by decide) (by
    rw [base_toNat]
    change next + 96 < 2 ^ 64
    omega)
  have last : (cpu.x .x8 + BitVec.ofNat 64 (8 * switchedRegs.length)).toNat = next + 96 := by
    rw [Cpu.toNat_add_ofNat, base_toNat]
    · rfl
    · rw [base_toNat]
      change next + 96 < 2 ^ 64
      omega
  have words := @Cpu.map_setAll cpu.x switchedRegs (loadWords cpu.memory next 12) (by decide)
    (length_loadWords _ _ _).symm
  rw [map_switchedRegs] at words
  rw [base_toNat] at loaded
  rw [switchInCode, Cpu.run_append, loaded]
  refine ⟨?_, rfl, rfl⟩
  rw [cpuContext_ldrPost_movToSp, show 13 = 12 + 1 from rfl, loadWords_add, ← words,
    List.append_assoc]
  dsimp only
  rw [Function.update_self, last, Function.update_of_ne (by decide)]
  refine congrArg₂ List.append (List.map_congr_left fun reg member => ?_) rfl
  refine Function.update_of_ne ?_ _ _
  rintro rfl
  exact absurd member (by decide)

/-- `cpu_switch_to` stores the registers of the running task in its `cpu_context` and sets them to
the words of the other one. -/
theorem run_callCpuSwitchTo {cpu : Cpu} {prev next : Nat} (prev_fits : prev + 104 < 2 ^ 64)
    (next_fits : next + 104 < 2 ^ 64) :
    (callCpuSwitchTo cpu prev next).memory = storeWords cpu.memory prev (PellOs.cpuContext cpu) ∧
      PellOs.cpuContext (callCpuSwitchTo cpu prev next) =
        loadWords (callCpuSwitchTo cpu prev next).memory next 13 ∧
      (callCpuSwitchTo cpu prev next).sys = cpu.sys := by
  obtain ⟨stored, base, out_sys⟩ := @run_switchOut cpu prev next prev_fits
  obtain ⟨loaded, kept, in_sys⟩ := run_switchIn base next_fits
  rw [callCpuSwitchTo, cpuSwitchToCode_eq, Cpu.run_append, kept]
  exact ⟨stored, loaded, in_sys.trans out_sys⟩

/-! ## What stands where -/

theorem get_of_loadWords {memory : Memory} {base count index : Nat} {words : List Word}
    {word : Word}
    (stored : loadWords memory base count = words) (entry : words[index]? = some word)
    (fits : base + 8 * index < wordSize) :
    (⟨8 * index, 8⟩ : Field).get memory base = word.toNat := by
  subst stored
  obtain ⟨bound, rfl⟩ := List.getElem?_eq_some_iff.mp entry
  have small : memory.read (base + 8 * index) 8 < 2 ^ 64 := memory.read_lt _ _
  rw [Field.get_eq fits, getElem_loadWords, loadWord, BitVec.toNat_ofNat, Nat.mod_eq_of_lt small]

/-- A `task_pt_regs` holds each register of EL0 in its own member. -/
structure FrameStored (memory : Memory) (frame : Nat) (cpu : Cpu) : Prop where
  regs : ∀ {index reg}, (pairedRegs ++ [Reg.x30])[index]? = some reg →
    (PtRegs.regs index).get memory frame = (cpu.x reg).toNat
  sp : PtRegs.sp.get memory frame = (cpu.sys .spEl0).toNat
  pc : PtRegs.pc.get memory frame = (cpu.sys .elrEl1).toNat
  pstate : PtRegs.pstate.get memory frame = (cpu.sys .spsrEl1).toNat

/-- A `cpu_context` holds each register of a task in its own member. -/
structure ContextStored (memory : Memory) (task : Nat) (cpu : Cpu) : Prop where
  regs : ∀ {index reg}, calleeSavedRegs[index]? = some reg →
    (Task.cpuContext index).get memory task = (cpu.x reg).toNat
  sp : Task.sp.get memory task = cpu.sp.toNat
  pc : Task.pc.get memory task = (cpu.x .x30).toNat

theorem getElem?_map_append {x : Reg → Word} {regs : List Reg} (rest : List Word) {index : Nat}
    {reg : Reg} (entry : regs[index]? = some reg) :
    (regs.map x ++ rest)[index]? = some (x reg) := by
  obtain ⟨bound, _⟩ := List.getElem?_eq_some_iff.mp entry
  rw [List.getElem?_append_left (by rwa [List.length_map]), List.getElem?_map, entry]
  rfl

theorem frameStored_of_loadWords {memory : Memory} {frame : Nat} {cpu : Cpu}
    (stored : loadWords memory frame 34 = ptRegs 0 cpu) (fits : frame + sFrameSize ≤ wordSize) :
    FrameStored memory frame cpu := by
  simp only [sFrameSize] at fits
  have order : ptRegs 0 cpu = (pairedRegs ++ [Reg.x30]).map cpu.x ++
      [cpu.sys .spEl0, cpu.sys .elrEl1, cpu.sys .spsrEl1] := rfl
  refine ⟨?_, ?_, ?_, ?_⟩
  · intro index reg entry
    obtain ⟨bound, _⟩ := List.getElem?_eq_some_iff.mp entry
    have short : index < 31 := bound
    refine get_of_loadWords stored ?_ (by omega)
    rw [order]
    exact getElem?_map_append _ entry
  · exact @get_of_loadWords _ _ _ 31 _ _ stored rfl (by omega)
  · exact @get_of_loadWords _ _ _ 32 _ _ stored rfl (by omega)
  · exact @get_of_loadWords _ _ _ 33 _ _ stored rfl (by omega)

theorem contextStored_of_loadWords {memory : Memory} {task : Nat} {cpu : Cpu}
    (stored : loadWords memory task 13 = PellOs.cpuContext cpu) (fits : task + 104 ≤ wordSize) :
    ContextStored memory task cpu := by
  refine ⟨?_, ?_, ?_⟩
  · intro index reg entry
    obtain ⟨bound, _⟩ := List.getElem?_eq_some_iff.mp entry
    have short : index < 11 := bound
    exact get_of_loadWords stored (getElem?_map_append _ entry) (by omega)
  · exact @get_of_loadWords _ _ _ 11 _ _ stored rfl (by omega)
  · exact @get_of_loadWords _ _ _ 12 _ _ stored rfl (by omega)

/-! ## The task switch of the scheduler -/

/-- The kernel's registers and memory are those of the core. -/
structure RunsOn (kernel : Kernel) (cpu : Cpu) : Prop where
  memory : kernel.memory = cpu.memory
  registers : ∀ {index word}, (PellOs.cpuContext cpu)[index]? = some word →
    kernel.registers index = word.toNat

theorem foldl_setContext (memory : Memory) {task : Nat} {values : Nat → Nat} {words : List Word}
    (same : ∀ {index word}, words[index]? = some word → values index = word.toNat)
    (fits : task + 8 * words.length ≤ wordSize) :
    (List.range words.length).foldl
        (fun memory index => (Task.cpuContext index).set memory task (values index)) memory =
      storeWords memory task words := by
  induction words using List.reverseRecOn with
  | nil => rfl
  | append_singleton front last ih =>
      rw [List.length_append, List.length_singleton] at fits ⊢
      have last_value : values front.length = last.toNat := same (by simp)
      have front_same : ∀ {index word}, front[index]? = some word → values index = word.toNat := by
        intro index word entry
        obtain ⟨bound, _⟩ := List.getElem?_eq_some_iff.mp entry
        exact same (by rw [List.getElem?_append_left bound, entry])
      rw [List.range_succ, List.foldl_append, ih front_same (by omega), List.foldl_cons,
        List.foldl_nil, storeWords_append, last_value,
        Field.set_eq (by simp only [Task.cpuContext]; omega)]
      rfl

/-- The code of `cpu_switch_to` does what the scheduler's model of it does. -/
theorem RunsOn.cpuSwitchTo {kernel : Kernel} {cpu : Cpu} {prev next : Nat}
    (runs : RunsOn kernel cpu)
    (prev_fits : prev + 104 < 2 ^ 64) (next_fits : next + 104 < 2 ^ 64) :
    RunsOn (PellOs.cpuSwitchTo kernel prev next) (callCpuSwitchTo cpu prev next) := by
  have word : wordSize = 2 ^ 64 := rfl
  obtain ⟨stored, loaded, -⟩ := @run_callCpuSwitchTo cpu prev next prev_fits next_fits
  have memory : (PellOs.cpuSwitchTo kernel prev next).memory =
      storeWords kernel.memory prev (PellOs.cpuContext cpu) :=
    @foldl_setContext _ _ _ (PellOs.cpuContext cpu) runs.registers
      (by rw [length_cpuContext]; omega)
  refine ⟨?_, ?_⟩
  · rw [memory, stored, runs.memory]
  · intro index value entry
    obtain ⟨bound, _⟩ := List.getElem?_eq_some_iff.mp entry
    rw [length_cpuContext] at bound
    have held := get_of_loadWords loaded.symm entry (by omega)
    rw [stored, ← runs.memory, ← memory] at held
    exact held

end PellOs

import PellOs.Mm.PageAllocator

/-!
# Layout of `task_struct`

A task lives in the first bytes of its own page; its saved user registers (`task_pt_regs`) are the
last bytes of that page.  Fields are read and written through their byte offsets, so a store with
an index outside an array lands on whatever is laid out there.
-/

namespace PellOs

/-- A scalar member of a C structure. -/
structure Field where
  offset : Nat
  width : Nat

namespace Field

/-- `base->field`. -/
def get (field : Field) (memory : Memory) (base : Nat) : Nat :=
  memory.read ((base + field.offset) % wordSize) field.width

/-- `base->field = value`. -/
def set (field : Field) (memory : Memory) (base value : Nat) : Memory :=
  memory.write ((base + field.offset) % wordSize) field.width value

end Field

/-- `N_TASKS`. -/
def nTasksMax : Nat := 64

/-- `MAX_PROCESS_PAGES`. -/
def maxProcessPages : Nat := 16

/-- `TASK_SIZE`. -/
def taskSize : Nat := 4096

/-- `TASK_FLAGS_KERNEL_THREAD`. -/
def taskFlagsKernelThread : Nat := 0x2

/-- `enum TaskState`. -/
inductive TaskState
  | running
  | blocked
  | suspended
  | waiting
  | zombie
  deriving DecidableEq, Repr

/-- The value stored for a state. -/
def TaskState.toNat : TaskState → Nat
  | .running => 0
  | .blocked => 1
  | .suspended => 2
  | .waiting => 3
  | .zombie => 4

namespace Task

/-! ## `task_struct` -/

/-- `cpu_context`, word `index` of `x19 … x28, fp, sp, pc`. -/
def cpuContext (index : Nat) : Field := ⟨8 * index, 8⟩

/-- `cpu_context.x19`. -/
def x19 : Field := cpuContext 0

/-- `cpu_context.x20`. -/
def x20 : Field := cpuContext 1

/-- `cpu_context.sp`. -/
def sp : Field := cpuContext 11

/-- `cpu_context.pc`. -/
def pc : Field := cpuContext 12

/-- `state`. -/
def state : Field := ⟨104, 4⟩

/-- `counter`. -/
def counter : Field := ⟨112, 8⟩

/-- `priority`. -/
def priority : Field := ⟨120, 8⟩

/-- `preempt_count`. -/
def preemptCount : Field := ⟨128, 8⟩

/-- `stack`. -/
def stack : Field := ⟨136, 8⟩

/-- `flags`. -/
def flags : Field := ⟨144, 8⟩

/-! ## `mm` -/

/-- `mm.pagedirectory`. -/
def pagedirectory : Field := ⟨152, 8⟩

/-- `mm.userpages_count`. -/
def userpagesCount : Field := ⟨160, 4⟩

/-- Offset of `mm.userpages`. -/
def userpagesOffset : Nat := 168

/-- `mm.kernelpages_count`. -/
def kernelpagesCount : Field := ⟨424, 4⟩

/-- Offset of `mm.kernelpages`. -/
def kernelpagesOffset : Nat := 432

/-- `mm.userpages[index].physical_adr`. -/
def userpagePhysical (index : Nat) : Field := ⟨userpagesOffset + 16 * index, 8⟩

/-- `mm.userpages[index].virtual_adr`. -/
def userpageVirtual (index : Nat) : Field := ⟨userpagesOffset + 16 * index + 8, 8⟩

/-- `mm.kernelpages[index]`. -/
def kernelpage (index : Nat) : Field := ⟨kernelpagesOffset + 8 * index, 8⟩

/-! ## `fd_table` -/

/-- `fd_table.bitmap`. -/
def fdTableBitmap : Field := ⟨560, 8⟩

/-- `fd_table.file`. -/
def fdTableFile : Field := ⟨568, 8⟩

end Task

/-- `sizeof(task_pt_regs)`: 31 registers, `sp`, `pc` and `pstate`. -/
def sizeofPtRegs : Nat := 272

/-- `get_task_pt_regs`. -/
def getTaskPtRegs (task : Nat) : Nat := (task + taskSize - sizeofPtRegs) % wordSize

/-- A 32-bit signed index as a 64-bit offset. -/
def signExtend (index : Nat) : Nat :=
  if index < 2 ^ 31 then index else index + (wordSize - 2 ^ 32)

/-! ## Access lemmas -/

namespace Field

variable {memory : Memory} {base : Nat} {field : Field}

theorem get_eq (fits : base + field.offset < wordSize) :
    field.get memory base = memory.read (base + field.offset) field.width := by
  rw [get, Nat.mod_eq_of_lt fits]

theorem set_eq (fits : base + field.offset < wordSize) (value : Nat) :
    field.set memory base value = memory.write (base + field.offset) field.width value := by
  rw [set, Nat.mod_eq_of_lt fits]

theorem get_congr {after : Memory} (fits : base + field.offset < wordSize)
    (agree : memory.AgreeOn after (base + field.offset) field.width) :
    field.get after base = field.get memory base := by
  rw [get_eq fits, get_eq fits, Memory.read_congr agree]

theorem get_set_same (fits : base + field.offset < wordSize) {value : Nat}
    (small : value < 256 ^ field.width) : field.get (field.set memory base value) base = value := by
  rw [get_eq fits, set_eq fits, Memory.read_write_same, Nat.mod_eq_of_lt small]

theorem get_lt (field : Field) (memory : Memory) (base : Nat) :
    field.get memory base < 256 ^ field.width :=
  memory.read_lt _ _

theorem agreeOn_set (fits : base + field.offset < wordSize) (value : Nat) {address count : Nat}
    (disjoint : address + count ≤ base + field.offset ∨
      base + field.offset + field.width ≤ address) :
    memory.AgreeOn (field.set memory base value) address count := by
  rw [set_eq fits]
  exact Memory.agreeOn_write _ disjoint

end Field

theorem signExtend_of_lt {index : Nat} (small : index < 2 ^ 31) : signExtend index = index :=
  if_pos small

end PellOs

import PellOs.Lib.ByteMemory

/-!
# Straight-line A64 code

The registers of one core and the instructions that save and restore them.  Blocks of pair stores
and pair loads are stated as a whole: a block stores the words of a list of registers one after the
other, or sets the registers of a list to consecutive words.
-/

namespace A64

/-- Contents of a 64-bit register. -/
abbrev Word := BitVec 64

/-- The general registers. -/
inductive Reg
  | x0 | x1 | x2 | x3 | x4 | x5 | x6 | x7 | x8 | x9
  | x10 | x11 | x12 | x13 | x14 | x15 | x16 | x17 | x18 | x19
  | x20 | x21 | x22 | x23 | x24 | x25 | x26 | x27 | x28 | x29 | x30
  deriving DecidableEq

/-- System registers that an exception saves. -/
inductive SysReg
  | spEl0
  | elrEl1
  | spsrEl1
  deriving DecidableEq

/-- Registers at EL1 and memory. -/
structure Cpu where
  /-- Contents of `x0 … x30`. -/
  x : Reg → Word
  /-- The stack pointer of EL1. -/
  sp : Word
  sys : SysReg → Word
  memory : Memory

/-! ## Words in memory -/

/-- The word at an address. -/
def loadWord (memory : Memory) (address : Nat) : Word := BitVec.ofNat 64 (memory.read address 8)

/-- Overwrite the word at an address. -/
def storeWord (memory : Memory) (address : Nat) (word : Word) : Memory :=
  memory.write address 8 word.toNat

/-- Consecutive words from an address on. -/
def loadWords (memory : Memory) (address : Nat) : Nat → List Word
  | 0 => []
  | count + 1 => loadWord memory address :: loadWords memory (address + 8) count

/-- Overwrite consecutive words from an address on. -/
def storeWords (memory : Memory) (address : Nat) : List Word → Memory
  | [] => memory
  | word :: rest => storeWords (storeWord memory address word) (address + 8) rest

@[simp] theorem length_loadWords (memory : Memory) (address count : Nat) :
    (loadWords memory address count).length = count := by
  induction count generalizing address with
  | zero => rfl
  | succ count ih => rw [loadWords, List.length_cons, ih]

theorem loadWord_congr {before after : Memory} {address : Nat}
    (agree : before.AgreeOn after address 8) :
    loadWord after address = loadWord before address := by
  rw [loadWord, loadWord, Memory.read_congr agree]

theorem loadWords_congr {before after : Memory} {address count : Nat}
    (agree : before.AgreeOn after address (8 * count)) :
    loadWords after address count = loadWords before address count := by
  induction count generalizing address with
  | zero => rfl
  | succ count ih =>
      rw [loadWords, loadWords, loadWord_congr (agree.mono (le_refl _) (by omega)),
        ih (agree.mono (by omega) (by omega))]

theorem loadWords_shift {left right : Memory} {address other count : Nat}
    (same : ∀ offset < 8 * count, left (address + offset) = right (other + offset)) :
    loadWords left address count = loadWords right other count := by
  induction count generalizing address other with
  | zero => rfl
  | succ count ih =>
      have first : loadWord left address = loadWord right other := by
        rw [loadWord, loadWord,
          Memory.read_eq_read fun offset inside => same offset (by omega)]
      rw [loadWords, loadWords, first, ih fun offset inside => ?_]
      rw [Nat.add_assoc, Nat.add_assoc]
      exact same (8 + offset) (by omega)

theorem loadWords_add (memory : Memory) (address few more : Nat) :
    loadWords memory address (few + more) =
      loadWords memory address few ++ loadWords memory (address + 8 * few) more := by
  induction few generalizing address with
  | zero => rw [Nat.zero_add, loadWords, List.nil_append, Nat.mul_zero, Nat.add_zero]
  | succ few ih =>
      rw [Nat.succ_add, loadWords, loadWords, ih, List.cons_append,
        show address + 8 + 8 * few = address + 8 * (few + 1) by omega]

theorem getElem_loadWords (memory : Memory) (address : Nat) {count index : Nat}
    (bound : index < (loadWords memory address count).length) :
    (loadWords memory address count)[index] = loadWord memory (address + 8 * index) := by
  induction count generalizing address index with
  | zero => exact absurd bound (Nat.not_lt_zero index)
  | succ count ih =>
      cases index with
      | zero => rfl
      | succ index =>
          have rest := @ih (address + 8) index (by simpa using bound)
          rw [show address + 8 + 8 * index = address + 8 * (index + 1) by omega] at rest
          exact rest

theorem loadWord_storeWord (memory : Memory) (address : Nat) (word : Word) :
    loadWord (storeWord memory address word) address = word := by
  have small : word.toNat < 256 ^ 8 := word.isLt
  rw [loadWord, storeWord, Memory.read_write_same, Nat.mod_eq_of_lt small, BitVec.ofNat_toNat,
    BitVec.setWidth_eq]

theorem loadWords_storeWord (memory : Memory) (address count : Nat) (word : Word) :
    loadWords (storeWord memory address word) address (count + 1) =
      word :: (loadWords memory address (count + 1)).tail := by
  have rest : memory.AgreeOn (storeWord memory address word) (address + 8) (8 * count) :=
    fun _ lower _ => Memory.write_outside _ (Or.inr lower)
  rw [loadWords, loadWord_storeWord, loadWords_congr rest, loadWords, List.tail_cons]

theorem storeWords_outside (memory : Memory) {address target : Nat} {words : List Word}
    (outside : target < address ∨ address + 8 * words.length ≤ target) :
    storeWords memory address words target = memory target := by
  induction words generalizing memory address with
  | nil => rfl
  | cons word rest ih =>
      rw [List.length_cons] at outside
      rw [storeWords, ih _ (by omega), storeWord, Memory.write_outside _ (by omega)]

theorem loadWords_storeWords (memory : Memory) (address : Nat) (words : List Word) :
    loadWords (storeWords memory address words) address words.length = words := by
  induction words generalizing memory address with
  | nil => rfl
  | cons word rest ih =>
      rw [storeWords, List.length_cons, loadWords, ih]
      have kept : (storeWord memory address word).AgreeOn
          (storeWords (storeWord memory address word) (address + 8) rest) address 8 := by
        intro target lower upper
        exact storeWords_outside _ (by omega)
      rw [loadWord_congr kept, loadWord_storeWord]

theorem storeWords_append (memory : Memory) (address : Nat) (front back : List Word) :
    storeWords memory address (front ++ back) =
      storeWords (storeWords memory address front) (address + 8 * front.length) back := by
  induction front generalizing memory address with
  | nil => rw [List.nil_append, storeWords, List.length_nil, Nat.mul_zero, Nat.add_zero]
  | cons word rest ih =>
      rw [List.cons_append, storeWords, storeWords, ih, List.length_cons,
        show address + 8 + 8 * rest.length = address + 8 * (rest.length + 1) by omega]

/-! ## Instructions -/

/-- The instructions, as far as they occur in straight lines that save and restore registers. -/
inductive Instr
  /-- `stp first, second, [sp, #offset]`. -/
  | stp (first second : Reg) (offset : Nat)
  /-- `ldp first, second, [sp, #offset]`. -/
  | ldp (first second : Reg) (offset : Nat)
  /-- `stp first, second, [base], #16`. -/
  | stpPost (first second base : Reg)
  /-- `ldp first, second, [base], #16`. -/
  | ldpPost (first second base : Reg)
  /-- `str source, [base], #8`. -/
  | strPost (source base : Reg)
  /-- `ldr target, [base], #8`. -/
  | ldrPost (target base : Reg)
  /-- `sub sp, sp, #amount`. -/
  | subSp (amount : Nat)
  /-- `add sp, sp, #amount`. -/
  | addSp (amount : Nat)
  /-- `add target, sp, #amount`. -/
  | addFromSp (target : Reg) (amount : Nat)
  /-- `mov target, #value`. -/
  | movImm (target : Reg) (value : Nat)
  /-- `add target, left, right`. -/
  | add (target left right : Reg)
  /-- `mov target, sp`. -/
  | movFromSp (target : Reg)
  /-- `mov sp, source`. -/
  | movToSp (source : Reg)
  /-- `mrs target, sys`. -/
  | mrs (target : Reg) (sys : SysReg)
  /-- `msr sys, source`. -/
  | msr (sys : SysReg) (source : Reg)

namespace Cpu

/-- Set a general register. -/
def set (cpu : Cpu) (target : Reg) (word : Word) : Cpu :=
  { cpu with x := Function.update cpu.x target word }

/-- Store two registers next to each other. -/
def storePair (cpu : Cpu) (address : Word) (first second : Reg) : Cpu :=
  let memory := storeWord cpu.memory address.toNat (cpu.x first)
  { cpu with memory := storeWord memory (address + 8).toNat (cpu.x second) }

/-- Load two registers from words next to each other. -/
def loadPair (cpu : Cpu) (address : Word) (first second : Reg) : Cpu :=
  (cpu.set first (loadWord cpu.memory address.toNat)).set second
    (loadWord cpu.memory (address + 8).toNat)

/-- Execute one instruction. -/
def exec (cpu : Cpu) : Instr → Cpu
  | .stp first second offset => cpu.storePair (cpu.sp + BitVec.ofNat 64 offset) first second
  | .ldp first second offset => cpu.loadPair (cpu.sp + BitVec.ofNat 64 offset) first second
  | .stpPost first second base =>
      (cpu.storePair (cpu.x base) first second).set base (cpu.x base + 16)
  | .ldpPost first second base =>
      (cpu.loadPair (cpu.x base) first second).set base (cpu.x base + 16)
  | .strPost source base =>
      let stored := { cpu with memory := storeWord cpu.memory (cpu.x base).toNat (cpu.x source) }
      stored.set base (cpu.x base + 8)
  | .ldrPost target base =>
      (cpu.set target (loadWord cpu.memory (cpu.x base).toNat)).set base (cpu.x base + 8)
  | .subSp amount => { cpu with sp := cpu.sp - BitVec.ofNat 64 amount }
  | .addSp amount => { cpu with sp := cpu.sp + BitVec.ofNat 64 amount }
  | .addFromSp target amount => cpu.set target (cpu.sp + BitVec.ofNat 64 amount)
  | .movImm target value => cpu.set target (BitVec.ofNat 64 value)
  | .add target left right => cpu.set target (cpu.x left + cpu.x right)
  | .movFromSp target => cpu.set target cpu.sp
  | .movToSp source => { cpu with sp := cpu.x source }
  | .mrs target sys => cpu.set target (cpu.sys sys)
  | .msr sys source => { cpu with sys := Function.update cpu.sys sys (cpu.x source) }

/-- Execute a straight line. -/
def run (cpu : Cpu) (code : List Instr) : Cpu := code.foldl exec cpu

@[simp] theorem run_nil (cpu : Cpu) : cpu.run [] = cpu := rfl

@[simp] theorem run_cons (cpu : Cpu) (instr : Instr) (code : List Instr) :
    cpu.run (instr :: code) = (cpu.exec instr).run code := rfl

theorem run_append (cpu : Cpu) (front back : List Instr) :
    cpu.run (front ++ back) = (cpu.run front).run back := List.foldl_append

/-- The general registers that an instruction sets. -/
def targets : Instr → List Reg
  | .ldp first second _ => [first, second]
  | .stpPost _ _ base | .strPost _ base => [base]
  | .ldpPost first second base => [first, second, base]
  | .ldrPost target base => [target, base]
  | .addFromSp target _ | .movImm target _ | .add target _ _ => [target]
  | .movFromSp target | .mrs target _ => [target]
  | .stp _ _ _ | .subSp _ | .addSp _ | .movToSp _ | .msr _ _ => []

theorem x_exec_of_notMem {cpu : Cpu} {instr : Instr} {reg : Reg} (other : reg ∉ targets instr) :
    (cpu.exec instr).x reg = cpu.x reg := by
  cases instr <;> simp_all [targets, exec, set, storePair, loadPair]

/-- A straight line keeps the registers that none of its instructions sets. -/
theorem x_run_of_notMem {cpu : Cpu} {code : List Instr} {reg : Reg}
    (other : reg ∉ code.flatMap targets) : (cpu.run code).x reg = cpu.x reg := by
  induction code generalizing cpu with
  | nil => rfl
  | cons instr code ih =>
      rw [List.flatMap_cons, List.mem_append, not_or] at other
      rw [run_cons, ih other.2, x_exec_of_notMem other.1]

/-- The instruction writes memory. -/
def Stores : Instr → Prop
  | .stp _ _ _ | .stpPost _ _ _ | .strPost _ _ => True
  | _ => False

instance : DecidablePred Stores := fun instr => by
  cases instr <;> unfold Stores <;> infer_instance

theorem memory_exec_of_not_stores {cpu : Cpu} {instr : Instr} (reads : ¬Stores instr) :
    (cpu.exec instr).memory = cpu.memory := by
  cases instr <;> first | rfl | exact absurd trivial reads

theorem memory_run_of_not_stores {cpu : Cpu} {code : List Instr}
    (reads : ∀ instr ∈ code, ¬Stores instr) : (cpu.run code).memory = cpu.memory := by
  induction code generalizing cpu with
  | nil => rfl
  | cons instr code ih =>
      rw [run_cons, ih fun _ member => reads _ (List.mem_cons_of_mem _ member),
        memory_exec_of_not_stores (reads _ List.mem_cons_self)]

/-! ## Blocks of pairs -/

/-- Set the registers of a list to the words of a list. -/
def setAll (x : Reg → Word) : List Reg → List Word → Reg → Word
  | target :: targets, word :: words => setAll (Function.update x target word) targets words
  | _, _ => x

theorem setAll_of_notMem {x : Reg → Word} {targets : List Reg} {words : List Word} {reg : Reg}
    (other : reg ∉ targets) : setAll x targets words reg = x reg := by
  induction targets generalizing x words with
  | nil => rfl
  | cons target targets ih =>
      rw [List.mem_cons, not_or] at other
      cases words with
      | nil => rfl
      | cons word words => rw [setAll, ih other.2, Function.update_of_ne other.1]

theorem map_setAll {x : Reg → Word} {targets : List Reg} {words : List Word}
    (differ : targets.Nodup) (same : targets.length = words.length) :
    targets.map (setAll x targets words) = words := by
  induction targets generalizing x words with
  | nil => exact (List.eq_nil_of_length_eq_zero same.symm).symm
  | cons target targets ih =>
      cases words with
      | nil => cases same
      | cons word words =>
          rw [List.nodup_cons] at differ
          rw [setAll, List.map_cons, setAll_of_notMem differ.1, Function.update_self,
            ih differ.2 (Nat.succ.inj same)]

theorem update_setAll (x : Reg → Word) (base : Reg) (early late : Word) (targets : List Reg)
    (words : List Word) :
    Function.update (setAll (Function.update x base early) targets words) base late =
      Function.update (setAll x targets words) base late := by
  induction targets generalizing x words with
  | nil => exact Function.update_idem ..
  | cons target targets ih =>
      cases words with
      | nil => exact Function.update_idem ..
      | cons word words =>
          rw [setAll, setAll]
          by_cases same : target = base
          · rw [same, Function.update_idem]
          · rw [Function.update_comm (Ne.symm same), ih]

theorem toNat_add_ofNat {word : Word} {offset : Nat} (fits : word.toNat + offset < 2 ^ 64) :
    (word + BitVec.ofNat 64 offset).toNat = word.toNat + offset := by
  rw [BitVec.toNat_add, BitVec.toNat_ofNat, Nat.add_mod_mod, Nat.mod_eq_of_lt fits]

/-- Pair stores of a list of registers from `[sp, #offset]` on. -/
def stpAll : List Reg → Nat → List Instr
  | first :: second :: rest, offset => .stp first second offset :: stpAll rest (offset + 16)
  | _, _ => []

/-- Pair loads of a list of registers from `[sp, #offset]` on. -/
def ldpAll : List Reg → Nat → List Instr
  | first :: second :: rest, offset => .ldp first second offset :: ldpAll rest (offset + 16)
  | _, _ => []

/-- Pair stores of a list of registers through a base register that moves on. -/
def stpPostAll (base : Reg) : List Reg → List Instr
  | first :: second :: rest => .stpPost first second base :: stpPostAll base rest
  | _ => []

/-- Pair loads of a list of registers through a base register that moves on. -/
def ldpPostAll (base : Reg) : List Reg → List Instr
  | first :: second :: rest => .ldpPost first second base :: ldpPostAll base rest
  | _ => []

theorem storePair_eq {cpu : Cpu} {address : Word} {first second : Reg}
    (fits : address.toNat + 8 < 2 ^ 64) :
    cpu.storePair address first second =
      { cpu with memory := storeWords cpu.memory address.toNat [cpu.x first, cpu.x second] } := by
  have next : (address + 8).toNat = address.toNat + 8 := toNat_add_ofNat fits
  rw [storePair, next]
  rfl

theorem loadPair_eq {cpu : Cpu} {address : Word} {first second : Reg}
    (fits : address.toNat + 8 < 2 ^ 64) :
    cpu.loadPair address first second =
      { cpu with x := setAll cpu.x [first, second] (loadWords cpu.memory address.toNat 2) } := by
  have next : (address + 8).toNat = address.toNat + 8 := toNat_add_ofNat fits
  rw [loadPair, next]
  rfl

theorem eq_nil_of_even {regs : List Reg} (pairs : Even regs.length)
    (short : ∀ first second rest, regs = first :: second :: rest → False) : regs = [] := by
  match regs with
  | [] => rfl
  | [only] => exact absurd (show Even 1 from pairs) (by decide)
  | first :: second :: rest => exact (short first second rest rfl).elim

theorem add_pairs (word : Word) (count : Nat) :
    word + 16 + BitVec.ofNat 64 (8 * count) = word + BitVec.ofNat 64 (8 * (count + 1 + 1)) := by
  rw [BitVec.add_assoc, show (16 : Word) = BitVec.ofNat 64 16 from rfl, ← BitVec.ofNat_add,
    show 16 + 8 * count = 8 * (count + 1 + 1) by omega]

theorem with_base (cpu : Cpu) (base : Reg) :
    { cpu with x := Function.update cpu.x base (cpu.x base + BitVec.ofNat 64 0) } = cpu := by
  rw [BitVec.add_zero, Function.update_eq_self]

/-- A block of pair stores on the stack stores the words of its registers. -/
theorem run_stpAll {cpu : Cpu} {regs : List Reg} {offset : Nat} (pairs : Even regs.length)
    (fits : cpu.sp.toNat + offset + 8 * regs.length < 2 ^ 64) :
    cpu.run (stpAll regs offset) =
      { cpu with memory := storeWords cpu.memory (cpu.sp.toNat + offset) (regs.map cpu.x) } := by
  fun_induction stpAll regs offset generalizing cpu with
  | case1 first second rest offset ih =>
      simp only [List.length_cons, Nat.even_add_one, not_not] at pairs fits
      have address : (cpu.sp + BitVec.ofNat 64 offset).toNat = cpu.sp.toNat + offset :=
        toNat_add_ofNat (by omega)
      rw [run_cons, exec, storePair_eq (by omega), address, ih pairs (by dsimp only; omega)]
      rfl
  | case2 regs offset short =>
      rw [eq_nil_of_even pairs short]
      rfl

theorem run_ldpAll {cpu : Cpu} {regs : List Reg} {offset : Nat} (pairs : Even regs.length)
    (fits : cpu.sp.toNat + offset + 8 * regs.length < 2 ^ 64) :
    cpu.run (ldpAll regs offset) =
      { cpu with
        x := setAll cpu.x regs (loadWords cpu.memory (cpu.sp.toNat + offset) regs.length) } := by
  fun_induction ldpAll regs offset generalizing cpu with
  | case1 first second rest offset ih =>
      simp only [List.length_cons, Nat.even_add_one, not_not] at pairs fits
      have address : (cpu.sp + BitVec.ofNat 64 offset).toNat = cpu.sp.toNat + offset :=
        toNat_add_ofNat (by omega)
      rw [run_cons, exec, loadPair_eq (by omega), address, ih pairs (by dsimp only; omega)]
      rfl
  | case2 regs offset short =>
      rw [eq_nil_of_even pairs short]
      rfl

/-- A block of pair stores through a base register stores the words of its registers. -/
theorem run_stpPostAll {cpu : Cpu} {regs : List Reg} {base : Reg} (pairs : Even regs.length)
    (other : base ∉ regs) (fits : (cpu.x base).toNat + 8 * regs.length < 2 ^ 64) :
    cpu.run (stpPostAll base regs) =
      { cpu with
        x := Function.update cpu.x base (cpu.x base + BitVec.ofNat 64 (8 * regs.length))
        memory := storeWords cpu.memory (cpu.x base).toNat (regs.map cpu.x) } := by
  fun_induction stpPostAll base regs generalizing cpu with
  | case1 first second rest ih =>
      simp only [List.length_cons, Nat.even_add_one, not_not, List.mem_cons,
        not_or] at pairs other fits
      have next : (cpu.x base + 16).toNat = (cpu.x base).toNat + 16 :=
        @toNat_add_ofNat _ 16 (by omega)
      have kept : rest.map (Function.update cpu.x base (cpu.x base + 16)) = rest.map cpu.x := by
        refine List.map_congr_left fun reg member => Function.update_of_ne ?_ _ _
        rintro rfl
        exact other.2.2 member
      rw [run_cons, exec, storePair_eq (by omega), set,
        ih pairs other.2.2 (by simp only [Function.update_self, next]; omega)]
      simp only [Function.update_self, next, kept, Function.update_idem, add_pairs]
      rfl
  | case2 regs short =>
      rw [eq_nil_of_even pairs short]
      exact (with_base cpu base).symm

/-- A block of pair loads through a base register sets its registers. -/
theorem run_ldpPostAll {cpu : Cpu} {regs : List Reg} {base : Reg} (pairs : Even regs.length)
    (other : base ∉ regs) (fits : (cpu.x base).toNat + 8 * regs.length < 2 ^ 64) :
    cpu.run (ldpPostAll base regs) =
      { cpu with
        x := Function.update
          (setAll cpu.x regs (loadWords cpu.memory (cpu.x base).toNat regs.length)) base
          (cpu.x base + BitVec.ofNat 64 (8 * regs.length)) } := by
  fun_induction ldpPostAll base regs generalizing cpu with
  | case1 first second rest ih =>
      simp only [List.length_cons, Nat.even_add_one, not_not, List.mem_cons,
        not_or] at pairs other fits
      have next : (cpu.x base + 16).toNat = (cpu.x base).toNat + 16 :=
        @toNat_add_ofNat _ 16 (by omega)
      rw [run_cons, exec, loadPair_eq (by omega), set,
        ih pairs other.2.2 (by simp only [Function.update_self, next]; omega)]
      simp only [Function.update_self, next, update_setAll, add_pairs]
      rfl
  | case2 regs short =>
      rw [eq_nil_of_even pairs short]
      exact (with_base cpu base).symm

end Cpu

end A64

import PellOs.Memutils.CopyRange
import PellOs.Mm.Descriptor
import PellOs.Scheduler.SavedRegisters

/-!
# Loading a program

`elf_load` takes a pointer only.  Behind the checks of the header it follows the offsets of the file
and copies as many bytes as the file says, so it stays inside the file and inside the page exactly
if the file describes a segment that does.
-/

namespace PellOs

/-! ## Layout of the file -/

namespace ElfHeader

/-- `word_len`. -/
def wordLen : Field := ⟨4, 1⟩

/-- `e_machine`. -/
def eMachine : Field := ⟨18, 2⟩

/-- `e_entry`. -/
def eEntry : Field := ⟨24, 8⟩

/-- `e_phoff`. -/
def ePhoff : Field := ⟨32, 8⟩

end ElfHeader

namespace ElfProgramHeader

/-- `p_offset`. -/
def pOffset : Field := ⟨8, 8⟩

/-- `p_filesz`. -/
def pFilesz : Field := ⟨32, 8⟩

end ElfProgramHeader

/-- `ELF_MAGIC_NUMBER`. -/
def elfMagicNumber : List UInt8 := [0x7F, 0x45, 0x4C, 0x46]

/-- `ELF_MACHINE_AARCH64`. -/
def elfMachineAarch64 : Nat := 0xB7

/-- `ELF_WORD_LEN_64`. -/
def elfWordLen64 : Nat := 2

/-- `PSR_MODE_EL0t`. -/
def psrModeEl0t : Nat := 0

/-- The addresses of a member of a structure. -/
def Field.addresses (field : Field) (base : Nat) : List Nat :=
  (List.range field.width).map ((base + field.offset) % wordSize + ·)

/-! ## The loader -/

/-- A run of `elf_load` or `move_to_userspace`: the result, the page that `allocate_user_page`
returned, the addresses of the file that were read and those that the copy stored to. -/
structure LoadRun where
  kernel : Kernel
  result : Int
  page : Nat
  reads : List Nat
  stores : List Nat

/-- The stores of `move_to_userspace` to the saved registers. -/
def startRegs (memory : Memory) (regs pc : Nat) : Memory :=
  let memory := PtRegs.pc.set memory regs pc
  let memory := PtRegs.pstate.set memory regs psrModeEl0t
  PtRegs.sp.set memory regs (2 * pageSize)

/-- Reads before a run. -/
def LoadRun.after (reads : List Nat) (run : LoadRun) : LoadRun :=
  { run with reads := reads ++ run.reads }

namespace LoadRun

variable (reads : List Nat) (run : LoadRun)

@[simp] theorem result_after : (run.after reads).result = run.result := rfl

@[simp] theorem page_after : (run.after reads).page = run.page := rfl

@[simp] theorem stores_after : (run.after reads).stores = run.stores := rfl

@[simp] theorem reads_after : (run.after reads).reads = reads ++ run.reads := rfl

end LoadRun

/-- `move_to_userspace`. -/
def moveToUserspace (kernel : Kernel) (start size pc task : Nat) : LoadRun :=
  let memory := startRegs kernel.memory (getTaskPtRegs task) pc
  let (mm, codePage) := allocateUserPage (kernel.mm.setMemory memory) task 0
  if codePage = 0 then ⟨{ kernel with mm }, -1, codePage, [], []⟩
  else
    let mm := mm.setMemory (memcpy mm.memory codePage start size)
    ⟨{ kernel with mm, ttbr0 := Task.pagedirectory.get mm.memory task }, 0, codePage,
      memcpyAccesses start size, memcpyAccesses codePage size⟩

/-- The loop of `elf_load` from byte `i` on: whether the magic number is right, and what is read. -/
def checkMagic (memory : Memory) (header : Nat) : Nat → List UInt8 → Bool × List Nat
  | _, [] => (true, [])
  | i, byte :: mag =>
      let address := (header + i) % wordSize
      if memory address ≠ byte then (false, [address])
      else
        let (right, reads) := checkMagic memory header (i + 1) mag
        (right, address :: reads)

/-- `elf_load`. -/
def elfLoad (kernel : Kernel) (header : Nat) : LoadRun :=
  let memory := kernel.memory
  let (right, reads) := checkMagic memory header 0 elfMagicNumber
  if ¬right then ⟨kernel, -1, 0, reads, []⟩
  else
    let reads := reads ++ ElfHeader.eMachine.addresses header
    if ElfHeader.eMachine.get memory header ≠ elfMachineAarch64 then ⟨kernel, -1, 0, reads, []⟩
    else
      let reads := reads ++ ElfHeader.wordLen.addresses header
      if ElfHeader.wordLen.get memory header ≠ elfWordLen64 then ⟨kernel, -1, 0, reads, []⟩
      else
        let header1 := (header + ElfHeader.ePhoff.get memory header) % wordSize
        let program := (header + ElfProgramHeader.pOffset.get memory header1) % wordSize
        let reads := reads ++ (ElfHeader.ePhoff.addresses header ++
          (ElfProgramHeader.pOffset.addresses header1 ++
            (ElfProgramHeader.pFilesz.addresses header1 ++ ElfHeader.eEntry.addresses header)))
        (moveToUserspace kernel program (ElfProgramHeader.pFilesz.get memory header1)
          (ElfHeader.eEntry.get memory header) kernel.current).after reads

/-! ## The described segment -/

/-- `header1`. -/
def programHeader (memory : Memory) (header : Nat) : Nat :=
  (header + ElfHeader.ePhoff.get memory header) % wordSize

/-- `program`. -/
def segmentStart (memory : Memory) (header : Nat) : Nat :=
  (header + ElfProgramHeader.pOffset.get memory (programHeader memory header)) % wordSize

/-- `header1->p_filesz`. -/
def segmentSize (memory : Memory) (header : Nat) : Nat :=
  ElfProgramHeader.pFilesz.get memory (programHeader memory header)

/-- The header passes the checks of `elf_load`. -/
structure HeaderAccepted (memory : Memory) (header : Nat) : Prop where
  magic : (checkMagic memory header 0 elfMagicNumber).1 = true
  machine : ElfHeader.eMachine.get memory header = elfMachineAarch64
  wordLen : ElfHeader.wordLen.get memory header = elfWordLen64

/-- A file of `n` bytes holds the members of its headers that are used and the bytes of its first
segment, and these fit into a page. -/
structure SegmentInside (memory : Memory) (header n : Nat) : Prop where
  header_inside : 40 ≤ n
  offset_inside : header ≤ (programHeader memory header + 8) % wordSize ∧
    (programHeader memory header + 8) % wordSize + 8 ≤ header + n
  size_inside : header ≤ (programHeader memory header + 32) % wordSize ∧
    (programHeader memory header + 32) % wordSize + 8 ≤ header + n
  source_inside : header ≤ segmentStart memory header ∧
    segmentStart memory header + memcpyMoved (segmentSize memory header) ≤ header + n
  one_page : memcpyMoved (segmentSize memory header) ≤ pageSize

/-- The run fails, or it reads inside the file and copies into its page only. -/
def LoadConfined (header n : Nat) (run : LoadRun) : Prop :=
  run.result = -1 ∨ (∀ address ∈ run.reads, header ≤ address ∧ address < header + n) ∧
    ∀ address ∈ run.stores, run.page ≤ address ∧ address < run.page + pageSize

/-! ## Ranges of accesses -/

/-- All addresses lie between two bounds. -/
def Between (low high : Nat) (addresses : List Nat) : Prop :=
  ∀ address ∈ addresses, low ≤ address ∧ address < high

section Ranges

variable {low high : Nat}

theorem between_append {front back : List Nat} :
    Between low high (front ++ back) ↔ Between low high front ∧ Between low high back :=
  List.forall_mem_append

theorem between_consecutive {start count : Nat} (count_pos : 0 < count) :
    Between low high ((List.range count).map (start + ·)) ↔
      low ≤ start ∧ start + count ≤ high := by
  simp only [Between, List.mem_map, List.mem_range, forall_exists_index, and_imp,
    forall_apply_eq_imp_iff₂]
  constructor
  · intro inside
    have first := inside 0 count_pos
    have last := inside (count - 1) (by omega)
    omega
  · intro bounds i small
    omega

/-- What `memcpy` accesses lies between two bounds exactly if its range does. -/
theorem between_memcpyAccesses {pointer size : Nat} (low_pos : 0 < low) (high_le : high ≤ wordSize)
    (pointer_lt : pointer < wordSize) (size_lt : size < wordSize) :
    Between low high (memcpyAccesses pointer size) ↔
      low ≤ pointer ∧ pointer + memcpyMoved size ≤ high := by
  rcases Nat.eq_zero_or_pos size with rfl | size_pos
  · rw [memcpyAccesses_zero, between_consecutive (by decide)]
    rfl
  have moved_pos : 0 < memcpyMoved size := by
    rw [memcpyMoved, if_neg (Nat.ne_of_gt size_pos)]
    split_ifs
    · exact size_pos
    · exact Nat.one_pos
  rw [memcpyAccesses_of_pos pointer size_pos size_lt]
  constructor
  · intro inside
    have first := inside ((pointer + 0) % wordSize)
      ((mem_memcpyU8Accesses size_pos pointer_lt).mpr ⟨0, moved_pos, rfl⟩)
    rw [Nat.add_zero, Nat.mod_eq_of_lt pointer_lt] at first
    refine ⟨first.1, ?_⟩
    by_contra beyond
    have last := inside ((pointer + (high - pointer)) % wordSize)
      ((mem_memcpyU8Accesses size_pos pointer_lt).mpr ⟨high - pointer, by omega, rfl⟩)
    rw [Nat.add_sub_cancel' (by omega)] at last
    rcases Nat.lt_or_eq_of_le high_le with inner | top
    · rw [Nat.mod_eq_of_lt inner] at last
      exact absurd last.2 (Nat.lt_irrefl high)
    · rw [top, Nat.mod_self] at last
      omega
  · rintro ⟨lower, upper⟩ address member
    obtain ⟨i, small, rfl⟩ := (mem_memcpyU8Accesses size_pos pointer_lt).mp member
    rw [Nat.mod_eq_of_lt (by omega)]
    omega

end Ranges

/-! ## Runs -/

section Load

variable {kernel : Kernel} {header n : Nat}

theorem segmentSize_lt (memory : Memory) (header : Nat) : segmentSize memory header < wordSize := by
  rw [segmentSize, Field.get, wordSize_eq_pow]
  exact Memory.read_lt _ _ _

theorem allocateUserPage_page (mm : Mm) (memory : Memory) (task virtAdr : Nat) :
    freeCount mm = 0 ∧ (allocateUserPage (mm.setMemory memory) task virtAdr).2 = 0 ∨
      ∃ index < mmNumOfPages,
        0 < freeCount mm ∧ (allocateUserPage (mm.setMemory memory) task virtAdr).2 =
          kernelAdr index := by
  have same : freeCount (mm.setMemory memory) = freeCount mm := freeCount_congr rfl
  rcases Nat.eq_zero_or_pos (freeCount mm) with none_left | left
  · refine Or.inl ⟨none_left, ?_⟩
    unfold allocateUserPage
    rw [getNextFreePage_of_zero (same.trans none_left)]
    rfl
  · obtain ⟨index, inside, -, call⟩ := @getNextFreePage_of_pos (mm.setMemory memory) (by omega)
    refine Or.inr ⟨index, inside, left, ?_⟩
    unfold allocateUserPage
    rw [call]
    simp only [pageAt_ne_zero, if_false, kernelAdr_eq inside]

/-- `move_to_userspace` fails without a free page, and copies into the page that it takes
otherwise. -/
theorem moveToUserspace_cases (kernel : Kernel) (start size pc task : Nat) :
    freeCount kernel.mm = 0 ∧ (moveToUserspace kernel start size pc task).result = -1 ∨
      ∃ index < mmNumOfPages, 0 < freeCount kernel.mm ∧
        (moveToUserspace kernel start size pc task).result = 0 ∧
        (moveToUserspace kernel start size pc task).page = kernelAdr index ∧
        (moveToUserspace kernel start size pc task).reads = memcpyAccesses start size ∧
        (moveToUserspace kernel start size pc task).stores =
          memcpyAccesses (kernelAdr index) size := by
  have returned := allocateUserPage_page kernel.mm
    (startRegs kernel.memory (getTaskPtRegs task) pc) task 0
  rcases call : allocateUserPage (kernel.mm.setMemory
    (startRegs kernel.memory (getTaskPtRegs task) pc)) task 0 with ⟨after, codePage⟩
  rw [call] at returned
  simp only [moveToUserspace, call]
  rcases returned with ⟨none_left, page⟩ | ⟨index, inside, left, page⟩
  · obtain rfl : codePage = 0 := page
    exact Or.inl ⟨none_left, rfl⟩
  · obtain rfl : codePage = kernelAdr index := page
    refine Or.inr ⟨index, inside, left, ?_⟩
    rw [if_neg (kernelAdr_ne_zero index)]
    exact ⟨rfl, rfl, rfl, rfl⟩

theorem checkMagic_cons {memory : Memory} {i : Nat} {byte : UInt8} {mag : List UInt8}
    (same : memory ((header + i) % wordSize) = byte) :
    checkMagic memory header i (byte :: mag) =
      ((checkMagic memory header (i + 1) mag).1,
        (header + i) % wordSize :: (checkMagic memory header (i + 1) mag).2) := by
  rw [checkMagic, if_neg (not_not.mpr same)]

theorem checkMagic_reads {memory : Memory} {i : Nat} {mag : List UInt8}
    (right : (checkMagic memory header i mag).1 = true) :
    (checkMagic memory header i mag).2 =
      (List.range mag.length).map fun j => (header + (i + j)) % wordSize := by
  induction mag generalizing i with
  | nil => rfl
  | cons byte mag ih =>
      have same : memory ((header + i) % wordSize) = byte := by
        by_contra differ
        rw [checkMagic, if_pos differ] at right
        exact Bool.false_ne_true right
      rw [checkMagic_cons same] at right ⊢
      rw [List.length_cons, List.range_succ_eq_map, List.map_cons, List.map_map, ih right]
      refine congrArg₂ List.cons rfl (List.map_congr_left fun j _ => ?_)
      rw [Function.comp_apply, Nat.add_assoc i, Nat.add_comm 1]

theorem elfLoad_refused (refused : ¬HeaderAccepted kernel.memory header) :
    (elfLoad kernel header).result = -1 := by
  rcases call : checkMagic kernel.memory header 0 elfMagicNumber with ⟨right, reads⟩
  simp only [elfLoad, call]
  by_cases magic : right = true
  · rw [if_neg (not_not.mpr magic)]
    by_cases machine : ElfHeader.eMachine.get kernel.memory header = elfMachineAarch64
    · rw [if_neg (not_not.mpr machine)]
      have wordLen : ElfHeader.wordLen.get kernel.memory header ≠ elfWordLen64 :=
        fun wordLen => refused ⟨by rw [call]; exact magic, machine, wordLen⟩
      rw [if_pos wordLen]
    · rw [if_pos machine]
  · rw [if_pos magic]

/-- The addresses of the file that `elf_load` reads before it calls `move_to_userspace`. -/
def headerReads (header : Nat) : List Nat :=
  (List.range 4).map (fun j => (header + (0 + j)) % wordSize) ++
    ElfHeader.eMachine.addresses header ++ ElfHeader.wordLen.addresses header

theorem elfLoad_accepted (accepted : HeaderAccepted kernel.memory header) :
    elfLoad kernel header =
      (moveToUserspace kernel (segmentStart kernel.memory header)
        (segmentSize kernel.memory header) (ElfHeader.eEntry.get kernel.memory header)
        kernel.current).after
          (headerReads header ++ (ElfHeader.ePhoff.addresses header ++
            (ElfProgramHeader.pOffset.addresses (programHeader kernel.memory header) ++
              (ElfProgramHeader.pFilesz.addresses (programHeader kernel.memory header) ++
                ElfHeader.eEntry.addresses header)))) := by
  have reads := checkMagic_reads accepted.magic
  have magic := accepted.magic
  rcases call : checkMagic kernel.memory header 0 elfMagicNumber with ⟨right, magicReads⟩
  rw [call] at reads magic
  obtain rfl : right = true := magic
  obtain rfl := reads
  simp only [elfLoad, call]
  rw [if_neg (not_not.mpr trivial), if_neg (not_not.mpr accepted.machine),
    if_neg (not_not.mpr accepted.wordLen)]
  rfl

end Load

/-! ## Confinement -/

section Confined

variable {kernel : Kernel} {header n : Nat}

theorem between_addresses {low high base : Nat} {field : Field} (width_pos : 0 < field.width) :
    Between low high (field.addresses base) ↔
      low ≤ (base + field.offset) % wordSize ∧
        (base + field.offset) % wordSize + field.width ≤ high :=
  between_consecutive width_pos

/-- The reads of the header lie in the file exactly if the file reaches up to `e_phoff`. -/
theorem between_header (header_pos : 0 < header) (fits : header + n ≤ wordSize) :
    Between header (header + n) (headerReads header ++
        (ElfHeader.ePhoff.addresses header ++ ElfHeader.eEntry.addresses header)) ↔ 40 ≤ n := by
  rw [headerReads]
  simp only [between_append]
  rw [between_addresses (by decide), between_addresses (by decide), between_addresses (by decide),
    between_addresses (by decide)]
  simp only [ElfHeader.ePhoff, ElfHeader.eEntry, ElfHeader.eMachine, ElfHeader.wordLen]
  constructor
  · rintro ⟨-, ⟨lower, upper⟩, -⟩
    simp only [wordSize] at fits lower upper
    omega
  · intro long
    have fixed : ∀ offset < 40, (header + offset) % wordSize = header + offset :=
      fun offset small => Nat.mod_eq_of_lt (by omega)
    rw [fixed 32 (by decide), fixed 24 (by decide), fixed 18 (by decide), fixed 4 (by decide)]
    refine ⟨⟨⟨?_, by omega⟩, by omega⟩, by omega, by omega⟩
    intro address member
    obtain ⟨j, small, rfl⟩ := List.mem_map.mp member
    rw [List.mem_range] at small
    rw [Nat.zero_add, fixed j (by omega)]
    omega

/-- Behind the checks and with a page left, `elf_load` is confined exactly if the segment is. -/
theorem loadConfined_iff_segmentInside (header_pos : 0 < header) (fits : header + n ≤ wordSize)
    (accepted : HeaderAccepted kernel.memory header) (left : 0 < freeCount kernel.mm) :
    LoadConfined header n (elfLoad kernel header) ↔ SegmentInside kernel.memory header n := by
  rw [elfLoad_accepted accepted]
  rcases moveToUserspace_cases kernel (segmentStart kernel.memory header)
    (segmentSize kernel.memory header) (ElfHeader.eEntry.get kernel.memory header)
    kernel.current with ⟨none_left, -⟩ | ⟨index, inside, -, result, page, reads, stores⟩
  · omega
  have range := kernelAdr_range inside
  have size_lt := segmentSize_lt kernel.memory header
  have start_lt : segmentStart kernel.memory header < wordSize := Nat.mod_lt _ (by decide)
  have page_iff : Between (kernelAdr index) (kernelAdr index + pageSize)
      (memcpyAccesses (kernelAdr index) (segmentSize kernel.memory header)) ↔
        memcpyMoved (segmentSize kernel.memory header) ≤ pageSize := by
    simp only [pageSize, lowMemory] at range ⊢
    rw [between_memcpyAccesses (by omega) (by omega) (by omega) size_lt]
    omega
  have source_iff := between_memcpyAccesses header_pos fits start_lt size_lt
  have header_iff := between_header header_pos fits
  have offset_iff := @between_addresses header (header + n)
    (programHeader kernel.memory header) ElfProgramHeader.pOffset (by decide)
  have size_iff := @between_addresses header (header + n)
    (programHeader kernel.memory header) ElfProgramHeader.pFilesz (by decide)
  constructor
  · rintro (failed | ⟨inFile, inPage⟩)
    · rw [LoadRun.result_after, result] at failed
      exact absurd failed (by decide)
    have file : Between header (header + n) _ := inFile
    have onPage : Between _ _ _ := inPage
    rw [LoadRun.reads_after, reads] at file
    rw [LoadRun.stores_after, LoadRun.page_after, stores, page] at onPage
    simp only [between_append] at file header_iff
    obtain ⟨⟨checks, phoff, offset, size, entry⟩, source⟩ := file
    exact ⟨header_iff.mp ⟨checks, phoff, entry⟩, offset_iff.mp offset, size_iff.mp size,
      source_iff.mp source, page_iff.mp onPage⟩
  · intro segment
    obtain ⟨checks, rest⟩ := between_append.mp (header_iff.mpr segment.header_inside)
    obtain ⟨phoff, entry⟩ := between_append.mp rest
    refine Or.inr ⟨?_, ?_⟩
    · rw [LoadRun.reads_after, reads]
      refine between_append.mpr ⟨between_append.mpr ⟨checks, between_append.mpr ⟨phoff,
        between_append.mpr ⟨?_, between_append.mpr ⟨?_, entry⟩⟩⟩⟩, ?_⟩
      · exact offset_iff.mpr segment.offset_inside
      · exact size_iff.mpr segment.size_inside
      · exact source_iff.mpr segment.source_inside
    · rw [LoadRun.stores_after, LoadRun.page_after, stores, page]
      exact page_iff.mpr segment.one_page

end Confined

theorem elfLoad_no_page {kernel : Kernel} {header : Nat} (none_left : freeCount kernel.mm = 0) :
    (elfLoad kernel header).result = -1 := by
  by_cases accepted : HeaderAccepted kernel.memory header
  · rw [elfLoad_accepted accepted, LoadRun.result_after]
    rcases moveToUserspace_cases kernel (segmentStart kernel.memory header)
      (segmentSize kernel.memory header) (ElfHeader.eEntry.get kernel.memory header)
      kernel.current with ⟨-, result⟩ | ⟨-, -, left, -⟩
    · exact result
    · omega
  · exact elfLoad_refused accepted

/-- `elf_load` fails or stays inside the file and the page if and only if a check fails, no page is
left, or the segment that the file describes lies in it and fits into a page. -/
theorem elfLoad_confined_iff (kernel : Kernel) {header n : Nat} (header_pos : 0 < header)
    (fits : header + n ≤ wordSize) :
    LoadConfined header n (elfLoad kernel header) ↔
      ¬HeaderAccepted kernel.memory header ∨ freeCount kernel.mm = 0 ∨
        SegmentInside kernel.memory header n := by
  by_cases accepted : HeaderAccepted kernel.memory header
  · rcases Nat.eq_zero_or_pos (freeCount kernel.mm) with none_left | left
    · exact iff_of_true (Or.inl (elfLoad_no_page none_left)) (Or.inr (Or.inl none_left))
    · rw [loadConfined_iff_segmentInside header_pos fits accepted left]
      constructor
      · exact fun segment => Or.inr (Or.inr segment)
      · rintro (refused | none_left | segment)
        · exact absurd accepted refused
        · omega
        · exact segment
  · exact iff_of_true (Or.inl (elfLoad_refused accepted)) (Or.inl accepted)

/-! ## Two files -/

/-- Address of a file in the kernel heap. -/
def sampleFile : Nat := 0xffff000000500000

/-- A program header behind the header, and a segment behind both. -/
def sampleElf (filesz : Nat) : Memory := fun address =>
  match address - sampleFile with
  | 0 => 0x7F
  | 1 => 0x45
  | 2 => 0x4C
  | 3 => 0x46
  | 4 => 2
  | 18 => 0xB7
  | 32 => 64
  | 72 => 120
  | 96 => UInt8.ofNat filesz
  | 97 => UInt8.ofNat (filesz / 256)
  | 98 => UInt8.ofNat (filesz / 256 ^ 2)
  | _ => 0

/-- A kernel with the file in its memory and all pages left. -/
def loadingKernel (filesz : Nat) : Kernel where
  mm := ⟨sampleElf filesz, fun _ => 0⟩
  taskArray := fun _ => sampleFile + 0x100000
  nTasks := 1
  current := sampleFile + 0x100000
  ttbr0 := 0
  firstFree := 0
  timerArr := fun _ => ⟨0, 0⟩
  currentTick := 0
  registers := fun _ => 0

theorem freeCount_loadingKernel (filesz : Nat) : 0 < freeCount (loadingKernel filesz).mm := by
  refine Nat.pos_of_ne_zero fun none_left => ?_
  have free : IsFree (loadingKernel filesz).mm 0 := (by decide : (0 : UInt8) &&& 1 = 0)
  exact (freeCount_eq_zero_iff _).mp none_left 0 (by decide) free

/-- A segment of sixteen bytes at the end of the file. -/
theorem elfLoad_confined_sixteen :
    LoadConfined sampleFile 136 (elfLoad (loadingKernel 16) sampleFile) :=
  (elfLoad_confined_iff (loadingKernel 16) (by decide) (by decide)).mpr
    (Or.inr (Or.inr ⟨by decide, by decide, by decide, by decide, by decide⟩))

/-- A file of 136 bytes that claims a segment of two pages is loaded past its end and past the
page. -/
theorem elfLoad_two_pages_not_confined :
    (elfLoad (loadingKernel 8192) sampleFile).result = 0 ∧
      ¬LoadConfined sampleFile 136 (elfLoad (loadingKernel 8192) sampleFile) := by
  have accepted : HeaderAccepted (loadingKernel 8192).memory sampleFile :=
    ⟨by decide, by decide, by decide⟩
  have left := freeCount_loadingKernel 8192
  constructor
  · rw [elfLoad_accepted accepted, LoadRun.result_after]
    rcases moveToUserspace_cases (loadingKernel 8192)
      (segmentStart (loadingKernel 8192).memory sampleFile)
      (segmentSize (loadingKernel 8192).memory sampleFile)
      (ElfHeader.eEntry.get (loadingKernel 8192).memory sampleFile)
      (loadingKernel 8192).current with ⟨none_left, -⟩ | ⟨-, -, -, result, -⟩
    · omega
    · exact result
  · rw [loadConfined_iff_segmentInside (by decide) (by decide) accepted left]
    intro segment
    exact absurd segment.one_page (by decide)

end PellOs

import PellOs.Fs.LookupBlocks
import PellOs.Kmalloc.ClientSafety
import PellOs.Scheduler.AddressSpaces
import PellOs.Scheduler.Exceptions

/-!
# From the ram disk to a user program

`kernel_task` finds its program on the ram disk, reads it into a block of the kernel heap and loads
it.  The new program sees the segment that its file describes at address zero, and starts at the
entry of the file.
-/

namespace PellOs

open A64

/-! ## The code -/

/-- `kernel_task` and `kernel_task2` without what they print, with the paths of their programs and
the static `first_free` of the heap.  `some none` stands for a file that is not opened. -/
def kernelTask (functions : KernelHeap) (fuel : Nat) (disk : Rdfs) (path : Nat → UInt8) (st : Stat)
    (kernel : Kernel) (firstFree : Nat) : Option (Option LoadRun) :=
  (functions.rdfsGetattr disk path fuel ⟨kernel.memory, firstFree⟩ st).bind
    fun (heap, reported) =>
      let st := reported.getD st
      (functions.rdfsOpenFile disk path fuel heap 0).bind fun
        | (_, none) => some none
        | (heap, some elfFile) =>
            (functions.kmalloc heap st.stSize).map fun (heap, elfBuf) =>
              let (memory, _, _) := rdfsReadFile heap.memory disk elfFile elfBuf st.stSize
              some (elfLoad (kernel.setMemory memory) elfBuf)

/-! ## Files -/

/-- The bytes of a file as memory from address zero on. -/
def fileMemory (contents : List UInt8) : Memory := fun address => contents.getD address 0

/-- A file that passes the checks of `elf_load` and describes a segment of its own bytes that fits
into a page. -/
structure ProgramFile (contents : List UInt8) : Prop where
  accepted : HeaderAccepted (fileMemory contents) 0
  inside : SegmentInside (fileMemory contents) 0 contents.length
  nonempty : 0 < segmentSize (fileMemory contents) 0
  one_page : segmentSize (fileMemory contents) 0 ≤ pageSize

section File

variable {memory : Memory} {contents : List UInt8} {buf : Nat}

theorem fileMemory_eq (stored : memory.Stored buf contents) {index : Nat}
    (bound : index < contents.length) : memory (buf + index) = fileMemory contents index := by
  have entry := List.getElem?_eq_getElem bound
  rw [stored.get entry, fileMemory, List.getD_eq_getElem?_getD, entry]
  rfl

theorem Field.get_file {field : Field} (stored : memory.Stored buf contents)
    (fits : buf + contents.length < wordSize) {base : Nat}
    (inside : (base + field.offset) % wordSize + field.width ≤ contents.length) :
    field.get memory ((buf + base) % wordSize) = field.get (fileMemory contents) base := by
  have moved : ((buf + base) % wordSize + field.offset) % wordSize =
      buf + (base + field.offset) % wordSize := by
    have small : buf + (base + field.offset) % wordSize < wordSize := by omega
    rw [Nat.mod_add_mod, Nat.add_assoc, ← Nat.add_mod_mod, Nat.mod_eq_of_lt small]
  rw [Field.get, Field.get, moved]
  refine Memory.read_eq_read fun offset bound => ?_
  rw [Nat.add_assoc]
  exact fileMemory_eq stored (by omega)

theorem Field.get_header {field : Field} (stored : memory.Stored buf contents)
    (fits : buf + contents.length < wordSize)
    (inside : field.offset + field.width ≤ contents.length) (wide : 0 < field.width) :
    field.get memory buf = field.get (fileMemory contents) 0 := by
  have base := @Field.get_file memory contents buf field stored fits 0 (by
    rw [Nat.zero_add, Nat.mod_eq_of_lt (by omega)]
    exact inside)
  rwa [Nat.add_zero, Nat.mod_eq_of_lt (by omega)] at base

theorem checkMagic_file (stored : memory.Stored buf contents)
    (fits : buf + contents.length < wordSize) {i : Nat} {mag : List UInt8}
    (inside : i + mag.length ≤ contents.length) :
    (checkMagic memory buf i mag).1 = (checkMagic (fileMemory contents) 0 i mag).1 := by
  induction mag generalizing i with
  | nil => rfl
  | cons byte mag ih =>
      rw [List.length_cons] at inside
      have same : memory ((buf + i) % wordSize) = fileMemory contents ((0 + i) % wordSize) := by
        rw [Nat.mod_eq_of_lt (by omega), Nat.zero_add, Nat.mod_eq_of_lt (by omega)]
        exact fileMemory_eq stored (by omega)
      rw [checkMagic, checkMagic, same]
      split_ifs
      · rfl
      · exact ih (by omega)

namespace ProgramFile

theorem headerAccepted (file : ProgramFile contents) (stored : memory.Stored buf contents)
    (fits : buf + contents.length < wordSize) : HeaderAccepted memory buf := by
  have long := file.inside.header_inside
  refine ⟨?_, ?_, ?_⟩
  · rw [checkMagic_file stored fits (le_trans (by decide) long)]
    exact file.accepted.magic
  · rw [Field.get_header stored fits (by simp only [ElfHeader.eMachine]; omega) (by decide)]
    exact file.accepted.machine
  · rw [Field.get_header stored fits (by simp only [ElfHeader.wordLen]; omega) (by decide)]
    exact file.accepted.wordLen

theorem programHeader_eq (file : ProgramFile contents) (stored : memory.Stored buf contents)
    (fits : buf + contents.length < wordSize) :
    programHeader memory buf = (buf + programHeader (fileMemory contents) 0) % wordSize := by
  have long := file.inside.header_inside
  rw [programHeader, programHeader, Nat.zero_add, Nat.add_mod_mod,
    Field.get_header stored fits (by simp only [ElfHeader.ePhoff]; omega) (by decide)]

theorem eEntry_eq (file : ProgramFile contents) (stored : memory.Stored buf contents)
    (fits : buf + contents.length < wordSize) :
    ElfHeader.eEntry.get memory buf = ElfHeader.eEntry.get (fileMemory contents) 0 := by
  have long := file.inside.header_inside
  exact Field.get_header stored fits (by simp only [ElfHeader.eEntry]; omega) (by decide)

theorem segmentSize_eq (file : ProgramFile contents) (stored : memory.Stored buf contents)
    (fits : buf + contents.length < wordSize) :
    segmentSize memory buf = segmentSize (fileMemory contents) 0 := by
  have inside := file.inside.size_inside.2
  rw [Nat.zero_add] at inside
  rw [segmentSize, segmentSize, file.programHeader_eq stored fits]
  exact Field.get_file stored fits inside

theorem segment_inside (file : ProgramFile contents) :
    segmentStart (fileMemory contents) 0 + segmentSize (fileMemory contents) 0 ≤
      contents.length := by
  have inside := file.inside.source_inside.2
  have small := file.one_page
  have positive := file.nonempty
  rw [Nat.zero_add, memcpyMoved, if_neg (Nat.ne_of_gt positive)] at inside
  split_ifs at inside with half
  · exact inside
  · simp only [pageSize] at small
    omega

theorem segmentStart_eq (file : ProgramFile contents) (stored : memory.Stored buf contents)
    (fits : buf + contents.length < wordSize) :
    segmentStart memory buf = buf + segmentStart (fileMemory contents) 0 := by
  have inside := file.inside.offset_inside.2
  have ends := file.segment_inside
  rw [Nat.zero_add] at inside
  have offset : ElfProgramHeader.pOffset.get memory (programHeader memory buf) =
      ElfProgramHeader.pOffset.get (fileMemory contents)
        (programHeader (fileMemory contents) 0) := by
    rw [file.programHeader_eq stored fits]
    exact Field.get_file stored fits inside
  have small : buf + segmentStart (fileMemory contents) 0 < wordSize := by omega
  rw [← Nat.mod_eq_of_lt small, segmentStart, segmentStart, offset, Nat.zero_add, Nat.add_mod_mod]

end ProgramFile

end File

/-! ## The heap -/

/-- Memories that differ in the kernel heap only. -/
def HeapOnly (before after : Memory) : Prop :=
  SameOutside (kernelAdr 0) (kernelAdr kernelHeapSizePages) before after

section Heaps

variable {image : Image} {kernel : Kernel} {owner : Nat → Option PageRole}
  {space : Nat → Nat → Option UInt8} {memory : Memory}

theorem SpacesInv.above_heap (inv : SpacesInv image kernel owner) {index : Nat} {role : PageRole}
    (owned : owner index = some role) (other : role ≠ .heap) :
    kernelAdr kernelHeapSizePages ≤ kernelAdr index := by
  have high : kernelHeapSizePages ≤ index := by
    by_contra low
    exact other (Option.some.inj (owned.symm.trans (inv.heap (Nat.lt_of_not_le low))))
  simp only [kernelAdr, pageAt, pageSize]
  omega

theorem SpacesInv.heap_edit (inv : SpacesInv image kernel owner)
    (only : HeapOnly kernel.memory memory) :
    SpacesInv image (kernel.setMemory memory) owner ∧
      (∀ {pid}, pid < kernel.nTasks →
        kernel.memory.AgreeOn memory (kernel.taskArray pid) pageSize) ∧
      ∀ {pid path}, pid < kernel.nTasks → path.length ≤ 4 →
        walk memory (kernel.taskArray pid) path =
          walk kernel.memory (kernel.taskArray pid) path := by
  have tables : ∀ {index pid path}, owner index = some (.table pid path) →
      kernelAdr kernelHeapSizePages ≤ kernelAdr index ∨
        kernelAdr index + pageSize ≤ kernelAdr 0 :=
    fun owned => Or.inl (inv.above_heap owned (by simp))
  have tasks : ∀ {pid}, pid < kernel.nTasks → kernelAdr kernelHeapSizePages ≤ kernel.taskArray pid ∨
      kernel.taskArray pid + pageSize ≤ kernelAdr 0 := by
    intro pid known
    rcases inv.roles.task known with ⟨-, same⟩ | ⟨-, index, same, owned⟩
    · have below := image.below_pages
      have range := kernelAdr_range (by decide : 0 < mmNumOfPages)
      rw [same]
      simp only [taskSize, pageSize] at below ⊢
      omega
    · rw [same]
      exact Or.inl (inv.above_heap owned (by simp))
  have directories : ∀ {pid}, pid < kernel.nTasks →
      kernelAdr kernelHeapSizePages ≤ kernel.taskArray pid + 152 ∨
        kernel.taskArray pid + 160 ≤ kernelAdr 0 := by
    intro pid known
    have apart := tasks known
    simp only [pageSize] at apart
    omega
  have task_same : ∀ {pid}, pid < kernel.nTasks →
      kernel.memory.AgreeOn memory (kernel.taskArray pid) pageSize := by
    intro pid known address lower upper
    have apart := tasks known
    exact only address (by omega)
  exact ⟨inv.of_roles (inv.roles.edit only tables directories) task_same, task_same,
    fun known short => inv.roles.walk_edit only tables directories known short⟩

theorem SpacesShown.heap_edit (shown : SpacesShown image kernel space)
    (only : HeapOnly kernel.memory memory) :
    SpacesShown image (kernel.setMemory memory) space := by
  obtain ⟨owner, inv⟩ := shown.inv
  obtain ⟨after_inv, task_same, walks⟩ := inv.heap_edit only
  refine ⟨⟨owner, after_inv⟩, ?_, ?_⟩
  · intro pid known
    have same := (task_same known).mono (by omega : _ ≤ kernel.taskArray pid + 160)
      (by simp only [pageSize]; omega : kernel.taskArray pid + 160 + 264 ≤ _)
    exact (shown.records known).congr (inv.roles.task_range known).2 same
      fun long => walks known (by omega)
  · intro pid address known user
    refine Eq.trans ?_ (shown.shown known user)
    refine userView_congr inv.roles known after_inv.roles known rfl user
      (walks known (length_vaPath _).le) fun {index} owned target lower upper => ?_
    exact only target (Or.inr ((inv.above_heap owned (by simp)).trans lower))

theorem SpacesShown.heap_roomy (shown : SpacesShown image kernel space)
    (only : HeapOnly kernel.memory memory) {pid virtAdr : Nat} (known : pid < kernel.nTasks)
    (supplied : (KernelCall.allocate pid virtAdr).Supplied kernel)
    (fits : (KernelCall.allocate pid virtAdr).Fits kernel) :
    (KernelCall.allocate pid virtAdr).Supplied (kernel.setMemory memory) ∧
      (KernelCall.allocate pid virtAdr).Fits (kernel.setMemory memory) := by
  obtain ⟨owner, inv⟩ := shown.inv
  obtain ⟨-, task_same, walks⟩ := inv.heap_edit only
  have range := inv.roles.task_range known
  have field_same : ∀ {field : Field}, field.InPage →
      field.get memory (kernel.taskArray pid) =
        field.get kernel.memory (kernel.taskArray pid) := by
    intro field within
    exact within.get_congr range.2 (task_same known)
  exact KernelCall.allocate_setMemory (field_same (by decide)) (field_same (by decide))
    (fun short => walks known short) supplied fits

end Heaps

theorem kernelAdr_heapEnd : kernelAdr kernelHeapSizePages = kernelAdr 0 + kernelHeapSize := by
  simp only [kernelAdr, pageAt, kernelHeapSize, pageSize]
  omega

/-! ## The program -/

/-- What a user program sees when the file has been loaded: the segment at address zero and zeros
behind it in its page. -/
def programView (contents : List UInt8) (space : Nat → Option UInt8) (address : Nat) :
    Option UInt8 :=
  if address < pageSize then
    some (if address < segmentSize (fileMemory contents) 0 then
      fileMemory contents (segmentStart (fileMemory contents) 0 + address) else 0)
  else space address

/-- A file of the ram disk that `kernel_task` can load: the kernel can access the image and the
heap, the free memory of the heap is one block with room for the file and for the two blocks of a
component, and the page allocator has the pages. -/
structure CanLoad (image : Image) (kernel : Kernel) (disk : Rdfs) (tree : DirTree)
    (contents : List UInt8) (mapped : Nat → Bool) (firstFree pid : Nat) : Prop where
  mounted : Mounted kernel.memory disk tree.root
  names : tree.root.NamesFit
  below : disk.rdfsStart + (genRamDisk tree.root).length ≤ virtualAddressStart + lowMemory
  image_mapped : ∀ address, disk.rdfsStart ≤ address →
    address < disk.rdfsStart + (genRamDisk tree.root).length → mapped address = true
  heap_mapped : ∀ address, kernelAdr 0 ≤ address →
    address < kernelAdr kernelHeapSizePages → mapped address = true
  file : ProgramFile contents
  heapInv : ∃ live rest lost,
    HeapInv (kernelAdr 0) ⟨⟨kernel.memory, firstFree⟩, live⟩ [rest] lost ∧
      contents.length + kernelMallocHeaderSize + freeHeaderSize ≤ rest.length ∧
      rdfsFileNameSize + 8 * tree.root.count + 40 ≤ rest.length
  known : pid < kernel.nTasks
  current : kernel.current = kernel.taskArray pid
  supplied : (KernelCall.allocate pid 0).Supplied kernel
  fits : (KernelCall.allocate pid 0).Fits kernel

/-- The core starts the program of the file. -/
structure EntersProgram (contents : List UInt8) (cpu : Cpu) : Prop where
  pc : (cpu.sys .elrEl1).toNat = ElfHeader.eEntry.get (fileMemory contents) 0
  sp : (cpu.sys .spEl0).toNat = 2 * pageSize
  pstate : (cpu.sys .spsrEl1).toNat = psrModeEl0t

theorem RegsStarted.enters {memory : Memory} {task pc : Nat} {contents : List UInt8}
    (started : RegsStarted memory (getTaskPtRegs task) pc)
    (entry : pc = ElfHeader.eEntry.get (fileMemory contents) 0)
    (fits : task + 2 * pageSize ≤ wordSize)
    {cpu : Cpu} (same : cpu.memory = memory) (stack : cpu.sp.toNat = getTaskPtRegs task) :
    EntersProgram contents (cpu.run (popRegs 0)) := by
  have frame := getTaskPtRegs_eq fits
  have word : wordSize = 2 ^ 64 := rfl
  simp only [pageSize] at fits
  have popped := (@run_popRegs cpu (by rw [stack, frame, sFrameSize]; omega)).1
  have stored := frameStored_of_loadWords popped.symm (by rw [stack, frame, sFrameSize]; omega)
  rw [same, stack] at stored
  exact ⟨stored.pc.symm.trans (started.pc.trans entry), stored.sp.symm.trans started.sp,
    stored.pstate.symm.trans started.pstate⟩

/-- `kernel_task` loads the file that its path leads to, and `ret_to_user` starts it. -/
structure FileLoaded (image : Image) (kernel : Kernel) (space : Nat → Nat → Option UInt8)
    (contents : List UInt8) (pid : Nat) (run : LoadRun) : Prop where
  result : run.result = 0
  shown : SpacesShown image run.kernel
    (Function.update space pid (programView contents (space pid)))
  ttbr0 : run.kernel.ttbr0 = Task.pagedirectory.get run.kernel.memory (kernel.taskArray pid)
  starts : ∀ {cpu : Cpu}, cpu.memory = run.kernel.memory →
    cpu.sp.toNat = getTaskPtRegs (kernel.taskArray pid) →
      EntersProgram contents (cpu.run (popRegs 0))

section Load

variable {image : Image} {kernel : Kernel} {disk : Rdfs} {tree : DirTree} {contents : List UInt8}
  {mapped : Nat → Bool} {firstFree pid : Nat} {space : Nat → Nat → Option UInt8}

theorem Mounted.read_whole {memory : Memory} (mounted : Mounted memory disk tree.root)
    (names_fit : tree.root.NamesFit) {names : List Name} {id : Nat}
    (node : tree.At names id (.file contents)) (flags : Nat) {buf : Nat}
    (apart : BufferApart disk tree.root buf contents.length) :
    (rdfsReadFile memory disk (rdfsOpenFileId id flags) buf contents.length).1.Stored buf
        contents ∧
      ∀ address, address < buf ∨ buf + contents.length ≤ address →
        (rdfsReadFile memory disk (rdfsOpenFileId id flags) buf contents.length).1 address =
          memory address := by
  obtain ⟨target, listed⟩ := node.node
  have bound := Mounted.id_le listed
  have image := mounted.fits
  have long := length_genRamDisk tree.root
  simp only [PartitionHeader.size, FileDirEntry.size] at long
  have file_id : (rdfsOpenFileId id flags).fileId.toNat = id := by
    rw [rdfsOpenFileId, UInt64.toNat_ofNat',
      Nat.mod_eq_of_lt (by simp only [wordSize] at image; omega)]
  have whole : min contents.length ((Entry.data id (.file contents)).length -
      (rdfsOpenFileId id flags).index.toNat) = contents.length := Nat.min_self _
  have read := @Mounted.rdfsReadFile_spec _ _ _ _ _ mounted names_fit listed _ file_id
    (Nat.zero_le _) buf contents.length ((Nat.eq_zero_or_pos contents.length).symm)
    (by rw [whole]; exact apart)
  rw [whole] at read
  refine ⟨(Memory.stored_iff_bytes _ _ _).mpr ?_, read.2.2.2.2⟩
  rw [read.2.2.2.1]
  exact List.take_length

theorem CanLoad.read (can : CanLoad image kernel disk tree contents mapped firstFree pid)
    {names : List Name} {id : Nat} (node : tree.At names id (.file contents))
    {path : Nat → UInt8} (is_path : IsPath path names) {fuel : Nat} (enough : names.length < fuel)
    (search : Nat) (st : Stat) :
    ∃ memory buf, kernelTask (kernelHeap mapped search) fuel disk path st kernel firstFree =
        some (some (elfLoad (kernel.setMemory memory) buf)) ∧
      HeapOnly kernel.memory memory ∧ InKernelHeap buf contents.length ∧
      memory.Stored buf contents := by
  obtain ⟨live, rest, lost, heap_inv, fit, room⟩ := can.heapInv
  have below := can.below
  have low := (kernelAdr_range (by decide : 0 < mmNumOfPages)).1
  have top := (kernelAdr_range (by decide : kernelHeapSizePages < mmNumOfPages)).2
  have heap_end := kernelAdr_heapEnd
  simp only [kernelMallocHeaderSize, freeHeaderSize] at fit
  let area := kernelLookupHeap mapped search (kernelAdr 0) live rest lost heap_inv.range (by omega)
    (by rw [← heap_end]; exact can.heap_mapped)
  have apart : KernelHeap.DiskApart area disk tree.root :=
    ⟨Or.inl (le_trans below low), can.image_mapped⟩
  have most : rdfsFileNameSize + 8 * tree.root.count ≤ area.most :=
    Nat.le_sub_of_add_le room
  obtain ⟨first, getattr, first_same, first_idle⟩ :=
    @DirTree.At.getattr_eq _ area disk tree path names ⟨kernel.memory, firstFree⟩ apart can.names
      can.mounted most heap_inv is_path fuel enough id _ node st
  obtain ⟨second, lookup, second_same, second_inv⟩ := node.lookup_eq apart can.names
    (apart.mounted can.mounted first_same) most first_idle is_path enough
  obtain ⟨taken, call, -, taken_same⟩ := @HeapInv.malloc_front _ _ _ _ _ second_inv
    contents.length (by omega)
  have inside := heap_inv.tiles.inside rest (by simp)
  simp only [Span.stop] at inside taken_same
  have taken_only : SameOutside (kernelAdr 0) (kernelAdr 0 + kernelHeapSize) second.memory
      taken.memory := taken_same.mono (by omega) (by omega)
  have only : HeapOnly kernel.memory taken.memory := by
    rw [HeapOnly, heap_end]
    exact (first_same.trans second_same).trans taken_only
  have mounted : Mounted taken.memory disk tree.root :=
    can.mounted.congr (only.agreeOn (Or.inl (le_trans below low)))
  obtain ⟨stored, outside⟩ := mounted.read_whole can.names node 0
    (show Mounted.BufferApart disk tree.root (rest.start + 8) contents.length from
      ⟨by omega, by omega⟩)
  have inner : InKernelHeap (rest.start + 8) contents.length := ⟨by omega, by omega⟩
  refine ⟨_, _, ?_, only.trans fun address off => outside address ?_, inner, stored⟩
  · rw [kernelTask, getattr, Option.bind_some]
    dsimp only
    rw [KernelHeap.rdfsOpenFile, lookup]
    change (kmalloc (search + 1) second contents.length).map _ = _
    rw [call _ (Nat.succ_pos search)]
    rfl
  · omega

/-- `kernel_task` loads the file that its path leads to on the ram disk: the task sees the segment
of the file at address zero, nothing else changes for any task, and `ret_to_user` starts the program
at the entry of the file with an empty stack. -/
theorem kernel_task_runs_file (shown : SpacesShown image kernel space)
    (can : CanLoad image kernel disk tree contents mapped firstFree pid) {names : List Name}
    {id : Nat} (node : tree.At names id (.file contents)) {path : Nat → UInt8}
    (is_path : IsPath path names) {fuel : Nat} (enough : names.length < fuel) (search : Nat)
    (st : Stat) :
    ∃ run, kernelTask (kernelHeap mapped search) fuel disk path st kernel firstFree =
        some (some run) ∧
      FileLoaded image kernel space contents pid run := by
  obtain ⟨memory, buf, task, only, heap_buf, stored⟩ := can.read node is_path enough search st
  refine ⟨_, task, ?_⟩
  have top := (kernelAdr_range (by decide : kernelHeapSizePages < mmNumOfPages)).2
  have fits : buf + contents.length < wordSize := by
    have below := heap_buf.2
    simp only [pageSize] at top
    omega
  have file := can.file
  have accepted := file.headerAccepted stored fits
  have start := file.segmentStart_eq stored fits
  have size := file.segmentSize_eq stored fits
  have entry := file.eEntry_eq stored fits
  obtain ⟨supplied, roomy⟩ := shown.heap_roomy only can.known can.supplied can.fits
  have segment_heap : InKernelHeap (segmentStart memory buf) (segmentSize memory buf) := by
    have ends := file.segment_inside
    obtain ⟨low, high⟩ := heap_buf
    rw [start, size]
    exact ⟨by omega, by omega⟩
  have small : ElfHeader.eEntry.get memory buf < wordSize := by
    rw [Field.get, wordSize_eq_pow]
    exact Memory.read_lt _ _ _
  obtain ⟨success, program⟩ := moveToUserspace_started (shown.heap_edit only) can.known
    segment_heap (by rw [size]; exact file.nonempty) (by rw [size]; exact file.one_page) small
    supplied roomy
  have load := @elfLoad_accepted (kernel.setMemory memory) buf accepted
  rw [Kernel.memory_setMemory, Kernel.current_setMemory, can.current] at load
  rw [Kernel.taskArray_setMemory] at success program
  rw [load]
  refine ⟨success, ?_, ?_, ?_⟩
  · refine program.shown.congr fun {other address} _ _ => ?_
    by_cases here : other = pid
    · subst here
      rw [Function.update_self, Function.update_self, programView, size, start,
        Kernel.memory_setMemory]
      have ends := file.segment_inside
      split_ifs with low inner
      · rw [Nat.add_assoc, fileMemory_eq stored (by omega)]
      · rfl
      · rfl
    · rw [Function.update_of_ne here, Function.update_of_ne here]
  · exact program.ttbr0
  · obtain ⟨owner, inv⟩ := shown.inv
    have range := (inv.roles.task_range can.known).2
    intro cpu same stack
    exact program.regs.enters entry range same stack

end Load

/-! ## A ram disk with one program -/

theorem kmallocInit_heapOnly (memory : Memory) :
    HeapOnly memory (kmallocInit memory (kernelAdr 0)).memory := by
  intro address off
  have top := (kernelAdr_range (by decide : kernelHeapSizePages < mmNumOfPages)).2
  obtain ⟨words, whole, long, small⟩ :
    ∃ words, kernelHeapSize = words * 8 ∧ 3 ≤ words ∧ words * 8 < 2 ^ 63 :=
    ⟨32768, by decide, by decide, by decide⟩
  rw [kernelAdr_heapEnd, whole] at off top
  simp only [pageSize] at top
  have fits : kernelAdr 0 + 24 ≤ wordSize := by omega
  have cleared : memzero memory (kernelAdr 0) kernelHeapSize address = memory address := by
    rw [whole, memzero_eq_fill _ _ _ (by omega) small (by omega)]
    exact Memory.fill_outside _ off
  have apart : address + 1 ≤ kernelAdr 0 ∨ kernelAdr 0 + 24 ≤ address := by omega
  exact (agreeOn_setSize fits apart address (le_refl _) (Nat.lt_succ_self _)).trans
    ((agreeOn_setNext fits apart address (le_refl _) (Nat.lt_succ_self _)).trans
      ((agreeOn_setPrev fits apart address (le_refl _) (Nat.lt_succ_self _)).trans cleared))

/-- A program of sixteen bytes behind two headers. -/
def smallProgram : List UInt8 :=
  [0x7F, 0x45, 0x4C, 0x46, 2] ++ List.replicate 13 0 ++ [0xB7] ++ List.replicate 13 0 ++ [64] ++
    List.replicate 39 0 ++ [120] ++ List.replicate 23 0 ++ [16] ++ List.replicate 39 0

theorem length_smallProgram : smallProgram.length = 136 := by
  simp only [smallProgram, List.length_append, List.length_cons, List.length_nil,
    List.length_replicate]

theorem smallProgram_file : ProgramFile smallProgram where
  accepted := ⟨by decide +kernel, by decide +kernel, by decide +kernel⟩
  inside := ⟨by decide +kernel, by decide +kernel, by decide +kernel, by decide +kernel,
    by decide +kernel⟩
  nonempty := by decide +kernel
  one_page := by decide +kernel

/-- The program as the only file of the ram disk, memory otherwise zero. -/
def diskMemory : Memory :=
  placeImage (fun _ => 0) sampleStart (genRamDisk (oneFileTree smallProgram).root)

/-- The first task running at boot with the ram disk in memory and the heap initialised. -/
def diskKernel : Kernel :=
  onePageKernel ⟨(kmallocInit diskMemory (kernelAdr 0)).memory,
    (afterCalls kernelHeapSizePages blankMm).pageBitmap⟩

theorem diskMemory_below {address : Nat} (below : address < sampleStart) :
    diskMemory address = 0 := placeImage_below _ _ below

theorem diskKernel_field {field : Field} (inside : field.InPage) :
    field.get diskKernel.memory smallImage.initTask = 0 := by
  have page : smallImage.initTask + pageSize ≤ sampleStart := by decide
  have fits : sampleStart < wordSize := by decide
  have heap : sampleStart ≤ kernelAdr 0 := by decide +kernel
  simp only [Field.InPage] at inside
  rw [Field.get_eq (by omega)]
  refine Memory.read_zero fun target _ upper => ?_
  exact (kmallocInit_heapOnly diskMemory target (Or.inl (by omega))).trans
    (diskMemory_below (by omega))

theorem atBoot_diskKernel : AtBoot smallImage diskKernel where
  pages := ⟨blankMm.memory, pageBitmap_onePageKernel _ _⟩
  nTasks := rfl
  task := rfl
  current := rfl
  directory := diskKernel_field (by decide)
  userpages := diskKernel_field (by decide)
  kernelpages := diskKernel_field (by decide)

theorem diskImage_below :
    (mountedDisk sampleStart (oneFileTree smallProgram).root).rdfsStart +
        (genRamDisk (oneFileTree smallProgram).root).length ≤
      virtualAddressStart + lowMemory := by
  have room (start top : Nat) (low : start + 65536 ≤ top) {length : Nat} (short : length < 65536) :
      start + length ≤ top := by omega
  have start : (mountedDisk sampleStart (oneFileTree smallProgram).root).rdfsStart = sampleStart :=
    rfl
  rw [start]
  refine room _ _ (by decide) ?_
  rw [length_genRamDisk_eq (oneFileTree_namesFit smallProgram)]
  decide +kernel

theorem diskKernel_mounted : Mounted diskKernel.memory
    (mountedDisk sampleStart (oneFileTree smallProgram).root) (oneFileTree smallProgram).root := by
  have placed : Mounted diskMemory (mountedDisk sampleStart (oneFileTree smallProgram).root)
      (oneFileTree smallProgram).root :=
    oneFileTree_mounted _ (by rw [length_smallProgram]; decide)
  have below := le_trans diskImage_below (kernelAdr_range (by decide : 0 < mmNumOfPages)).1
  exact placed.congr ((kmallocInit_heapOnly diskMemory).agreeOn (Or.inl below))

/-- The heap of the kernel is one free block with room for the program and the lookup. -/
theorem diskKernel_heapInv :
    HeapInv (kernelAdr 0) ⟨⟨diskKernel.memory, kernelAdr 0⟩, []⟩
        [⟨kernelAdr 0, kernelHeapSize⟩] [] ∧
      smallProgram.length + kernelMallocHeaderSize + freeHeaderSize ≤ kernelHeapSize ∧
      rdfsFileNameSize + 8 * (oneFileTree smallProgram).root.count + 40 ≤ kernelHeapSize := by
  have top := (kernelAdr_range (by decide : kernelHeapSizePages < mmNumOfPages)).2
  have low := (kernelAdr_range (by decide : 0 < mmNumOfPages)).1
  have page : 0 < virtualAddressStart ∧ 0 < pageSize := by decide
  rw [kernelAdr_heapEnd] at top
  refine ⟨HeapInv.initial diskMemory ⟨by omega, by omega⟩, ?_, ?_⟩
  · rw [length_smallProgram]
    decide
  · have small : (oneFileTree smallProgram).root.count = 1 := rfl
    rw [small]
    decide

theorem diskKernel_canLoad : CanLoad smallImage diskKernel
    (mountedDisk sampleStart (oneFileTree smallProgram).root) (oneFileTree smallProgram)
    smallProgram (fun _ => true) (kernelAdr 0) 0 where
  mounted := diskKernel_mounted
  names := oneFileTree_namesFit _
  below := diskImage_below
  image_mapped := fun _ _ _ => rfl
  heap_mapped := fun _ _ _ => rfl
  file := smallProgram_file
  heapInv := ⟨[], _, [], diskKernel_heapInv⟩
  known := Nat.zero_lt_one
  current := rfl
  supplied := (atBoot_diskKernel.roomy 0).1
  fits := (atBoot_diskKernel.roomy 0).2

theorem kernel_task_runs_file_small : ∃ run,
    kernelTask (kernelHeap (fun _ => true) 0) 2
        (mountedDisk sampleStart (oneFileTree smallProgram).root) (pathBytes [nameA]) ⟨0, 0⟩
        diskKernel (kernelAdr 0) = some (some run) ∧
      FileLoaded smallImage diskKernel (fun _ _ => none) smallProgram 0 run :=
  kernel_task_runs_file atBoot_diskKernel.shows.shown diskKernel_canLoad
    (Or.inr (.entry (.file nameA _ _ 1))) (isPath_pathBytes _) (by decide) 0 _

end PellOs

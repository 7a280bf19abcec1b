import PellOs.Fs.Vfs
import PellOs.Kmalloc.ClientSafety

/-!
# A fresh descriptor table

`init_fd_table` on the heap of `kmalloc.c`.  It clears the file array for the size of a pointer to
each entry in place of the size of the entry, and `memzero_u8` clears three bytes more than it is
asked for, which behind the 15 bytes of the bitmap belong to the next block.
-/

namespace PellOs

/-- The pointer to the bitmap is stored and the bitmap cleared. -/
def clearBitmap (memory : Memory) (task bitmap : Nat) : Memory :=
  memzeroU8 (Task.fdTableBitmap.set memory task bitmap) bitmap fdBitmapSize

/-- The pointer to the file array is stored and a part of the array cleared. -/
def clearFiles (memory : Memory) (task file : Nat) : Memory :=
  memzeroU8 (Task.fdTableFile.set memory task file) file (8 * fileDescTableInitSize)

/-- `init_fd_table` on the heap; `none` when a search does not end or a null pointer is cleared. -/
def initFdTableOnHeap (fuel : Nat) (heap : Heap) (task : Nat) : Option Heap :=
  if Task.fdTableFile.get heap.memory task ≠ 0 then
    some heap
  else do
    let (heap, bitmap) ← kmalloc fuel heap fdBitmapSize
    if bitmap = 0 then none
    else
      let heap := { heap with memory := clearBitmap heap.memory task bitmap }
      let (heap, file) ← kmalloc fuel heap (sizeofFile * fileDescTableInitSize)
      if file = 0 then none
      else some { heap with memory := clearFiles heap.memory task file }

theorem initFdTable_eq {answer : Nat → Nat} {vfs : Vfs} (no_table : vfs.fd.file = 0)
    (bitmap : answer vfs.rdfs.calls ≠ 0) (file : answer (vfs.rdfs.calls + 1) ≠ 0) :
    (initFdTable answer vfs).map (·.fd.memory) =
      some (clearFiles (clearBitmap vfs.fd.memory vfs.fd.task (answer vfs.rdfs.calls)) vfs.fd.task
        (answer (vfs.rdfs.calls + 1))) := by
  rw [initFdTable, if_neg (not_not.mpr no_table)]
  simp only [RdfsState.kmalloc, bitmap, file, if_false, Option.map_some]
  rfl

/-- The heap as the two calls of `kmalloc` return for a task without a table, and the blocks that
they return. -/
structure TableCalls (fuel : Nat) (heap : Heap) (task : Nat) (first : Heap) (bitmap : Nat)
    (second : Heap) (file : Nat) : Prop where
  no_table : Task.fdTableFile.get heap.memory task = 0
  first_call : kmalloc fuel heap fdBitmapSize = some (first, bitmap)
  bitmap_ne : bitmap ≠ 0
  second_call : kmalloc fuel { first with memory := clearBitmap first.memory task bitmap }
    (sizeofFile * fileDescTableInitSize) = some (second, file)
  file_ne : file ≠ 0

theorem TableCalls.initFdTableOnHeap_eq {fuel : Nat} {heap : Heap} {task : Nat} {first : Heap}
    {bitmap : Nat} {second : Heap} {file : Nat}
    (calls : TableCalls fuel heap task first bitmap second file) :
    initFdTableOnHeap fuel heap task =
      some { second with memory := clearFiles second.memory task file } := by
  rw [initFdTableOnHeap, if_neg (not_not.mpr calls.no_table), calls.first_call]
  simp only [Option.bind_eq_bind, Option.bind_some]
  rw [if_neg calls.bitmap_ne, calls.second_call, Option.bind_some]
  dsimp only
  rw [if_neg calls.file_ne]

/-- The blocks of the table lie in the heap, size words included, apart from each other, and the
task lies outside the heap. -/
structure TableBlocks (heapStart task bitmap file : Nat) : Prop where
  range : heapStart + kernelHeapSize < wordSize
  task_fits : task + 576 ≤ wordSize
  task_apart : task + 576 ≤ heapStart ∨ heapStart + kernelHeapSize ≤ task
  bitmap_inside : heapStart + 8 ≤ bitmap ∧ bitmap + fdBitmapSize ≤ heapStart + kernelHeapSize
  file_inside : heapStart + 8 ≤ file ∧
    file + sizeofFile * fileDescTableInitSize ≤ heapStart + kernelHeapSize
  apart : (allocSpan (bitmap, fdBitmapSize)).Disjoint
    (allocSpan (file, sizeofFile * fileDescTableInitSize))

/-- Every descriptor of the table is invalid, the bitmap is clear, and apart from the calls of
`kmalloc` only the payloads of the blocks and the two pointers to them have changed. -/
structure FreshTable (task : Nat) (first : Memory) (bitmap : Nat) (second : Memory) (file : Nat) :
    Prop where
  invalid : ∀ fd < fileDescTableInitSize,
    (isValidFd ⟨clearFiles second task file, task, []⟩ fd).2 = false
  clear : ∀ index < fdBitmapSize, clearFiles second task file (bitmap + index) = 0
  frame : ∀ address, clearBitmap first task bitmap address ≠ first address ∨
      clearFiles second task file address ≠ second address →
    (bitmap ≤ address ∧ address < bitmap + fdBitmapSize) ∨
      (file ≤ address ∧ address < file + sizeofFile * fileDescTableInitSize) ∨
      task + 560 ≤ address ∧ address < task + 576

theorem clearBitmap_apply (memory : Memory) {task bitmap address : Nat}
    (task_fits : task + 576 ≤ wordSize) (fits : bitmap + fdBitmapSize ≤ wordSize)
    (outside : address < task + 560 ∨ task + 576 ≤ address) :
    clearBitmap memory task bitmap address =
      if bitmap ≤ address ∧ address < bitmap + fdBitmapSize + 3 then 0 else memory address := by
  rw [clearBitmap, memzeroU8_apply _ _ _ _ (by decide) (by decide) fits,
    Field.set_eq (by simp only [Task.fdTableBitmap]; omega),
    Memory.write_outside _ (by simp only [Task.fdTableBitmap]; omega)]

namespace TableBlocks

variable {heapStart task bitmap file : Nat}

theorem clearBitmap_apply (blocks : TableBlocks heapStart task bitmap file) (memory : Memory)
    {address : Nat} (outside : address < task + 560 ∨ task + 576 ≤ address) :
    clearBitmap memory task bitmap address =
      if bitmap ≤ address ∧ address < bitmap + fdBitmapSize + 3 then 0 else memory address := by
  have range := blocks.range
  have inside := blocks.bitmap_inside
  exact PellOs.clearBitmap_apply memory blocks.task_fits (by omega) outside

theorem clearFiles_apply (blocks : TableBlocks heapStart task bitmap file) (memory : Memory)
    {address : Nat} (outside : address < task + 560 ∨ task + 576 ≤ address) :
    clearFiles memory task file address =
      if file ≤ address ∧ address < file + 8 * fileDescTableInitSize + 3 then 0
      else memory address := by
  have range := blocks.range
  have fits := blocks.task_fits
  have inside := blocks.file_inside
  simp only [sizeofFile, fileDescTableInitSize] at inside
  rw [clearFiles, memzeroU8_apply _ _ _ _ (by decide) (by decide)
      (by simp only [fileDescTableInitSize]; omega),
    Field.set_eq (by simp only [Task.fdTableFile]; omega),
    Memory.write_outside _ (by simp only [Task.fdTableFile]; omega)]

theorem file_eq (blocks : TableBlocks heapStart task bitmap file) (memory : Memory) :
    Task.fdTableFile.get (clearFiles memory task file) task = file := by
  have range := blocks.range
  have fits := blocks.task_fits
  have apart := blocks.task_apart
  have inside := blocks.file_inside
  simp only [sizeofFile, fileDescTableInitSize] at inside
  have stored : Task.fdTableFile.get (Task.fdTableFile.set memory task file) task = file :=
    Field.get_set_same (by simp only [Task.fdTableFile]; omega)
      (show file < 256 ^ 8 by rw [← wordSize_eq_pow]; omega)
  conv_rhs => rw [← stored]
  apply Field.get_congr (by simp only [Task.fdTableFile]; omega)
  intro address lower upper
  simp only [Task.fdTableFile] at lower upper
  rw [clearFiles, memzeroU8_apply _ _ _ _ (by decide) (by decide)
    (by simp only [fileDescTableInitSize]; omega), if_neg]
  simp only [fileDescTableInitSize]
  omega

/-- A descriptor below 42 is cleared, one from 42 on keeps its flags. -/
theorem isValidFd_eq (blocks : TableBlocks heapStart task bitmap file) (memory : Memory) {fd : Nat}
    (bound : fd < fileDescTableInitSize) :
    (isValidFd ⟨clearFiles memory task file, task, []⟩ fd).2 = false ↔
      fd < 42 ∨ memory.read (file + sizeofFile * fd + 16) 8 = 0 := by
  have range := blocks.range
  have apart := blocks.task_apart
  have inside := blocks.file_inside
  simp only [sizeofFile, fileDescTableInitSize] at inside bound ⊢
  have place : (FdState.mk (clearFiles memory task file) task []).fileAddress fd =
      file + 24 * fd := by
    rw [FdState.fileAddress, FdState.file, blocks.file_eq]
    rfl
  rw [isValidFd, if_neg (by omega)]
  dsimp only
  have flags : File.flagsField.get (clearFiles memory task file) (file + 24 * fd) =
      (clearFiles memory task file).read (file + 24 * fd + 16) 8 :=
    Field.get_eq (by simp only [File.flagsField]; omega)
  rw [decide_eq_false_iff_not, Int.toNat_natCast, place, flags, not_lt, Nat.le_zero]
  by_cases low : fd < 42
  · rw [iff_true_right (Or.inl low)]
    apply Memory.read_zero
    intro target lower upper
    rw [blocks.clearFiles_apply _ (by omega), if_pos]
    simp only [fileDescTableInitSize]
    omega
  · rw [or_iff_right low]
    have same : memory.AgreeOn (clearFiles memory task file) (file + 24 * fd + 16) 8 := by
      intro target lower upper
      rw [blocks.clearFiles_apply _ (by omega), if_neg]
      simp only [fileDescTableInitSize]
      omega
    rw [Memory.read_congr same]

/-- The first clearing changes only the bitmap and its pointer exactly when the three bytes behind
the bitmap are zero already. -/
theorem clearBitmap_frame_iff (blocks : TableBlocks heapStart task bitmap file) (memory : Memory) :
    (∀ address, clearBitmap memory task bitmap address ≠ memory address →
      (bitmap ≤ address ∧ address < bitmap + fdBitmapSize) ∨
        (file ≤ address ∧ address < file + sizeofFile * fileDescTableInitSize) ∨
        task + 560 ≤ address ∧ address < task + 576) ↔
      ∀ i < 3, memory (bitmap + fdBitmapSize + i) = 0 := by
  have task_apart := blocks.task_apart
  have inside := blocks.bitmap_inside
  have file_inside := blocks.file_inside
  have apart := blocks.apart
  simp only [allocSpan, Span.Disjoint, Span.stop] at apart
  constructor
  · intro frame i bound
    have here := blocks.clearBitmap_apply memory
      (show bitmap + fdBitmapSize + i < task + 560 ∨
        task + 576 ≤ bitmap + fdBitmapSize + i by omega)
    rw [if_pos (by omega)] at here
    by_contra nonzero
    have listed := frame _ (by rw [here]; exact Ne.symm nonzero)
    omega
  · intro zero address changed
    by_contra outside
    push Not at outside
    obtain ⟨not_bitmap, not_file, not_task⟩ := outside
    rw [blocks.clearBitmap_apply memory (by omega)] at changed
    split_ifs at changed with range
    · obtain ⟨i, rfl⟩ := Nat.exists_eq_add_of_le (not_bitmap range.1)
      exact changed (zero i (by omega)).symm
    · exact changed rfl

theorem clearFiles_frame (blocks : TableBlocks heapStart task bitmap file) (memory : Memory)
    {address : Nat} (changed : clearFiles memory task file address ≠ memory address) :
    (file ≤ address ∧ address < file + sizeofFile * fileDescTableInitSize) ∨
      task + 560 ≤ address ∧ address < task + 576 := by
  by_contra outside
  push Not at outside
  obtain ⟨not_file, not_task⟩ := outside
  rw [blocks.clearFiles_apply memory (by omega)] at changed
  split_ifs at changed with range
  · simp only [sizeofFile, fileDescTableInitSize] at not_file range
    omega
  · exact changed rfl

theorem clearFiles_bitmap (blocks : TableBlocks heapStart task bitmap file) (memory : Memory)
    {index : Nat} (bound : index < fdBitmapSize) :
    clearFiles memory task file (bitmap + index) = memory (bitmap + index) := by
  have task_apart := blocks.task_apart
  have inside := blocks.bitmap_inside
  have apart := blocks.apart
  simp only [allocSpan, Span.Disjoint, Span.stop, sizeofFile, fileDescTableInitSize] at apart
  rw [blocks.clearFiles_apply memory (by omega), if_neg]
  simp only [fileDescTableInitSize]
  omega

end TableBlocks

/-! ## Heaps of clients -/

/-- Where the bytes behind the bitmap are zero, the clearing leaves every range apart from the
bitmap and the pointers. -/
theorem clearBitmap_agreeOn {memory : Memory} {task bitmap : Nat}
    (task_fits : task + 576 ≤ wordSize) (fits : bitmap + fdBitmapSize ≤ wordSize)
    (zero : ∀ i < 3, memory (bitmap + fdBitmapSize + i) = 0) {address count : Nat}
    (away : address + count ≤ task + 560 ∨ task + 576 ≤ address)
    (apart : address + count ≤ bitmap ∨ bitmap + fdBitmapSize ≤ address) :
    memory.AgreeOn (clearBitmap memory task bitmap) address count := by
  intro target lower upper
  rw [clearBitmap_apply memory task_fits fits (by omega)]
  split_ifs with range
  · obtain ⟨i, rfl⟩ := Nat.exists_eq_add_of_le (show bitmap + fdBitmapSize ≤ target by omega)
    exact (zero i (by omega)).symm
  · rfl

/-- On the heap of harmless clients the calls return blocks apart, and the bitmap stays clear, when
the bytes behind it are zero and both requests are served without damage. -/
theorem TableCalls.blocks {fuel : Nat} {heap : Heap} {heapStart task : Nat} {first : Heap}
    {bitmap : Nat} {second : Heap} {file : Nat} {live : List (Nat × Nat)} {free lost : List Span}
    (calls : TableCalls fuel heap task first bitmap second file)
    (inv : HeapInv heapStart ⟨heap, live⟩ free lost) (task_fits : task + 576 ≤ wordSize)
    (task_apart : task + 576 ≤ heapStart ∨ heapStart + kernelHeapSize ≤ task)
    (served : ServesWhole free fdBitmapSize)
    (zero : ∀ i < 3, first.memory (bitmap + fdBitmapSize + i) = 0)
    (served_files : ServesWhole
      (freeBlocks { first with memory := clearBitmap first.memory task bitmap })
      (sizeofFile * fileDescTableInitSize)) :
    TableBlocks heapStart task bitmap file ∧
      ∀ index < fdBitmapSize, second.memory (bitmap + index) = 0 := by
  have range := inv.range
  rcases inv.malloc_cases (by decide) served calls.first_call with
    ⟨_, _, null⟩ | ⟨_, _, _, _, _, _, first_inv, _⟩
  · exact absurd null calls.bitmap_ne
  have bitmap_inside := first_inv.live_inside List.mem_cons_self
  dsimp only at bitmap_inside
  have fits : bitmap + fdBitmapSize ≤ wordSize := by omega
  have cleared := @HeapInv.congr _ _ _ _ first_inv (clearBitmap first.memory task bitmap)
    (fun block member => by
      have avoids := first_inv.live_avoids List.mem_cons_self block member
      have room := first_inv.list.room block member
      have inside := first_inv.tiles.inside block (List.mem_append_left _ member)
      simp only [AvoidsHeader] at avoids
      simp only [Span.stop, freeHeaderSize] at inside room
      exact clearBitmap_agreeOn task_fits fits zero (by omega) (by omega))
    (fun alloc member => by
      have inside := first_inv.live_inside member
      have apart : alloc = (bitmap, fdBitmapSize) ∨
          (allocSpan alloc).Disjoint (allocSpan (bitmap, fdBitmapSize)) := by
        by_cases same : alloc = (bitmap, fdBitmapSize)
        · exact Or.inl same
        · exact Or.inr ((List.pairwise_map.mp first_inv.live_disjoint).forall member
            List.mem_cons_self same)
      refine clearBitmap_agreeOn task_fits fits zero (by omega) ?_
      rcases apart with rfl | apart
      · omega
      · simp only [allocSpan, Span.Disjoint, Span.stop] at apart
        omega)
  rw [cleared.freeBlocks_eq] at served_files
  rcases cleared.malloc_cases (by decide) served_files calls.second_call with
    ⟨_, _, null⟩ | ⟨_, _, _, _, _, _, second_inv, kept⟩
  · exact absurd null calls.file_ne
  have file_inside := second_inv.live_inside List.mem_cons_self
  have disjoint := second_inv.live_disjoint
  rw [List.map_cons, List.map_cons, List.pairwise_cons] at disjoint
  dsimp only at file_inside
  refine ⟨⟨range.2, task_fits, task_apart, by omega, by omega,
    (disjoint.1 _ List.mem_cons_self).symm⟩, fun index bound => ?_⟩
  have same := kept _ List.mem_cons_self (bitmap + index) (by dsimp only; omega)
    (by dsimp only; omega)
  refine same.trans ?_
  dsimp only
  rw [clearBitmap_apply _ task_fits fits (by omega), if_pos (by omega)]

/-- `init_fd_table` makes an empty table and disturbs nothing exactly when the three bytes behind
the bitmap are zero as the first `kmalloc` returns, the second one leaves the bitmap clear, and the
flags of the entries from 42 on are zero in the block that it returns. -/
theorem initFdTable_fresh_iff {fuel : Nat} {heap : Heap} {heapStart task : Nat} {first : Heap}
    {bitmap : Nat} {second : Heap} {file : Nat}
    (calls : TableCalls fuel heap task first bitmap second file)
    (blocks : TableBlocks heapStart task bitmap file) :
    initFdTableOnHeap fuel heap task =
        some { second with memory := clearFiles second.memory task file } ∧
      (FreshTable task first.memory bitmap second.memory file ↔
        (∀ i < 3, first.memory (bitmap + fdBitmapSize + i) = 0) ∧
          (∀ index < fdBitmapSize, second.memory (bitmap + index) = 0) ∧
          ∀ fd, 42 ≤ fd → fd < fileDescTableInitSize →
            second.memory.read (file + sizeofFile * fd + 16) 8 = 0) := by
  refine ⟨calls.initFdTableOnHeap_eq, ?_⟩
  rw [← blocks.clearBitmap_frame_iff first.memory]
  constructor
  · intro fresh
    refine ⟨fun address changed => fresh.frame address (Or.inl changed), fun index bound => ?_,
      fun fd low bound => ?_⟩
    · rw [← blocks.clearFiles_bitmap second.memory bound]
      exact fresh.clear index bound
    · exact ((blocks.isValidFd_eq second.memory bound).mp (fresh.invalid fd bound)).resolve_left
        (not_lt.mpr low)
  · rintro ⟨frame, clear, flags⟩
    refine ⟨fun fd bound => ?_, fun index bound => ?_, fun address changed => ?_⟩
    · apply (blocks.isValidFd_eq second.memory bound).mpr
      by_cases low : fd < 42
      · exact Or.inl low
      · exact Or.inr (flags fd (not_lt.mp low) bound)
    · rw [blocks.clearFiles_bitmap second.memory bound]
      exact clear index bound
    · rcases changed with bitmap | files
      · exact frame address bitmap
      · exact Or.inr (blocks.clearFiles_frame second.memory files)

/-! ## A heap with one free block -/

/-- A request that one free block serves changes its size word and the header behind it. -/
theorem kmalloc_only {heap : Heap} {block : Span} (list : FreeList heap [block]) {size : Nat}
    (room : size + kernelMallocHeaderSize + freeHeaderSize ≤ block.length) :
    ∃ next, kmalloc 1 heap size = some (next, block.start + 8) ∧
      FreeList next [⟨block.start + (size + 8), block.length - (size + 8)⟩] ∧
      ∀ address, address < block.start ∨ block.start + 8 ≤ address →
        address < block.start + (size + 8) ∨ block.start + (size + 8) + 24 ≤ address →
          next.memory address = heap.memory address := by
  have bounds := list.bounds block List.mem_cons_self
  simp only [Span.stop] at bounds
  simp only [kernelMallocHeaderSize, freeHeaderSize] at room
  have small : size + kernelMallocHeaderSize < wordSize := by
    simp only [kernelMallocHeaderSize]
    omega
  have run := @kmalloc_eq_fit heap [] [] block size 1 list small
    (fun _ member => (List.not_mem_nil member).elim) (by simp only [kernelMallocHeaderSize]; omega)
    Nat.one_pos
  obtain ⟨pointer, after, _⟩ := @kmallocFit_spec heap [] [] block list size small
    (by simp only [kernelMallocHeaderSize]; omega)
    (Or.inr (by simp only [kernelMallocHeaderSize, freeHeaderSize]; omega))
  rw [leftover_split (by simp only [kernelMallocHeaderSize, freeHeaderSize]; omega)] at after
  refine ⟨_, run.trans (congrArg some (Prod.ext rfl pointer)), after, ?_⟩
  have node : Node heap.memory block startOfHeap endOfHeap := list.linked.1
  intro address away behind
  have header : FreeMemHeader.load heap.memory block.start =
      ⟨startOfHeap, endOfHeap, block.length⟩ := by
    rw [FreeMemHeader.load, node.prev_eq, node.next_eq, node.size_eq]
  rw [kmallocFit, kmallocTake, header]
  dsimp only
  rw [if_pos ⟨rfl, rfl⟩, if_neg (by simp only [kernelMallocHeaderSize]; omega),
    Nat.mod_eq_of_lt (by simp only [kernelMallocHeaderSize]; omega)]
  dsimp only [kernelMallocHeaderSize]
  rw [Nat.mod_eq_of_lt (by omega)]
  refine ((((agreeOn_setPrev ?_ ?_).trans (agreeOn_setNext ?_ ?_)).trans
    (agreeOn_setSize ?_ ?_)).trans (Memory.agreeOn_write _ ?_)) address (le_refl _)
      (show address < address + 1 by omega) <;> omega

/-- Where the task of the examples lies. -/
def sampleTask : Nat := 0xffff000000300000

/-- A task without a table starts one on a heap with one free block.  The payloads of the two blocks
and the bytes of the second one that are not cleared are known. -/
private theorem tableCalls_only {heap : Heap}
    (no_table : Task.fdTableFile.get heap.memory sampleTask = 0)
    (list : FreeList heap [⟨kernelHeapStart, kernelHeapSize⟩]) :
    ∃ first second, TableCalls 1 heap sampleTask first (kernelHeapStart + 8) second
        (kernelHeapStart + 31) ∧
      TableBlocks kernelHeapStart sampleTask (kernelHeapStart + 8) (kernelHeapStart + 31) ∧
      ∀ address, kernelHeapStart + 47 ≤ address → address < kernelHeapStart + 3079 →
        second.memory address = heap.memory address := by
  have blocks : TableBlocks kernelHeapStart sampleTask (kernelHeapStart + 8)
      (kernelHeapStart + 31) :=
    ⟨by decide, by decide, by decide, by decide, by decide, Or.inl (by decide)⟩
  obtain ⟨first, first_call, first_list, first_same⟩ := @kmalloc_only heap _ list fdBitmapSize
    (by decide)
  have node : Node first.memory ⟨kernelHeapStart + 23, kernelHeapSize - 23⟩ startOfHeap endOfHeap :=
    first_list.linked.1
  have prev := (node.words (by decide)).1
  have bytes : Memory.AgreeOn (fun _ => 0) first.memory (kernelHeapStart + 23) 8 :=
    Memory.agreeOn_of_read_eq (prev.trans (Memory.read_zero fun _ _ _ => rfl).symm)
  have zero : ∀ i < 3, first.memory (kernelHeapStart + 8 + fdBitmapSize + i) = 0 := by
    intro i bound
    simp only [fdBitmapSize, fileDescTableInitSize]
    exact bytes _ (by omega) (by omega)
  have cleared : FreeList
      { first with memory := clearBitmap first.memory sampleTask (kernelHeapStart + 8) }
      [⟨kernelHeapStart + 23, kernelHeapSize - 23⟩] :=
    { first_list with
      linked := first_list.linked.congr first_list.fits fun block member => by
        rw [List.mem_singleton.mp member]
        exact clearBitmap_agreeOn blocks.task_fits (by decide) zero (Or.inr (by decide))
          (Or.inr (by decide)) }
  obtain ⟨second, second_call, -, second_same⟩ := @kmalloc_only _ _ cleared
    (sizeofFile * fileDescTableInitSize) (by decide)
  refine ⟨first, second, ⟨no_table, first_call, by decide, second_call, by decide⟩, blocks, ?_⟩
  intro address lower upper
  simp only [sizeofFile, fileDescTableInitSize] at second_same
  simp only [fdBitmapSize, fileDescTableInitSize] at first_same
  rw [second_same address (by omega) (by omega),
    clearBitmap_apply _ blocks.task_fits (by decide) ?_,
    if_neg ?_, first_same address (by omega) (by omega)]
  · simp only [fdBitmapSize, fileDescTableInitSize]
    omega
  · simp only [kernelHeapStart, sampleTask] at lower ⊢
    omega

private theorem bootHeap_outside {address : Nat}
    (outside : address < kernelHeapStart ∨ kernelHeapStart + kernelHeapSize ≤ address) :
    bootHeap.heap.memory address = 0 := by
  have cleared : memzero (fun _ => 0) kernelHeapStart kernelHeapSize =
      Memory.fill (fun _ => 0) kernelHeapStart kernelHeapSize 0 :=
    memzero_eq_fill (fun _ => 0) kernelHeapStart 32768 (by decide) (by decide) (by decide)
  have size : kernelHeapSize = 262144 := rfl
  rw [bootHeap, initialState, kmallocInit, cleared]
  dsimp only
  refine (((agreeOn_setPrev ?_ ?_).trans (agreeOn_setNext ?_ ?_)).trans (agreeOn_setSize ?_ ?_))
    address (le_refl _) (show address < address + 1 by omega) |>.trans ?_
  · decide
  · omega
  · decide
  · omega
  · decide
  · omega
  · exact Memory.fill_outside _ outside

private theorem bootHeap_inv :
    HeapInv kernelHeapStart bootHeap [⟨kernelHeapStart, kernelHeapSize⟩] [] :=
  HeapInv.initial (fun _ => 0) kernelHeapStart_range

private theorem bootHeap_no_table : Task.fdTableFile.get bootHeap.heap.memory sampleTask = 0 := by
  rw [Field.get_eq (by decide)]
  apply Memory.read_zero
  intro target lower upper
  apply bootHeap_outside
  simp only [Task.fdTableFile, sampleTask] at upper
  simp only [kernelHeapStart]
  omega

/-- The first table on the heap after boot. -/
theorem initFdTable_fresh_iff_boot : ∃ first second : Heap,
    initFdTableOnHeap 1 bootHeap.heap sampleTask =
        some { second with memory := clearFiles second.memory sampleTask (kernelHeapStart + 31) } ∧
      (FreshTable sampleTask first.memory (kernelHeapStart + 8) second.memory
          (kernelHeapStart + 31) ↔
        (∀ i < 3, first.memory (kernelHeapStart + 8 + fdBitmapSize + i) = 0) ∧
          (∀ index < fdBitmapSize, second.memory (kernelHeapStart + 8 + index) = 0) ∧
          ∀ fd, 42 ≤ fd → fd < fileDescTableInitSize →
            second.memory.read (kernelHeapStart + 31 + sizeofFile * fd + 16) 8 = 0) := by
  obtain ⟨first, second, calls, blocks, _⟩ :=
    tableCalls_only bootHeap_no_table bootHeap_inv.list
  exact ⟨first, second, initFdTable_fresh_iff calls blocks⟩

/-- The heap after boot with a byte that a freed block has left. -/
def staleHeap : Heap :=
  { bootHeap.heap with memory := bootHeap.heap.memory.writeByte (kernelHeapStart + 1055) 1 }

/-- On a heap with stale data descriptor 42 of a fresh table is valid. -/
theorem stale_descriptor_valid : ∃ first bitmap second file,
    HeapInv kernelHeapStart ⟨staleHeap, []⟩ [⟨kernelHeapStart, kernelHeapSize⟩] [] ∧
      TableCalls 1 staleHeap sampleTask first bitmap second file ∧
      TableBlocks kernelHeapStart sampleTask bitmap file ∧
      (isValidFd ⟨clearFiles second.memory sampleTask file, sampleTask, []⟩ 42).2 = true ∧
      ¬ FreshTable sampleTask first.memory bitmap second.memory file := by
  have inv : HeapInv kernelHeapStart ⟨staleHeap, []⟩ [⟨kernelHeapStart, kernelHeapSize⟩] [] :=
    bootHeap_inv.congr (fun block member => by
      rw [List.mem_singleton.mp member]
      exact Memory.agreeOn_writeByte _ (by dsimp only; omega))
        (fun _ member => (List.not_mem_nil member).elim)
  have no_table : Task.fdTableFile.get staleHeap.memory sampleTask = 0 := by
    rw [← bootHeap_no_table]
    apply Field.get_congr (by decide)
    exact Memory.agreeOn_writeByte _ (by decide)
  obtain ⟨first, second, calls, blocks, same⟩ := tableCalls_only no_table inv.list
  have stale : second.memory.read (kernelHeapStart + 31 + sizeofFile * 42 + 16) 8 ≠ 0 := by
    intro zero
    have bytes : Memory.AgreeOn (fun _ => 0) second.memory (kernelHeapStart + 1055) 8 :=
      Memory.agreeOn_of_read_eq (zero.trans (Memory.read_zero fun _ _ _ => rfl).symm)
    have byte := bytes _ (le_refl _) (by omega)
    rw [same _ (by omega) (by omega), staleHeap] at byte
    dsimp only at byte
    rw [Memory.writeByte_same] at byte
    exact absurd byte (by decide)
  have valid := blocks.isValidFd_eq second.memory (show 42 < fileDescTableInitSize by decide)
  have not_invalid := mt valid.mp fun low => low.elim (absurd · (by decide)) stale
  exact ⟨first, _, second, _, inv, calls, blocks, Bool.of_not_eq_false not_invalid,
    fun fresh => not_invalid (fresh.invalid 42 (by decide))⟩

end PellOs

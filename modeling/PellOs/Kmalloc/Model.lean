import PellOs.Mm.PageAllocator

/-!
# The kernel heap

`kmalloc.c` keeps an in-band doubly linked list of free blocks.  A free block starts with the
24-byte header `prev`, `next`, `size`; an allocated block starts with its 8-byte payload size.
Pointers and sizes are 64-bit words and all address arithmetic wraps.

The searches over the list are `for`-less loops on pointers read from memory, so they carry fuel
and return `none` when it runs out.
-/

namespace PellOs

/-- `KERNEL_HEAP_SIZE_PAGES`. -/
def kernelHeapSizePages : Nat := 64

/-- `KERNEL_HEAP_SIZE`. -/
def kernelHeapSize : Nat := kernelHeapSizePages * pageSize

/-- `KERNEL_MALLOC_HEADER_SIZE`, the size word in front of every payload. -/
def kernelMallocHeaderSize : Nat := 8

/-- `START_OF_HEAP`. -/
def startOfHeap : Nat := 0

/-- `END_OF_HEAP`, the pointer `-1`. -/
def endOfHeap : Nat := wordSize - 1

/-- `free_mem_header_t`. -/
structure FreeMemHeader where
  prev : Nat
  next : Nat
  size : Nat
  deriving DecidableEq

namespace FreeMemHeader

/-- `block->prev`. -/
def prevAt (memory : Memory) (block : Nat) : Nat := memory.read (block % wordSize) 8

/-- `block->next`. -/
def nextAt (memory : Memory) (block : Nat) : Nat := memory.read ((block + 8) % wordSize) 8

/-- `block->size`. -/
def sizeAt (memory : Memory) (block : Nat) : Nat := memory.read ((block + 16) % wordSize) 8

/-- `block->prev = value`. -/
def setPrev (memory : Memory) (block value : Nat) : Memory :=
  memory.write (block % wordSize) 8 value

/-- `block->next = value`. -/
def setNext (memory : Memory) (block value : Nat) : Memory :=
  memory.write ((block + 8) % wordSize) 8 value

/-- `block->size = value`. -/
def setSize (memory : Memory) (block value : Nat) : Memory :=
  memory.write ((block + 16) % wordSize) 8 value

/-- The structure copy `*block`. -/
def load (memory : Memory) (block : Nat) : FreeMemHeader :=
  ⟨prevAt memory block, nextAt memory block, sizeAt memory block⟩

/-- The structure assignment `*block = header`. -/
def store (memory : Memory) (block : Nat) (header : FreeMemHeader) : Memory :=
  setSize (setNext (setPrev memory block header.prev) block header.next) block header.size

end FreeMemHeader

open FreeMemHeader

/-- Heap memory with the static `first_free`. -/
structure Heap where
  memory : Memory
  firstFree : Nat

/-- `kmalloc_init`. -/
def kmallocInit (memory : Memory) (heapStart : Nat) : Heap :=
  let memory := memzero memory heapStart kernelHeapSize
  let memory := setPrev memory heapStart startOfHeap
  let memory := setNext memory heapStart endOfHeap
  let memory := setSize memory heapStart kernelHeapSize
  ⟨memory, heapStart⟩

/-- The relinking part of `kmalloc` once `block` is known to fit. -/
def kmallocTake (heap : Heap) (block allocSize : Nat) : Heap :=
  let old := load heap.memory block
  let free := (block + allocSize) % wordSize
  let remaining := old.size - allocSize
  if old.prev = startOfHeap ∧ old.next = endOfHeap then
    -- only block
    if remaining = 0 then
      { heap with firstFree := 0 }
    else
      let memory := setPrev heap.memory free startOfHeap
      let memory := setNext memory free endOfHeap
      let memory := setSize memory free remaining
      ⟨memory, free⟩
  else if old.prev = startOfHeap then
    -- first block, with another one after it
    if remaining = 0 then
      ⟨setPrev heap.memory old.next startOfHeap, old.next⟩
    else
      let memory := setNext heap.memory free old.next
      let memory := setPrev memory (nextAt memory free) free
      let memory := setSize memory free remaining
      let memory := setPrev memory free startOfHeap
      ⟨memory, free⟩
  else if old.next = endOfHeap then
    -- last block, with another one before it
    if remaining = 0 then
      { heap with memory := setNext heap.memory old.prev endOfHeap }
    else
      let memory := setPrev heap.memory free old.prev
      let memory := setNext memory (prevAt memory free) free
      let memory := setSize memory free remaining
      let memory := setNext memory free endOfHeap
      { heap with memory }
  else
    -- blocks on both sides
    if remaining = 0 then
      let memory := setNext heap.memory old.prev old.next
      let memory := setPrev memory old.next old.prev
      { heap with memory }
    else
      let memory := setPrev heap.memory free old.prev
      let memory := setNext memory (prevAt memory free) free
      let memory := setNext memory free old.next
      let memory := setPrev memory (nextAt memory free) free
      let memory := setSize memory free remaining
      { heap with memory }

/-- Take a fitting block, store the payload size in front and return the payload pointer. -/
def kmallocFit (heap : Heap) (size block allocSize : Nat) : Heap × Nat :=
  let heap := kmallocTake heap block allocSize
  ({ heap with memory := heap.memory.write (block % wordSize) 8 size }, (block + 8) % wordSize)

/-- The `do … while` search of `kmalloc`.  Its condition `p != END || p != START` never fails. -/
def kmallocSearch (heap : Heap) (size allocSize : Nat) : Nat → Nat → Option (Heap × Nat)
  | 0, _ => none
  | fuel + 1, block =>
      if allocSize ≤ sizeAt heap.memory block then
        some (kmallocFit heap size block allocSize)
      else
        let next := nextAt heap.memory block
        if next ≠ endOfHeap ∨ next ≠ startOfHeap then
          kmallocSearch heap size allocSize fuel next
        else
          some (heap, 0)

/-- `kmalloc`, with the resulting heap and the returned pointer. -/
def kmalloc (fuel : Nat) (heap : Heap) (size : Nat) : Option (Heap × Nat) :=
  let allocSize := (size + kernelMallocHeaderSize) % wordSize
  if heap.firstFree = 0 then
    some (heap, 0)
  else
    kmallocSearch heap size allocSize fuel heap.firstFree

/-- The `while` loop of `kfree`: the first block above `ptr`, or the last block of the list. -/
def kfreeSearch (memory : Memory) (ptr : Nat) : Nat → Nat → Option (Nat × Bool)
  | 0, _ => none
  | fuel + 1, block =>
      if nextAt memory block ≠ endOfHeap then
        if ptr < block then
          some (block, true)
        else
          kfreeSearch memory ptr fuel (nextAt memory block)
      else
        some (block, false)

/-- The search of `kfree` with its two special cases: a single free block always counts as found,
and the last block is compared after the loop. -/
def kfreeFind (fuel : Nat) (heap : Heap) (ptr : Nat) : Option (Nat × Bool) :=
  if nextAt heap.memory heap.firstFree = endOfHeap ∧
      prevAt heap.memory heap.firstFree = startOfHeap then
    some (heap.firstFree, true)
  else do
    let (block, found) ← kfreeSearch heap.memory ptr fuel heap.firstFree
    if ¬found ∧ nextAt heap.memory block = endOfHeap ∧ ptr < block then
      some (block, true)
    else
      some (block, found)

/-- `kfree` of a block that lies behind the last free block. -/
def kfreeTail (heap : Heap) (block headerAdr size : Nat) : Heap :=
  if nextAt heap.memory block = endOfHeap ∧ block ≤ headerAdr then
    if block < headerAdr then
      -- the new last block's `next` is left as it is
      let memory := setNext heap.memory block headerAdr
      let memory := setPrev memory headerAdr block
      let memory := setSize memory headerAdr size
      { heap with memory }
    else
      { heap with
        memory := setSize heap.memory block ((sizeAt heap.memory block + size) % wordSize) }
  else
    heap

/-- `kfree` of a block in front of the first free block. -/
def kfreeFront (heap : Heap) (block headerAdr size : Nat) : Heap :=
  if (headerAdr + size) % wordSize = block then
    let moved := (block + wordSize - size) % wordSize
    let old := load heap.memory block
    let memory := store heap.memory moved { old with size := (old.size + size) % wordSize }
    if nextAt memory moved ≠ endOfHeap then
      ⟨setPrev memory (nextAt memory moved) moved, moved⟩
    else
      ⟨memory, moved⟩
  else
    let memory := setPrev heap.memory headerAdr startOfHeap
    let memory := setNext memory headerAdr block
    let memory := setSize memory headerAdr size
    let memory := setPrev memory block headerAdr
    ⟨memory, headerAdr⟩

/-- `kfree` of a block between two free blocks. -/
def kfreeBetween (heap : Heap) (block headerAdr size : Nat) : Heap :=
  let prev := prevAt heap.memory block
  let endOfPrev := (prev + sizeAt heap.memory prev) % wordSize
  let prevContigHeader := (endOfPrev + 1) % wordSize = headerAdr
  let headerContigFreeBlock := (headerAdr + size + 1) % wordSize = block
  if prevContigHeader ∧ headerContigFreeBlock then
    let memory := setNext heap.memory prev (nextAt heap.memory block)
    let memory := setSize memory prev
      ((sizeAt memory prev + (size + sizeAt memory block)) % wordSize)
    if nextAt memory block ≠ endOfHeap then
      { heap with memory := setPrev memory (nextAt memory block) prev }
    else
      { heap with memory }
  else if prevContigHeader then
    { heap with
      memory := setSize heap.memory prev ((sizeAt heap.memory prev + size) % wordSize) }
  else if headerContigFreeBlock then
    let moved := (block + wordSize - size) % wordSize
    let old := load heap.memory block
    let memory := store heap.memory moved { old with size := (old.size + size) % wordSize }
    { heap with memory := setNext memory (prevAt memory moved) moved }
  else
    let memory := setSize heap.memory headerAdr size
    let memory := setNext memory headerAdr block
    let memory := setPrev memory block headerAdr
    let memory := setPrev memory headerAdr prev
    let memory := setNext memory prev headerAdr
    { heap with memory }

/-- `kfree`. -/
def kfree (fuel : Nat) (heap : Heap) (ptr : Nat) : Option Heap :=
  if ptr = 0 then
    some heap
  else
    let headerAdr := (ptr + wordSize - kernelMallocHeaderSize) % wordSize
    let size := (heap.memory.read headerAdr 8 + kernelMallocHeaderSize) % wordSize
    if heap.firstFree = 0 then
      some heap
    else do
      let (block, found) ← kfreeFind fuel heap ptr
      if ¬found then
        some (kfreeTail heap block headerAdr size)
      else if prevAt heap.memory block = startOfHeap then
        some (kfreeFront heap block headerAdr size)
      else
        some (kfreeBetween heap block headerAdr size)

end PellOs

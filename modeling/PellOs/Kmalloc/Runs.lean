import PellOs.Kmalloc.Free

/-!
# Runs of the heap

A heap client allocates, frees what it holds and writes inside the payloads it holds.  The
invariant ties the free list read from memory to the blocks the client holds: together they tile
the heap.  Each call keeps it as long as no header is written over a neighbour, no search runs off
the list and no list is left without its terminator.
-/

namespace PellOs

open FreeMemHeader

/-- The heap together with the client's live allocations, as payload pointer and size. -/
structure HeapState where
  heap : Heap
  live : List (Nat × Nat)

/-- The bytes of an allocation, size word included. -/
def allocSpan (alloc : Nat × Nat) : Span := ⟨alloc.1 - 8, alloc.2 + 8⟩

/-- What a client does next. -/
inductive HeapAction
  | malloc (size : Nat)
  | free (ptr size : Nat)
  | write (address : Nat) (byte : UInt8)

/-- One call of the allocator or one client write. -/
inductive HeapStep : HeapAction → HeapState → HeapState → Prop
  | malloc {state : HeapState} {size fuel ptr : Nat} {heap : Heap}
      (size_le : size ≤ kernelHeapSize)
      (run : kmalloc fuel state.heap size = some (heap, ptr)) :
      HeapStep (.malloc size) state
        ⟨heap, if ptr = 0 then state.live else (ptr, size) :: state.live⟩
  | free {state : HeapState} {ptr size fuel : Nat} {heap : Heap}
      (held : (ptr, size) ∈ state.live)
      (run : kfree fuel state.heap ptr = some heap) :
      HeapStep (.free ptr size) state ⟨heap, state.live.erase (ptr, size)⟩
  | write {state : HeapState} {ptr size offset : Nat} {byte : UInt8}
      (held : (ptr, size) ∈ state.live) (inside : offset < size) :
      HeapStep (.write (ptr + offset) byte) state
        ⟨{ state.heap with memory := state.heap.memory.writeByte (ptr + offset) byte },
          state.live⟩

/-- The heap handed to clients by `kmalloc_init`. -/
def initialState (memory : Memory) (heapStart : Nat) : HeapState :=
  ⟨kmallocInit memory heapStart, []⟩

/-- The free list as it is read by following `next` from `block`. -/
def freeBlocksFrom (memory : Memory) : Nat → Nat → List Span
  | 0, _ => []
  | fuel + 1, block =>
      if block = startOfHeap ∨ block = endOfHeap then []
      else ⟨block, sizeAt memory block⟩ :: freeBlocksFrom memory fuel (nextAt memory block)

/-- The free blocks of a heap, in list order.  A heap has fewer blocks than bytes. -/
def freeBlocks (heap : Heap) : List Span :=
  freeBlocksFrom heap.memory kernelHeapSize heap.firstFree

/-! ## Conditions on a call -/

/-- A request is served without damage: there is no free block at all, or the first one that fits
is used up or keeps room for a header. -/
def ServesWhole (free : List Span) (size : Nat) : Prop :=
  free = [] ∨ ∃ block,
    free.find? (fun block => decide (size + kernelMallocHeaderSize ≤ block.length)) = some block ∧
      (block.length = size + kernelMallocHeaderSize ∨
        size + kernelMallocHeaderSize + freeHeaderSize ≤ block.length)

/-- Calls that damage neither a live allocation nor the free list. -/
def HeapAction.Harmless (state : HeapState) : HeapAction → Prop
  | .malloc size => ServesWhole (freeBlocks state.heap) size
  | .free ptr size =>
      freeBlocks state.heap = [] ∨
        ReturnsInPlace state.heap.memory (freeBlocks state.heap) (allocSpan (ptr, size)) ∨
        (freeBlocks state.heap).length = 1 ∧ freeHeaderSize ≤ size + kernelMallocHeaderSize
  | .write _ _ => True

/-- Calls that moreover keep the list in address order and lose no memory. -/
def HeapAction.Orderly (state : HeapState) : HeapAction → Prop
  | .malloc size => ServesWhole (freeBlocks state.heap) size
  | .free ptr size =>
      ReturnsInPlace state.heap.memory (freeBlocks state.heap) (allocSpan (ptr, size))
  | .write _ _ => True

/-! ## Invariant -/

/-- Free blocks, live allocations and lost blocks tile the heap, and every live allocation still
has its size word. -/
structure HeapInv (heapStart : Nat) (state : HeapState) (free lost : List Span) : Prop where
  range : 0 < heapStart ∧ heapStart + kernelHeapSize < wordSize
  list : FreeList state.heap free
  tiles : Span.Tiles heapStart (heapStart + kernelHeapSize)
    (free ++ (state.live.map allocSpan ++ lost))
  headers : ∀ alloc ∈ state.live, state.heap.memory.read (alloc.1 - 8) 8 = alloc.2
  lost_room : ∀ span ∈ lost, 8 ≤ span.length

/-- The allocations live before and after a step keep their size word and payload. -/
def KeepsLive (before after : HeapState) : Prop :=
  ∀ alloc ∈ before.live, alloc ∈ after.live →
    before.heap.memory.AgreeOn after.heap.memory (alloc.1 - 8) (alloc.2 + 8)

theorem freeBlocksFrom_eq {memory : Memory} {prev fuel : Nat} {free : List Span}
    (linked : Linked memory prev free endOfHeap)
    (starts : ∀ block ∈ free, block.start ≠ startOfHeap ∧ block.start ≠ endOfHeap)
    (enough : free.length < fuel) :
    freeBlocksFrom memory fuel (headStart free endOfHeap) = free := by
  induction free generalizing prev fuel with
  | nil =>
      obtain ⟨fuel, rfl⟩ := Nat.exists_eq_succ_of_ne_zero (Nat.ne_of_gt enough)
      simp [freeBlocksFrom]
  | cons block free ih =>
      obtain ⟨fuel, rfl⟩ := Nat.exists_eq_succ_of_ne_zero (Nat.ne_of_gt (Nat.zero_lt_of_lt enough))
      obtain ⟨node, rest⟩ := linked
      have ends := starts block List.mem_cons_self
      simp only [headStart_cons, freeBlocksFrom, node.next_eq, node.size_eq]
      rw [if_neg (by tauto), ih rest (fun other member => starts other
        (List.mem_cons_of_mem _ member)) (by simpa using enough)]

namespace HeapInv

variable {heapStart : Nat} {state : HeapState} {free lost : List Span}

theorem length_lt (inv : HeapInv heapStart state free lost) : free.length < kernelHeapSize := by
  have total := inv.tiles.sum_length
  rw [List.map_append, List.sum_append] at total
  have long : free.length * 24 ≤ (free.map Span.length).sum := by
    have bound := List.card_nsmul_le_sum (free.map Span.length) 24 (by
      intro length member
      obtain ⟨block, inside, rfl⟩ := List.mem_map.mp member
      exact inv.list.room block inside)
    simpa using bound
  have size_pos : 0 < kernelHeapSize := by decide
  omega

theorem freeBlocks_eq (inv : HeapInv heapStart state free lost) :
    freeBlocks state.heap = free := by
  unfold freeBlocks
  rw [inv.list.first]
  cases free with
  | nil => rfl
  | cons block free =>
      exact freeBlocksFrom_eq inv.list.linked
        (fun other member => ⟨inv.list.start_pos member, inv.list.start_ne_end member⟩)
        inv.length_lt

theorem free_disjoint_live (inv : HeapInv heapStart state free lost) {block : Span}
    (member : block ∈ free) {alloc : Nat × Nat} (held : alloc ∈ state.live) :
    block.Disjoint (allocSpan alloc) := by
  obtain ⟨_, _, cross⟩ := List.pairwise_append.mp inv.tiles.disjoint
  exact cross block member _ (List.mem_append_left _ (List.mem_map_of_mem held))

theorem live_inside (inv : HeapInv heapStart state free lost) {alloc : Nat × Nat}
    (held : alloc ∈ state.live) :
    heapStart ≤ alloc.1 - 8 ∧ alloc.1 - 8 + (alloc.2 + 8) ≤ heapStart + kernelHeapSize := by
  have inside := inv.tiles.inside (allocSpan alloc)
    (List.mem_append_right _ (List.mem_append_left _ (List.mem_map_of_mem held)))
  exact inside

theorem live_disjoint (inv : HeapInv heapStart state free lost) :
    (state.live.map allocSpan).Pairwise Span.Disjoint :=
  (List.pairwise_append.mp (List.pairwise_append.mp inv.tiles.disjoint).2.1).1

theorem live_avoids (inv : HeapInv heapStart state free lost) {alloc : Nat × Nat}
    (held : alloc ∈ state.live) :
    ∀ block ∈ free, AvoidsHeader (alloc.1 - 8) (alloc.2 + 8) block.start := by
  intro block member
  have apart := inv.free_disjoint_live member held
  have room := inv.list.room block member
  simp only [Span.Disjoint, Span.stop, allocSpan, freeHeaderSize] at apart room
  simp only [AvoidsHeader]
  omega

private theorem header_kept {before after : Memory} {alloc : Nat × Nat}
    (header : before.read (alloc.1 - 8) 8 = alloc.2)
    (agree : before.AgreeOn after (alloc.1 - 8) (alloc.2 + 8)) :
    after.read (alloc.1 - 8) 8 = alloc.2 := by
  rw [Memory.read_congr (agree.mono (le_refl _) (by omega))]
  exact header

/-! ### Allocation -/

theorem ascending_leftover {front back : List Span} {block : Span} {allocSize : Nat}
    (disjoint : (front ++ block :: back).Pairwise Span.Disjoint)
    (fit : allocSize ≤ block.length) (ascending : Ascending (front ++ block :: back)) :
    Ascending (front ++ (leftover block allocSize ++ back)) := by
  unfold leftover
  split_ifs with exact_fit
  · exact ascending.sublist (by simp)
  · simp only [Ascending, List.pairwise_append, List.pairwise_cons, List.mem_cons,
      forall_eq_or_imp, List.cons_append, List.nil_append] at ascending disjoint ⊢
    obtain ⟨inFront, ⟨behind, inBack⟩, cross⟩ := ascending
    obtain ⟨-, ⟨apart, -⟩, -⟩ := disjoint
    refine ⟨inFront, ⟨?_, inBack⟩, fun other member => ⟨?_, (cross other member).2⟩⟩
    · intro other member
      have later := behind other member
      have separate := apart other member
      simp only [Span.Disjoint, Span.stop] at separate
      omega
    · have earlier := (cross other member).1
      omega

/-- A request that is served from `block`, the first one that fits: the leftover takes the place of
the block in the list and the rest of it becomes the new allocation. -/
theorem malloc_fit {front back : List Span} {block : Span}
    (inv : HeapInv heapStart state (front ++ block :: back) lost) {size : Nat}
    (size_le : size ≤ kernelHeapSize)
    (skip : ∀ other ∈ front, other.length < size + kernelMallocHeaderSize)
    (fit : size + kernelMallocHeaderSize ≤ block.length)
    (room : block.length = size + kernelMallocHeaderSize ∨
      size + kernelMallocHeaderSize + freeHeaderSize ≤ block.length) :
    ∃ heap, (∀ fuel, front.length < fuel →
        kmalloc fuel state.heap size = some (heap, block.start + 8)) ∧
      HeapInv heapStart ⟨heap, (block.start + 8, size) :: state.live⟩
        (front ++ (leftover block (size + kernelMallocHeaderSize) ++ back)) lost ∧
      ∀ alloc ∈ state.live,
        state.heap.memory.AgreeOn heap.memory (alloc.1 - 8) (alloc.2 + 8) := by
  have small : size + kernelMallocHeaderSize < wordSize := by
    have : kernelHeapSize + kernelMallocHeaderSize < wordSize := by decide
    omega
  obtain ⟨pointer, list, header, frame⟩ := kmallocFit_spec inv.list small fit room
  have run := fun fuel enough => @kmalloc_eq_fit _ _ _ _ _ fuel inv.list small skip fit enough
  obtain ⟨heap, ptr, result⟩ : ∃ heap ptr, kmallocFit state.heap size block.start
      (size + kernelMallocHeaderSize) = (heap, ptr) := ⟨_, _, rfl⟩
  rw [result] at pointer list header frame
  have kept : ∀ alloc ∈ state.live,
      state.heap.memory.AgreeOn heap.memory (alloc.1 - 8) (alloc.2 + 8) := by
    intro alloc held
    have apart := inv.free_disjoint_live (by simp : block ∈ _) held
    exact frame _ _ (fun other member => inv.live_avoids held other (mem_insert_middle member))
      apart.symm
  refine ⟨heap, fun fuel enough => ?_, ⟨inv.range, list, ?_, ?_, inv.lost_room⟩, kept⟩
  · rw [run fuel enough, result, show ptr = block.start + 8 from pointer]
  · have cut : Span.Tiles heapStart (heapStart + kernelHeapSize)
        (⟨block.start, size + 8⟩ :: (leftover block (size + 8) ++
          (front ++ (back ++ (state.live.map allocSpan ++ lost))))) := by
      have here : Span.Tiles heapStart (heapStart + kernelHeapSize)
          (block :: (front ++ (back ++ (state.live.map allocSpan ++ lost)))) := by
        refine inv.tiles.perm (List.perm_iff_count.mpr fun span => ?_)
        simp only [List.count_append, List.count_cons]
        omega
      simp only [kernelMallocHeaderSize] at room
      rcases room with exact_fit | split
      · rw [leftover_exact exact_fit, ← exact_fit]
        exact here
      · rw [leftover_split split]
        simp only [freeHeaderSize] at split
        exact here.split (by omega) (by omega)
    refine cut.perm (List.perm_iff_count.mpr fun span => ?_)
    simp only [kernelMallocHeaderSize, List.map_cons, allocSpan, Nat.add_sub_cancel,
      List.count_append, List.count_cons, List.cons_append]
    omega
  · intro alloc held
    rcases List.mem_cons.mp held with rfl | old
    · exact header
    · exact header_kept (inv.headers alloc old) (kept alloc old)

/-- A request is refused on a full heap or served from the first block that fits. -/
theorem malloc_cases (inv : HeapInv heapStart state free lost)
    {size fuel ptr : Nat} {heap : Heap} (size_le : size ≤ kernelHeapSize)
    (served : ServesWhole free size)
    (run : kmalloc fuel state.heap size = some (heap, ptr)) :
    (free = [] ∧ heap = state.heap ∧ ptr = 0) ∨
      ∃ front block back, free = front ++ block :: back ∧
        size + kernelMallocHeaderSize ≤ block.length ∧ ptr ≠ 0 ∧
        HeapInv heapStart ⟨heap, (ptr, size) :: state.live⟩
          (front ++ (leftover block (size + kernelMallocHeaderSize) ++ back)) lost ∧
        ∀ alloc ∈ state.live,
          state.heap.memory.AgreeOn heap.memory (alloc.1 - 8) (alloc.2 + 8) := by
  rcases served with rfl | ⟨block, first_fit, room⟩
  · have empty : state.heap.firstFree = 0 := inv.list.first
    have returned : (state.heap, 0) = (heap, ptr) := by
      simpa [kmalloc, empty] using run
    obtain ⟨rfl, rfl⟩ := Prod.mk.inj returned
    exact Or.inl ⟨rfl, rfl, rfl⟩
  · obtain ⟨fit, front, back, rfl, skip⟩ := List.find?_eq_some_iff_append.mp first_fit
    have fit : size + kernelMallocHeaderSize ≤ block.length := by simpa using fit
    have skip : ∀ other ∈ front, other.length < size + kernelMallocHeaderSize := by
      intro other member
      simpa using skip other member
    obtain ⟨result, result_run, kept, frame⟩ := inv.malloc_fit size_le skip fit room
    have same := kmalloc_mono run (front.length + 1)
    rw [result_run _ (by omega)] at same
    obtain ⟨rfl, rfl⟩ := Prod.mk.inj (Option.some.inj same)
    exact Or.inr ⟨front, block, back, rfl, fit, Nat.succ_ne_zero _, kept, frame⟩

/-- A request that is refused on a full heap or served without damage. -/
theorem malloc (inv : HeapInv heapStart state free lost)
    {size fuel ptr : Nat} {heap : Heap} (size_le : size ≤ kernelHeapSize)
    (served : ServesWhole free size)
    (run : kmalloc fuel state.heap size = some (heap, ptr)) :
    ∃ free', HeapInv heapStart
        ⟨heap, if ptr = 0 then state.live else (ptr, size) :: state.live⟩ free' lost ∧
      (Ascending free → Ascending free') ∧
      ∀ alloc ∈ state.live,
        state.heap.memory.AgreeOn heap.memory (alloc.1 - 8) (alloc.2 + 8) := by
  rcases inv.malloc_cases size_le served run with
    ⟨rfl, rfl, rfl⟩ | ⟨front, block, back, rfl, fit, nonnull, kept, frame⟩
  · exact ⟨[], inv, id, fun _ _ => .refl _ _ _⟩
  · refine ⟨_, ?_, ascending_leftover inv.list.disjoint fit, frame⟩
    rw [if_neg nonnull]
    exact kept

/-! ### Release -/

private theorem tiles_freed (inv : HeapInv heapStart state free lost) {alloc : Nat × Nat}
    (held : alloc ∈ state.live) :
    Span.Tiles heapStart (heapStart + kernelHeapSize)
      (allocSpan alloc :: (free ++ ((state.live.erase alloc).map allocSpan ++ lost))) := by
  have first := ((List.perm_cons_erase held).map allocSpan).append_right lost
  exact inv.tiles.perm ((first.append_left free).trans List.perm_middle)

/-- No two parts of the tiling are as short as the gap that `kfree` takes for contiguity. -/
private theorem parts_long (inv : HeapInv heapStart state free lost) (alloc : Nat × Nat) :
    ∀ span ∈ allocSpan alloc :: (free ++ ((state.live.erase alloc).map allocSpan ++ lost)),
      2 ≤ span.length := by
  intro span member
  simp only [List.mem_cons, List.mem_append, List.mem_map] at member
  rcases member with rfl | inFree | ⟨other, -, rfl⟩ | inLost
  · simp [allocSpan]
  · have room := inv.list.room span inFree
    simp only [freeHeaderSize] at room
    omega
  · simp [allocSpan]
  · have room := inv.lost_room span inLost
    omega

theorem freed_spec (inv : HeapInv heapStart state free lost) {ptr size : Nat}
    (held : (ptr, size) ∈ state.live) :
    ptr = (allocSpan (ptr, size)).start + 8 ∧
      (0 < (allocSpan (ptr, size)).start ∧ (allocSpan (ptr, size)).stop < wordSize) ∧
      state.heap.memory.read (allocSpan (ptr, size)).start 8 + kernelMallocHeaderSize =
        (allocSpan (ptr, size)).length ∧
      (∀ other ∈ free, (allocSpan (ptr, size)).Disjoint other) ∧
      ∀ other ∈ free, other.stop + 1 ≠ (allocSpan (ptr, size)).start ∧
        (allocSpan (ptr, size)).stop + 1 ≠ other.start := by
  have tiles := tiles_freed inv held
  have long := parts_long inv (ptr, size)
  have freed_inside := tiles.inside _ List.mem_cons_self
  have range := inv.range
  simp only [allocSpan, Span.stop] at freed_inside
  refine ⟨by simp only [allocSpan]; omega, by simp only [allocSpan, Span.stop]; omega, ?_,
    fun other member => tiles.disjoint_of_cons (List.mem_append_left _ member), ?_⟩
  · rw [show state.heap.memory.read (allocSpan (ptr, size)).start 8 = size from
      inv.headers _ held]
    rfl
  · intro other member
    have inside := List.mem_cons_of_mem (allocSpan (ptr, size))
      (List.mem_append_left ((state.live.erase (ptr, size)).map allocSpan ++ lost) member)
    exact ⟨tiles.stop_succ_ne_start long inside List.mem_cons_self,
      tiles.stop_succ_ne_start long List.mem_cons_self inside⟩

/-- Once the list has taken up the freed block, the other allocations are as before. -/
theorem of_released (inv : HeapInv heapStart state free lost) {ptr size : Nat}
    (held : (ptr, size) ∈ state.live) {after : Heap} {new : List Span}
    (released : Released state.heap after free (allocSpan (ptr, size)) new) :
    HeapInv heapStart ⟨after, state.live.erase (ptr, size)⟩ new lost ∧
      ∀ alloc ∈ state.live.erase (ptr, size),
        state.heap.memory.AgreeOn after.memory (alloc.1 - 8) (alloc.2 + 8) := by
  have tiles := tiles_freed inv held
  have kept : ∀ alloc ∈ state.live.erase (ptr, size),
      state.heap.memory.AgreeOn after.memory (alloc.1 - 8) (alloc.2 + 8) := by
    intro alloc member
    have inside : allocSpan alloc ∈ (state.live.erase (ptr, size)).map allocSpan ++ lost :=
      List.mem_append_left _ (List.mem_map_of_mem member)
    refine released.frame (allocSpan alloc) (by simp [allocSpan]) fun other inOther => ?_
    rcases List.mem_cons.mp inOther with rfl | inFree
    · exact (tiles.disjoint_of_cons (List.mem_append_right _ inside)).symm
    · exact (inv.free_disjoint_live inFree (List.mem_of_mem_erase member)).symm
  refine ⟨⟨inv.range, released.list, released.inserted.tiles tiles, ?_, inv.lost_room⟩, kept⟩
  exact fun alloc member =>
    header_kept (inv.headers alloc (List.mem_of_mem_erase member)) (kept alloc member)

/-- A block that goes back into a nonempty list leaves every other allocation alone. -/
theorem release_listed (inv : HeapInv heapStart state free lost) {ptr size : Nat}
    (held : (ptr, size) ∈ state.live)
    (returns : ReturnsInPlace state.heap.memory free (allocSpan (ptr, size)) ∨
      free.length = 1 ∧ freeHeaderSize ≤ size + kernelMallocHeaderSize) :
    ∃ after free', (∀ fuel, free.length < fuel → kfree fuel state.heap ptr = some after) ∧
      HeapInv heapStart ⟨after, state.live.erase (ptr, size)⟩ free' lost ∧
      (ReturnsInPlace state.heap.memory free (allocSpan (ptr, size)) →
        Ascending free → Ascending free') ∧
      ∀ alloc ∈ state.live.erase (ptr, size),
        state.heap.memory.AgreeOn after.memory (alloc.1 - 8) (alloc.2 + 8) := by
  obtain ⟨ptr_eq, bounds, header, apart, gaps⟩ := inv.freed_spec held
  obtain ⟨after, new, run, released, ordered⟩ :=
    kfree_spec inv.list bounds header apart gaps returns
  obtain ⟨kept, frame⟩ := inv.of_released held released
  rw [← ptr_eq] at run
  exact ⟨after, new, run, kept, ordered, frame⟩

/-- On a full heap the freed block is not recorded anywhere. -/
theorem release_full (inv : HeapInv heapStart state [] lost) {ptr size : Nat}
    (held : (ptr, size) ∈ state.live) (fuel : Nat) :
    kfree fuel state.heap ptr = some state.heap ∧
      HeapInv heapStart ⟨state.heap, state.live.erase (ptr, size)⟩ []
        (allocSpan (ptr, size) :: lost) := by
  have inside := inv.live_inside held
  have range := inv.range
  have ptr_ne : ptr ≠ 0 := by omega
  have empty : state.heap.firstFree = 0 := inv.list.first
  refine ⟨by simp [kfree, empty, ptr_ne], inv.range, inv.list, ?_, ?_, ?_⟩
  · refine (tiles_freed inv held).perm (List.perm_iff_count.mpr fun span => ?_)
    simp only [List.count_append, List.count_cons, List.nil_append]
    omega
  · exact fun alloc member => inv.headers alloc (List.mem_of_mem_erase member)
  · intro span member
    rcases List.mem_cons.mp member with rfl | old
    · simp [allocSpan]
    · exact inv.lost_room span old

theorem not_returnsInPlace_nil (memory : Memory) (freed : Span) :
    ¬ReturnsInPlace memory [] freed := by
  rintro (⟨first, rest, same, -⟩ | ⟨-, ⟨block, member, -⟩ | ⟨several, -⟩⟩)
  · cases same
  · cases member
  · simp at several

/-- Either the list takes the block back or, on a full heap, the block is lost. -/
theorem release (inv : HeapInv heapStart state free lost)
    {ptr size fuel : Nat} {after : Heap} (held : (ptr, size) ∈ state.live)
    (harmless : free = [] ∨
      ReturnsInPlace state.heap.memory free (allocSpan (ptr, size)) ∨
        free.length = 1 ∧ freeHeaderSize ≤ size + kernelMallocHeaderSize)
    (run : kfree fuel state.heap ptr = some after) :
    ∃ free' lost', HeapInv heapStart ⟨after, state.live.erase (ptr, size)⟩ free' lost' ∧
      (ReturnsInPlace state.heap.memory free (allocSpan (ptr, size)) →
        lost' = lost ∧ (Ascending free → Ascending free')) ∧
      ∀ alloc ∈ state.live.erase (ptr, size),
        state.heap.memory.AgreeOn after.memory (alloc.1 - 8) (alloc.2 + 8) := by
  rcases harmless with rfl | returns
  · obtain ⟨same, kept⟩ := inv.release_full held fuel
    obtain rfl := Option.some.inj (same.symm.trans run)
    exact ⟨[], _, kept, fun inPlace => absurd inPlace (not_returnsInPlace_nil _ _),
      fun alloc _ => .refl _ _ _⟩
  · obtain ⟨result, free', result_run, kept, ordered, frame⟩ := inv.release_listed held returns
    have same := kfree_mono run (free.length + 1)
    rw [result_run _ (by omega)] at same
    obtain rfl := Option.some.inj same
    exact ⟨free', lost, kept, fun inPlace => ⟨rfl, ordered inPlace⟩, frame⟩

/-! ### Client writes -/

/-- Memory that agrees on the free headers and the size words keeps the invariant. -/
theorem congr (inv : HeapInv heapStart state free lost) {memory : Memory}
    (headers : ∀ block ∈ free, state.heap.memory.AgreeOn memory block.start 24)
    (sizes : ∀ alloc ∈ state.live, state.heap.memory.AgreeOn memory (alloc.1 - 8) 8) :
    HeapInv heapStart ⟨{ state.heap with memory }, state.live⟩ free lost := by
  refine ⟨inv.range, ⟨inv.list.first, inv.list.linked.congr inv.list.fits headers, inv.list.room,
    inv.list.disjoint, inv.list.bounds⟩, inv.tiles, ?_, inv.lost_room⟩
  intro alloc member
  have header := inv.headers alloc member
  rw [← Memory.read_congr (sizes alloc member)] at header
  exact header

theorem write (inv : HeapInv heapStart state free lost) {ptr size offset : Nat} {byte : UInt8}
    (held : (ptr, size) ∈ state.live) (inside : offset < size) :
    HeapInv heapStart
      ⟨{ state.heap with memory := state.heap.memory.writeByte (ptr + offset) byte },
        state.live⟩ free lost := by
  have ptr_inside := inv.live_inside held
  have range := inv.range
  refine inv.congr (fun block member => ?_) (fun alloc member => ?_)
  · have apart := inv.live_avoids held block member
    simp only [AvoidsHeader] at apart
    exact Memory.agreeOn_writeByte _ (by omega)
  · have apart : alloc = (ptr, size) ∨ (allocSpan alloc).Disjoint (allocSpan (ptr, size)) := by
      by_cases same : alloc = (ptr, size)
      · exact Or.inl same
      · exact Or.inr ((List.pairwise_map.mp inv.live_disjoint).forall member held same)
    refine Memory.agreeOn_writeByte _ ?_
    rcases apart with rfl | apart
    · omega
    · simp only [allocSpan, Span.Disjoint, Span.stop] at apart
      omega

end HeapInv

end PellOs

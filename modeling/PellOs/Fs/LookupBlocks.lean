import PellOs.Fs.LookupHeap
import PellOs.Kmalloc.Runs

/-!
# The kernel heap serves lookups

A heap whose free memory is one block hands out the two blocks of a component one behind the other
from its front.  They are freed in the opposite order, and each merges with the free block behind
it, so the heap is as it was before the turn.
-/

namespace PellOs

namespace HeapInv

variable {heapStart : Nat} {heap : Heap} {live : List (Nat × Nat)} {free lost : List Span}
  {rest : Span}

/-- A request is served from the front of the only free block. -/
theorem malloc_front (inv : HeapInv heapStart ⟨heap, live⟩ [rest] lost) {size : Nat}
    (fit : size + 32 ≤ rest.length) :
    ∃ after, (∀ fuel, 0 < fuel → kmalloc fuel heap size = some (after, rest.start + 8)) ∧
      HeapInv heapStart ⟨after, (rest.start + 8, size) :: live⟩
        [⟨rest.start + (size + 8), rest.length - (size + 8)⟩] lost ∧
      SameOutside rest.start rest.stop heap.memory after.memory := by
  have inside := inv.tiles.inside rest (by simp)
  have range := inv.range
  simp only [Span.stop] at inside
  have split : size + kernelMallocHeaderSize + freeHeaderSize ≤ rest.length := by
    simp only [kernelMallocHeaderSize, freeHeaderSize]
    omega
  have small : size + kernelMallocHeaderSize < wordSize := by
    simp only [kernelMallocHeaderSize]
    omega
  have fits := le_trans (Nat.le_add_right _ _) split
  obtain ⟨after, run, kept, -⟩ := @HeapInv.malloc_fit _ _ _ [] [] _ inv size (by omega) (by simp)
    fits (Or.inr split)
  rw [leftover_split split] at kept
  refine ⟨after, run, kept, fun address off => ?_⟩
  obtain ⟨-, -, -, frame⟩ := @kmallocFit_spec _ [] [] _ inv.list size small fits (Or.inr split)
  have same := (run 1 Nat.one_pos).symm.trans
    (@kmalloc_eq_fit _ [] [] _ size 1 inv.list small (by simp) fits Nat.one_pos)
  rw [Option.some.injEq] at same
  have memory := frame address 1 (by simp) (by omega) address (le_refl _) (Nat.lt_succ_self _)
  rwa [← congrArg Prod.fst same] at memory

theorem store_latest {ptr size : Nat}
    (inv : HeapInv heapStart ⟨heap, (ptr, size) :: live⟩ free lost)
    {memory : Memory} (same : SameOutside ptr (ptr + size) heap.memory memory) :
    HeapInv heapStart ⟨⟨memory, heap.firstFree⟩, (ptr, size) :: live⟩ free lost := by
  have held : (ptr, size) ∈ (ptr, size) :: live := List.mem_cons_self
  have range := inv.range
  have inside := inv.live_inside held
  refine inv.congr (fun block member => same.agreeOn ?_) fun alloc member => same.agreeOn ?_
  · have apart := inv.live_avoids held block member
    simp only [AvoidsHeader] at apart
    omega
  · rcases List.mem_cons.mp member with rfl | other
    · exact Or.inl (by omega)
    · have apart := (List.pairwise_cons.mp inv.live_disjoint).1 _ (List.mem_map_of_mem other)
      have other_inside := inv.live_inside (List.mem_cons_of_mem _ other)
      simp only [allocSpan, Span.Disjoint, Span.stop] at apart
      omega

theorem free_front {ptr size : Nat}
    (inv : HeapInv heapStart ⟨heap, (ptr, size) :: live⟩ [rest] lost)
    (adjacent : ptr + size = rest.start) :
    ∃ after, (∀ fuel, 0 < fuel → kfree fuel heap ptr = some after) ∧
      HeapInv heapStart ⟨after, live⟩ [⟨ptr - 8, size + 8 + rest.length⟩] lost ∧
      SameOutside (ptr - 8) rest.stop heap.memory after.memory := by
  have held : (ptr, size) ∈ (ptr, size) :: live := List.mem_cons_self
  obtain ⟨ptr_eq, bounds, header, apart, -⟩ := inv.freed_spec held
  have inside := inv.live_inside held
  have range := inv.range
  have touches : (allocSpan (ptr, size)).stop = rest.start := by
    simp only [allocSpan, Span.stop]
    omega
  obtain ⟨after, run, released⟩ := kfree_merges inv.list bounds header apart touches (Or.inl rfl)
  obtain ⟨kept, -⟩ := inv.of_released held released
  rw [List.erase_cons_head] at kept
  rw [← ptr_eq] at run
  refine ⟨after, run, kept, fun address off => ?_⟩
  refine released.frame ⟨address, 1⟩ Nat.one_pos (fun other member => ?_) address (le_refl _)
    (Nat.lt_succ_self _)
  simp only [List.mem_cons, List.not_mem_nil, or_false] at member
  simp only [Span.stop] at off
  rcases member with rfl | rfl
  · simp only [allocSpan, Span.Disjoint, Span.stop]
    omega
  · simp only [Span.Disjoint, Span.stop]
    omega

end HeapInv

/-- The functions of the kernel heap.  `fuel` bounds the blocks that a search goes through. -/
def kernelHeap (mapped : Nat → Bool) (fuel : Nat) : KernelHeap :=
  ⟨mapped, kmalloc (fuel + 1), kfree (fuel + 1)⟩

section Serves

variable {heapStart : Nat} {live : List (Nat × Nat)} {lost : List Span} {rest : Span}

/-- A kernel heap with one free block serves both blocks of a component and gets them back. -/
theorem kernelHeap_serves (mapped : Nat → Bool) (fuel : Nat) {heap : Heap}
    (inv : HeapInv heapStart ⟨heap, live⟩ [rest] lost) {nameSize listSize : Nat}
    (fit : nameSize + listSize + 40 ≤ rest.length) :
    (kernelHeap mapped fuel).NameServed heapStart (heapStart + kernelHeapSize)
      (fun heap => HeapInv heapStart ⟨heap, live⟩ [rest] lost) heap nameSize listSize := by
  have inside := inv.tiles.inside rest (by simp)
  have range := inv.range
  have start_pos := (inv.list.bounds rest (by simp)).1
  simp only [Span.stop] at inside
  obtain ⟨named, name_call, name_inv, name_same⟩ := @HeapInv.malloc_front _ _ _ _ _ inv nameSize
    (by omega)
  simp only [Span.stop] at name_same
  refine ⟨named, rest.start + 8, name_call _ (Nat.succ_pos fuel), by omega, by omega,
    name_same.mono (by omega) (by omega), fun memory stored => ?_⟩
  obtain ⟨listed, list_call, list_inv, list_same⟩ := @HeapInv.malloc_front _ _ _ _ _
    (name_inv.store_latest stored) listSize (by dsimp only; omega)
  simp only [Span.stop] at list_same
  refine ⟨listed, rest.start + (nameSize + 8) + 8, list_call _ (Nat.succ_pos fuel), by omega,
    by omega, by omega, list_same.mono (by omega) (by omega), list_same.agreeOn (by omega),
    fun memory stored => ?_⟩
  obtain ⟨between, list_free, between_inv, between_same⟩ :=
    (list_inv.store_latest stored).free_front (by dsimp only; omega)
  obtain ⟨after, name_free, after_inv, after_same⟩ :=
    between_inv.free_front (by dsimp only; omega)
  simp only [Span.stop] at between_same after_same
  refine ⟨between, after, list_free _ (Nat.succ_pos fuel), name_free _ (Nat.succ_pos fuel), ?_,
    (between_same.mono (by omega) (by omega)).trans (after_same.mono (by omega) (by omega))⟩
  have whole : ∀ {span : Span}, span.start = rest.start → span.length = rest.length →
      HeapInv heapStart ⟨after, live⟩ [span] lost →
        HeapInv heapStart ⟨after, live⟩ [rest] lost := by
    rintro ⟨start, length⟩ rfl rfl inv
    exact inv
  exact whole (by dsimp only; omega) (by dsimp only; omega) after_inv

/-- The kernel heap as one that serves lookups. -/
def kernelLookupHeap (mapped : Nat → Bool) (fuel heapStart : Nat) (live : List (Nat × Nat))
    (rest : Span) (lost : List Span) (range : 0 < heapStart ∧ heapStart + kernelHeapSize < wordSize)
    (room : 40 ≤ rest.length)
    (heap_mapped : ∀ address, heapStart ≤ address → address < heapStart + kernelHeapSize →
      mapped address = true) : KernelHeap.LookupHeap (kernelHeap mapped fuel) where
  low := heapStart
  high := heapStart + kernelHeapSize
  most := rest.length - 40
  Idle heap := HeapInv heapStart ⟨heap, live⟩ [rest] lost
  low_pos := range.1
  high_le := range.2.le
  mapped := heap_mapped
  serves idle fit := kernelHeap_serves mapped fuel idle (by omega)

end Serves

end PellOs

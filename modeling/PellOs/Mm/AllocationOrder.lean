import PellOs.Kmalloc.Model
import PellOs.Mm.PageOwnership

/-!
# The order in which pages are handed out

While no page is given back the taken pages are an initial segment of all pages, so every call
returns the page behind the last one.  The calls in `main` therefore leave one zeroed region for the
kernel heap.
-/

namespace PellOs

/-! ## An initial segment of taken pages -/

/-- The pages taken are the first ones. -/
def FirstTaken (mm : Mm) (taken : Nat) : Prop :=
  ∀ index, mm.pageBitmap index = if index < taken then 1 else 0

namespace FirstTaken

variable {mm : Mm} {taken : Nat}

theorem isFree_iff (first : FirstTaken mm taken) (index : Nat) :
    IsFree mm index ↔ taken ≤ index := by
  rw [IsFree, first index]
  split_ifs with low
  · simp [low]
  · simp [Nat.le_of_not_lt low]

theorem getNextFreePage_eq (first : FirstTaken mm taken) (inside : taken < mmNumOfPages) :
    getNextFreePage mm = (takePage mm taken, pageAt taken) := by
  rcases getNextFreePage_cases mm with ⟨next, _, free, before, call⟩ | ⟨all, _⟩
  · obtain rfl : next = taken := by
      have low := (first.isFree_iff next).mp free
      by_contra differ
      exact before taken (by omega) ((first.isFree_iff taken).mpr (le_refl _))
    exact call
  · exact absurd ((first.isFree_iff taken).mpr (le_refl _)) (all taken inside)

theorem getNextFreePage_full (first : FirstTaken mm taken) (full : mmNumOfPages ≤ taken) :
    getNextFreePage mm = (mm, 0) := by
  rcases getNextFreePage_cases mm with ⟨next, inside, free, _, _⟩ | ⟨_, call⟩
  · have low := (first.isFree_iff next).mp free
    omega
  · exact call

theorem takePage (first : FirstTaken mm taken) : FirstTaken (takePage mm taken) (taken + 1) := by
  intro index
  unfold PellOs.takePage
  by_cases same : index = taken
  · subst same
    simp [first index]
  · simp only [Function.update_of_ne same, first index]
    exact if_congr (by omega) rfl rfl

theorem afterCalls (first : FirstTaken mm taken) {count : Nat}
    (enough : taken + count ≤ mmNumOfPages) :
    FirstTaken (afterCalls count mm) (taken + count) ∧
      (afterCalls count mm).memory =
        mm.memory.fill (pageAt taken + virtualAddressStart) (pageSize * count) 0 := by
  induction count generalizing mm taken with
  | zero =>
      refine ⟨first, funext fun address => (Memory.fill_outside _ ?_).symm⟩
      rw [Nat.mul_zero]
      omega
  | succ count ih =>
      obtain ⟨bits, memory⟩ := ih first.takePage (by omega)
      rw [PellOs.afterCalls, first.getNextFreePage_eq (by omega)]
      refine ⟨by rwa [Nat.add_right_comm] at bits, memory.trans ?_⟩
      have next : pageAt (taken + 1) = pageAt taken + pageSize := by
        rw [pageAt, pageAt, Nat.mul_succ, Nat.add_assoc]
      have all : pageSize * (count + 1) = pageSize + pageSize * count := by
        rw [Nat.mul_succ, Nat.add_comm]
      rw [memory_takePage, next, all]
      funext address
      simp only [Memory.fill]
      split_ifs <;> first | rfl | omega

end FirstTaken

theorem pageBitmap_afterCalls {mm : Mm} {taken count : Nat}
    (first : ∀ index, mm.pageBitmap index = if index < taken then 1 else 0)
    (enough : taken + count ≤ mmNumOfPages) (index : Nat) :
    (afterCalls count mm).pageBitmap index = if index < taken + count then 1 else 0 :=
  (FirstTaken.afterCalls first enough).1 index

/-! ## Runs -/

/-- The allocator after some calls of `get_next_free_page` and none of `free_page`.  Other code may
change memory between the calls. -/
inductive Allocations : Nat → Mm → Prop
  | start (memory : Memory) : Allocations 0 ⟨memory, fun _ => 0⟩
  | call {count : Nat} {mm : Mm} (earlier : Allocations count mm) :
      Allocations (count + 1) (getNextFreePage mm).1
  | other {count : Nat} {mm : Mm} (earlier : Allocations count mm) (memory : Memory) :
      Allocations count (mm.setMemory memory)

theorem Allocations.firstTaken {count : Nat} {mm : Mm} (run : Allocations count mm) :
    FirstTaken mm (min count mmNumOfPages) := by
  induction run with
  | start memory => exact fun index => by rw [Nat.zero_min, if_neg (Nat.not_lt_zero index)]
  | @call count mm _ ih =>
      by_cases inside : count < mmNumOfPages
      · rw [Nat.min_eq_left (Nat.le_of_lt inside)] at ih
        rw [ih.getNextFreePage_eq inside, Nat.min_eq_left inside]
        exact ih.takePage
      · rw [Nat.min_eq_right (by omega)] at ih ⊢
        rwa [ih.getNextFreePage_full (le_refl _)]
  | other _ memory ih => exact ih

/-- The call returns the page behind the last one and clears its bytes, or returns zero and changes
nothing when all pages are taken. -/
structure ReturnsInOrder (count : Nat) (mm : Mm) : Prop where
  result : (getNextFreePage mm).2 =
    if count < mmNumOfPages then lowMemory + count * pageSize else 0
  memory : ∀ address, (getNextFreePage mm).1.memory address =
    if count < mmNumOfPages ∧ lowMemory + count * pageSize + virtualAddressStart ≤ address ∧
        address < lowMemory + count * pageSize + virtualAddressStart + pageSize then 0
    else mm.memory address

theorem Allocations.returnsInOrder {count : Nat} {mm : Mm} (run : Allocations count mm) :
    ReturnsInOrder count mm := by
  have first := run.firstTaken
  by_cases inside : count < mmNumOfPages
  · rw [Nat.min_eq_left (Nat.le_of_lt inside)] at first
    have page : lowMemory + count * pageSize = pageAt count := by rw [pageAt, Nat.mul_comm]
    constructor
    · rw [first.getNextFreePage_eq inside, if_pos inside, page]
    · intro address
      rw [first.getNextFreePage_eq inside, memory_takePage, Memory.fill, page]
      exact if_congr (by rw [and_iff_right inside]) rfl rfl
  · rw [Nat.min_eq_right (by omega)] at first
    rw [Nat.not_lt] at inside
    constructor
    · rw [first.getNextFreePage_full (le_refl _), if_neg (by omega)]
    · intro address
      rw [first.getNextFreePage_full (le_refl _), if_neg (by omega)]

/-! ## The kernel heap -/

/-- The allocation of the kernel heap in `main`, with `heap_ptr`: of the pages that the calls return
only the first is kept. -/
def mainHeap (mm : Mm) : Mm × Nat :=
  let first := getNextFreePage mm
  (afterCalls (kernelHeapSizePages - 1) first.1, (first.2 + virtualAddressStart) % wordSize)

private theorem afterCalls_succ (count : Nat) (mm : Mm) :
    afterCalls (count + 1) mm = afterCalls count (getNextFreePage mm).1 := rfl

/-- The heap is a region of `KERNEL_HEAP_SIZE` zero bytes, and nothing else changed. -/
structure HeapZeroed (before after : Memory) (heapPtr : Nat) : Prop where
  start : heapPtr = lowMemory + virtualAddressStart
  memory : ∀ address, after address =
    if heapPtr ≤ address ∧ address < heapPtr + kernelHeapSize then 0 else before address

theorem mainHeap_zeroed (memory : Memory) :
    HeapZeroed memory (mainHeap ⟨memory, fun _ => 0⟩).1.memory
      (mainHeap ⟨memory, fun _ => 0⟩).2 := by
  have first : FirstTaken ⟨memory, fun _ => 0⟩ 0 := fun index =>
      (if_neg (Nat.not_lt_zero index)).symm
  have filled := (@FirstTaken.afterCalls _ _ first kernelHeapSizePages (by decide)).2
  rw [← Nat.sub_add_cancel (show 1 ≤ kernelHeapSizePages by decide), afterCalls_succ,
    Nat.sub_add_cancel (show 1 ≤ kernelHeapSizePages by decide)] at filled
  have pointer : (mainHeap ⟨memory, fun _ => 0⟩).2 = pageAt 0 + virtualAddressStart := by
    simp only [mainHeap, first.getNextFreePage_eq (by decide : 0 < mmNumOfPages)]
    exact Nat.mod_eq_of_lt (by decide)
  have region : (mainHeap ⟨memory, fun _ => 0⟩).1.memory =
      memory.fill (pageAt 0 + virtualAddressStart) kernelHeapSize 0 := by
    simp only [mainHeap, filled, kernelHeapSize, Nat.mul_comm]
  refine ⟨pointer, fun address => ?_⟩
  rw [region, pointer, Memory.fill]

/-- Calls of `get_next_free_page` return the pages in order and clear each; the heap allocated in
`main` is one zeroed region, and no later call returns a page of it. -/
theorem pages_in_order {count : Nat} {mm : Mm} (run : Allocations count mm) :
    ReturnsInOrder count mm ∧
      (∀ memory, HeapZeroed memory (mainHeap ⟨memory, fun _ => 0⟩).1.memory
        (mainHeap ⟨memory, fun _ => 0⟩).2) ∧
      (kernelHeapSizePages ≤ count → (getNextFreePage mm).2 ≠ 0 →
        lowMemory + kernelHeapSize ≤ (getNextFreePage mm).2) := by
  have order := run.returnsInOrder
  refine ⟨order, mainHeap_zeroed, fun heap_taken taken => ?_⟩
  rw [order.result] at taken ⊢
  split_ifs at taken ⊢ with inside
  · have size : kernelHeapSize = kernelHeapSizePages * pageSize := rfl
    rw [size]
    exact Nat.add_le_add_left (Nat.mul_le_mul_right _ heap_taken) _
  · exact absurd rfl taken

theorem Allocations.afterCalls {taken : Nat} {mm : Mm} (earlier : Allocations taken mm)
    (count : Nat) : Allocations (taken + count) (afterCalls count mm) := by
  induction count generalizing taken mm with
  | zero => exact earlier
  | succ count ih =>
      rw [afterCalls_succ, ← Nat.add_assoc, Nat.add_right_comm]
      exact ih earlier.call

/-- The call behind those of `main`. -/
theorem pages_in_order_behind_heap :
    ∃ mm, Allocations kernelHeapSizePages mm ∧ ReturnsInOrder kernelHeapSizePages mm ∧
      (getNextFreePage mm).2 ≠ 0 ∧ lowMemory + kernelHeapSize ≤ (getNextFreePage mm).2 := by
  have run := (Allocations.start fun _ => 1).afterCalls kernelHeapSizePages
  rw [Nat.zero_add] at run
  obtain ⟨order, -, behind⟩ := pages_in_order run
  have taken :
      (getNextFreePage (PellOs.afterCalls kernelHeapSizePages ⟨fun _ => 1, fun _ => 0⟩)).2 ≠
      0 := by
    rw [order.result]
    decide
  exact ⟨_, run, order, taken, behind (le_refl _) taken⟩

end PellOs

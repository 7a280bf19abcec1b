import PellOs.Kmalloc.ClientSafety

/-!
# First fit

On a well-formed list `kmalloc` takes the first block that fits, as the abstract search over the
list of blocks does.  The same search decides what the code does at its limits: without a fitting
block it runs past the end of the list, and a request at the top of the range is rounded to a few
bytes. -/

namespace PellOs

open FreeMemHeader

/-! ## The abstract search -/

/-- The first block with `allocSize` bytes, and the blocks left once they are taken from its
start. -/
def firstFit (allocSize : Nat) : List Span → Option (Span × List Span)
  | [] => none
  | block :: rest =>
      if allocSize ≤ block.length then
        some (block, leftover block allocSize ++ rest)
      else
        (firstFit allocSize rest).map fun (taken, left) => (taken, block :: left)

theorem firstFit_eq_some {allocSize : Nat} {free left : List Span} {block : Span}
    (taken : firstFit allocSize free = some (block, left)) :
    ∃ front back, free = front ++ block :: back ∧ (∀ other ∈ front, other.length < allocSize) ∧
      allocSize ≤ block.length ∧ left = front ++ (leftover block allocSize ++ back) := by
  induction free generalizing left with
  | nil => cases taken
  | cons first rest ih =>
      rw [firstFit] at taken
      split_ifs at taken with fit
      · obtain ⟨rfl, rfl⟩ := Prod.mk.inj (Option.some.inj taken)
        exact ⟨[], rest, rfl, fun other member => absurd member List.not_mem_nil, fit, rfl⟩
      · obtain ⟨⟨found, remaining⟩, later, same⟩ := Option.map_eq_some_iff.mp taken
        obtain ⟨rfl, rfl⟩ := Prod.mk.inj same
        obtain ⟨front, back, rfl, small, fits, rfl⟩ := ih later
        refine ⟨first :: front, back, rfl, ?_, fits, rfl⟩
        intro other member
        rcases List.mem_cons.mp member with rfl | inside
        · exact not_le.mp fit
        · exact small other inside

theorem firstFit_isSome_iff {allocSize : Nat} {free : List Span} :
    (firstFit allocSize free).isSome ↔ ∃ block ∈ free, allocSize ≤ block.length := by
  induction free with
  | nil => simp [firstFit]
  | cons first rest ih =>
      rw [firstFit]
      split_ifs with fit
      · simp [fit]
      · rw [Option.isSome_map, ih]
        simp [fit]

/-! ## Refinement -/

section Refinement

variable {heap : Heap} {free left : List Span} {block : Span} {size : Nat}

/-- `kmalloc` takes the block that first fit takes and leaves the list that first fit leaves.  Apart
from headers of free blocks only bytes of the block change. -/
theorem kmalloc_refines_firstFit (list : FreeList heap free) (ascending : Ascending free)
    (small : size + kernelMallocHeaderSize < wordSize)
    (taken : firstFit (size + kernelMallocHeaderSize) free = some (block, left))
    (room : block.length = size + kernelMallocHeaderSize ∨
      size + kernelMallocHeaderSize + freeHeaderSize ≤ block.length) :
    ∃ after, (∀ fuel, free.length ≤ fuel →
        kmalloc fuel heap size = some (after, block.start + 8)) ∧
      FreeList after left ∧ Ascending left ∧
      ∀ address, (∀ other ∈ free, address < other.start ∨ other.start + freeHeaderSize ≤ address) →
        address < block.start ∨ block.stop ≤ address →
          after.memory address = heap.memory address := by
  obtain ⟨front, back, rfl, skip, fit, rfl⟩ := firstFit_eq_some taken
  obtain ⟨pointer, kept, _, frame⟩ := kmallocFit_spec list small fit room
  refine ⟨(kmallocFit heap size block.start (size + kernelMallocHeaderSize)).1, ?_, kept,
    HeapInv.ascending_leftover list.disjoint fit ascending, ?_⟩
  · intro fuel enough
    rw [List.length_append, List.length_cons] at enough
    rw [kmalloc_eq_fit list small skip fit (by omega), ← pointer]
  · intro address away outside
    refine frame address 1 ?_ ?_ address (le_refl _) (Nat.lt_succ_self _)
    · intro other member
      have avoids := away other (mem_insert_middle member)
      simp only [freeHeaderSize] at avoids
      simp only [AvoidsHeader]
      omega
    · omega

end Refinement

private theorem bootHeap_list :
    FreeList bootHeap.heap [⟨kernelHeapStart, kernelHeapSize⟩] :=
  (HeapInv.initial (fun _ => 0) kernelHeapStart_range).list

/-- Sixteen bytes of the heap after boot. -/
theorem kmalloc_refines_firstFit_after_boot :
    ∃ after, (∀ fuel, 1 ≤ fuel →
        kmalloc fuel bootHeap.heap 16 = some (after, kernelHeapStart + 8)) ∧
      FreeList after [⟨kernelHeapStart + 24, kernelHeapSize - 24⟩] ∧
      Ascending [⟨kernelHeapStart + 24, kernelHeapSize - 24⟩] ∧
      ∀ address, (∀ other ∈ [Span.mk kernelHeapStart kernelHeapSize],
          address < other.start ∨ other.start + freeHeaderSize ≤ address) →
        address < kernelHeapStart ∨
          (Span.mk kernelHeapStart kernelHeapSize).stop ≤ address →
          after.memory address = bootHeap.heap.memory address :=
  @kmalloc_refines_firstFit _ _ _ ⟨kernelHeapStart, kernelHeapSize⟩ 16 bootHeap_list
    (List.pairwise_singleton _ _) (by decide) (by decide) (by decide)

/-! ## Requests that no block fits -/

/-- The search of `kmalloc` with the blocks whose headers it reads. -/
def kmallocSearchTraced (heap : Heap) (size allocSize : Nat) :
    Nat → Nat → List Nat × Option (Heap × Nat)
  | 0, _ => ([], none)
  | fuel + 1, block =>
      if allocSize ≤ sizeAt heap.memory block then
        ([block], some (kmallocFit heap size block allocSize))
      else
        let next := nextAt heap.memory block
        if next ≠ endOfHeap ∨ next ≠ startOfHeap then
          let (reads, result) := kmallocSearchTraced heap size allocSize fuel next
          (block :: reads, result)
        else
          ([block], some (heap, 0))

theorem kmallocSearchTraced_snd (heap : Heap) (size allocSize fuel block : Nat) :
    (kmallocSearchTraced heap size allocSize fuel block).2 =
      kmallocSearch heap size allocSize fuel block := by
  induction fuel generalizing block with
  | zero => rfl
  | succ fuel ih =>
      rw [kmallocSearchTraced, kmallocSearch]
      dsimp only
      split_ifs with fit more
      · rfl
      · exact ih _
      · rfl

/-- `kmalloc` with the blocks whose headers it reads. -/
def kmallocTraced (fuel : Nat) (heap : Heap) (size : Nat) : List Nat × Option (Heap × Nat) :=
  let allocSize := (size + kernelMallocHeaderSize) % wordSize
  if heap.firstFree = 0 then
    ([], some (heap, 0))
  else
    kmallocSearchTraced heap size allocSize fuel heap.firstFree

theorem kmallocTraced_snd (fuel : Nat) (heap : Heap) (size : Nat) :
    (kmallocTraced fuel heap size).2 = kmalloc fuel heap size := by
  rw [kmallocTraced, kmalloc]
  split_ifs with empty
  · rfl
  · exact kmallocSearchTraced_snd _ _ _ _ _

/-- `kmalloc` returns zero, leaves the heap alone and reads headers of free blocks only. -/
structure ReportsExhaustion (heap : Heap) (free : List Span) (size : Nat) : Prop where
  returns : ∃ fuel, (kmallocTraced fuel heap size).2 = some (heap, 0)
  reads : ∀ fuel, ∀ block ∈ (kmallocTraced fuel heap size).1, ∃ span ∈ free, span.start = block

/-- Without a fitting block the search takes the terminator for a block. -/
theorem endOfHeap_mem_reads {heap : Heap} {prev size allocSize : Nat} {free : List Span}
    (linked : Linked heap.memory prev free endOfHeap)
    (none_fits : ∀ block ∈ free, block.length < allocSize) :
    endOfHeap ∈ (kmallocSearchTraced heap size allocSize (free.length + 1)
      (headStart free endOfHeap)).1 := by
  induction free generalizing prev with
  | nil =>
      rw [headStart_nil, List.length_nil, kmallocSearchTraced]
      dsimp only
      split_ifs
      · exact List.mem_cons_self
      · exact List.mem_cons_self
      · exact List.mem_cons_self
  | cons block rest ih =>
      obtain ⟨node, later⟩ := linked
      have small := none_fits block List.mem_cons_self
      have more : headStart rest endOfHeap ≠ endOfHeap ∨
          headStart rest endOfHeap ≠ startOfHeap := by
        rw [← not_and_or]
        rintro ⟨is_end, is_start⟩
        rw [is_end] at is_start
        exact absurd is_start (by decide)
      rw [headStart_cons, List.length_cons, kmallocSearchTraced, node.size_eq, node.next_eq,
        if_neg (not_le.mpr small)]
      dsimp only
      rw [if_pos more]
      exact List.mem_cons_of_mem _ (ih later fun other member =>
        none_fits other (List.mem_cons_of_mem _ member))

section Exhaustion

variable {heap : Heap} {free : List Span} {size : Nat}

/-- A list with blocks that are all too small is searched past its end. -/
theorem not_reportsExhaustion (list : FreeList heap free)
    (small : size + kernelMallocHeaderSize < wordSize)
    (none_fits : ∀ block ∈ free, block.length < size + kernelMallocHeaderSize)
    (nonempty : free ≠ []) : ¬ ReportsExhaustion heap free size := by
  obtain ⟨first, rest, rfl⟩ := List.exists_cons_of_ne_nil nonempty
  have head : heap.firstFree = first.start := list.first
  have first_ne : heap.firstFree ≠ 0 := by
    rw [head]
    exact list.start_pos List.mem_cons_self
  intro reports
  obtain ⟨block, member, at_end⟩ := reports.reads ((first :: rest).length + 1) endOfHeap (by
    rw [kmallocTraced, if_neg first_ne, Nat.mod_eq_of_lt small, head]
    exact endOfHeap_mem_reads list.linked none_fits)
  exact list.start_ne_end member at_end

/-- When no block fits, `kmalloc` reports it exactly if there is no block at all. -/
theorem kmalloc_reports_exhaustion_iff (list : FreeList heap free)
    (small : size + kernelMallocHeaderSize < wordSize)
    (none_fits : ∀ block ∈ free, block.length < size + kernelMallocHeaderSize) :
    ReportsExhaustion heap free size ↔ free = [] := by
  constructor
  · intro reports
    by_contra nonempty
    exact not_reportsExhaustion list small none_fits nonempty reports
  · rintro rfl
    have empty : heap.firstFree = 0 := list.first
    have call : ∀ fuel, kmallocTraced fuel heap size = ([], some (heap, 0)) :=
      fun fuel => if_pos empty
    refine ⟨⟨0, by rw [call]⟩, fun fuel block member => ?_⟩
    rw [call] at member
    cases member

end Exhaustion

/-- A request for the whole heap after boot. -/
theorem kmalloc_reports_exhaustion_iff_after_boot :
    ReportsExhaustion bootHeap.heap [⟨kernelHeapStart, kernelHeapSize⟩] kernelHeapSize ↔
      [Span.mk kernelHeapStart kernelHeapSize] = [] :=
  kmalloc_reports_exhaustion_iff bootHeap_list (by decide) (by decide)

/-- A request for the whole heap after boot reads the header of the terminator. -/
theorem kmalloc_searches_past_end :
    ¬ ReportsExhaustion bootHeap.heap [⟨kernelHeapStart, kernelHeapSize⟩] kernelHeapSize :=
  not_reportsExhaustion bootHeap_list (by decide) (by decide) (by decide)

/-! ## Requests at the top of the range -/

/-- The pointer returned by `kmalloc` stands behind the header of a free block that covers the
request, and the header gives `kfree` the extent of the allocation. -/
structure CoversRequest (free : List Span) (after : Heap) (size ptr : Nat) : Prop where
  block : ∃ span ∈ free, ptr = span.start + 8 ∧ size + kernelMallocHeaderSize ≤ span.length ∧
    ptr + size ≤ span.stop
  header : after.memory.read (ptr - 8) 8 = size
  extent : (after.memory.read (ptr - 8) 8 + kernelMallocHeaderSize) % wordSize =
    size + kernelMallocHeaderSize

section Coverage

variable {heap after : Heap} {free : List Span} {size fuel ptr : Nat}

theorem CoversRequest.fits (list : FreeList heap free)
    (covers : CoversRequest free after size ptr) :
    size + kernelMallocHeaderSize < wordSize ∧
      ∃ block ∈ free, size + kernelMallocHeaderSize ≤ block.length := by
  obtain ⟨span, member, _, fit, _⟩ := covers.block
  have bounds := (list.bounds span member).2
  rw [Span.stop] at bounds
  exact ⟨by omega, span, member, fit⟩

/-- A pointer that `kmalloc` returns covers the request exactly when the size with its header does
not wrap around and some free block has room for both. -/
theorem kmalloc_covers_request_iff (list : FreeList heap free)
    (run : kmalloc fuel heap size = some (after, ptr)) :
    CoversRequest free after size ptr ↔
      size + kernelMallocHeaderSize < wordSize ∧
        ∃ block ∈ free, size + kernelMallocHeaderSize ≤ block.length := by
  refine ⟨fun covers => covers.fits list, ?_⟩
  rintro ⟨small, some_fits⟩
  obtain ⟨⟨block, left⟩, taken⟩ := Option.isSome_iff_exists.mp (firstFit_isSome_iff.mpr some_fits)
  obtain ⟨front, back, rfl, skip, fit, _⟩ := firstFit_eq_some taken
  have bounds := list.bounds block (by simp)
  have served := kmalloc_mono run (front.length + 1)
  rw [kmalloc_eq_fit list small skip fit (by omega), Option.some.injEq] at served
  simp only [Span.stop, kernelMallocHeaderSize] at bounds fit small ⊢
  rw [kmallocFit, Nat.mod_eq_of_lt (show block.start < wordSize by omega),
    Nat.mod_eq_of_lt (show block.start + 8 < wordSize by omega)] at served
  obtain ⟨rfl, rfl⟩ := Prod.mk.inj served
  have header : ((kmallocTake heap block.start (size + 8)).memory.write block.start 8 size).read
      block.start 8 = size := read_write_word (by omega)
  refine ⟨⟨block, by simp, rfl, fit, by simp only [Span.stop]; omega⟩, ?_, ?_⟩
  · rw [Nat.add_sub_cancel]
    exact header
  · rw [Nat.add_sub_cancel]
    exact (congrArg (fun word => (word + 8) % wordSize) header).trans (Nat.mod_eq_of_lt small)

end Coverage

/-- Sixteen bytes of the heap after boot are covered. -/
theorem kmalloc_covers_request_iff_after_boot :
    ∃ after, kmalloc 1 bootHeap.heap 16 = some (after, kernelHeapStart + 8) ∧
      (CoversRequest [⟨kernelHeapStart, kernelHeapSize⟩] after 16 (kernelHeapStart + 8) ↔
        16 + kernelMallocHeaderSize < wordSize ∧
          ∃ block ∈ [Span.mk kernelHeapStart kernelHeapSize],
            16 + kernelMallocHeaderSize ≤ block.length) := by
  have pointer := (@kmallocFit_spec _ [] [] ⟨kernelHeapStart, kernelHeapSize⟩ bootHeap_list 16
    (by decide) (by decide) (by decide)).1
  have run := @kmalloc_eq_fit _ [] [] ⟨kernelHeapStart, kernelHeapSize⟩ 16 1
      bootHeap_list (by decide)
    (by simp) (by decide) (by decide)
  rw [← Prod.eta (kmallocFit ..), pointer] at run
  exact ⟨_, run, kmalloc_covers_request_iff bootHeap_list run⟩

/-- Eight bytes below `2 ^ 64` are requested from the heap after boot: the size with its header
wraps around to zero, and the first block is returned. -/
theorem kmalloc_wraps_request :
    ∃ after, kmalloc 1 bootHeap.heap (wordSize - 8) = some (after, kernelHeapStart + 8) ∧
      ¬ CoversRequest [⟨kernelHeapStart, kernelHeapSize⟩] after (wordSize - 8)
        (kernelHeapStart + 8) := by
  have head : bootHeap.heap.firstFree = kernelHeapStart := bootHeap_list.first
  have wrapped : (wordSize - 8 + kernelMallocHeaderSize) % wordSize = 0 := by decide
  refine ⟨(kmallocFit bootHeap.heap (wordSize - 8) kernelHeapStart 0).1, ?_, fun covers => ?_⟩
  · rw [kmalloc, wrapped, head, if_neg (by decide)]
    rw [kmallocSearch, if_pos (Nat.zero_le _), kmallocFit,
      Nat.mod_eq_of_lt (show kernelHeapStart + 8 < wordSize by decide)]
  · exact absurd (covers.fits bootHeap_list).1 (by decide)

end PellOs

import PellOs.Kmalloc.ClientSafety

/-!
# Merging freed blocks

Below the last free block `kfree` adds exactly the freed bytes to the list.  It merges the freed
block only with the first free block, so the list comes back as one block only in runs where no
other free block touches what is freed.
-/

namespace PellOs

open FreeMemHeader

/-! ## Free bytes -/

/-- The addresses in a list of spans. -/
def bytesOf (spans : List Span) : Set Nat :=
  {address | ∃ span ∈ spans, span.start ≤ address ∧ address < span.stop}

theorem Inserted.bytesOf_eq {freed : Span} {free new : List Span}
    (inserted : Inserted freed free new) : bytesOf new = bytesOf free ∪ bytesOf [freed] := by
  ext address
  simp only [bytesOf, Set.mem_union, Set.mem_ofPred_eq, List.mem_singleton, exists_eq_left]
  cases inserted with
  | @merge first rest adjacent =>
      simp only [List.mem_cons, exists_eq_or_imp]
      rw [Span.stop] at adjacent
      simp only [Span.stop]
      constructor
      · rintro (⟨lower, upper⟩ | later)
        · by_cases here : address < first.start
          · exact Or.inr ⟨lower, by omega⟩
          · exact Or.inl (Or.inl ⟨by omega, by omega⟩)
        · exact Or.inl (Or.inr later)
      · rintro ((⟨lower, upper⟩ | later) | ⟨lower, upper⟩)
        · exact Or.inl ⟨by omega, by omega⟩
        · exact Or.inr later
        · exact Or.inl ⟨lower, by omega⟩
  | insert front back =>
      simp only [List.mem_append, List.mem_cons, or_and_right, exists_or, exists_eq_left]
      constructor
      · rintro (early | here | late)
        · exact Or.inl (Or.inl early)
        · exact Or.inr here
        · exact Or.inl (Or.inr late)
      · rintro ((early | late) | here)
        · exact Or.inl early
        · exact Or.inr (Or.inr late)
        · exact Or.inr (Or.inl here)

namespace HeapInv

variable {heapStart : Nat} {state : HeapState} {free : List Span}

/-- A freed block below the last free block goes back exactly: the list stays well formed and in
order, the free bytes grow by the block, and no other live allocation changes. -/
theorem kfree_below_last (inv : HeapInv heapStart state free []) (ascending : Ascending free)
    {ptr size : Nat} (held : (ptr, size) ∈ state.live)
    (room : freeHeaderSize ≤ (allocSpan (ptr, size)).length) {last : Span}
    (is_last : free.getLast? = some last) (below : (allocSpan (ptr, size)).start < last.start) :
    ∃ after new, (∀ fuel, free.length < fuel → kfree fuel state.heap ptr = some after) ∧
      FreeList after new ∧ Ascending new ∧
      bytesOf new = bytesOf free ∪ bytesOf [allocSpan (ptr, size)] ∧
      ∀ alloc ∈ state.live.erase (ptr, size),
        state.heap.memory.AgreeOn after.memory (alloc.1 - 8) (alloc.2 + 8) := by
  obtain ⟨ptr_eq, bounds, header, apart, gaps⟩ := inv.freed_spec held
  have member := List.mem_of_getLast? is_last
  have higher : (allocSpan (ptr, size)).start + 8 < last.start := by
    have separate := apart last member
    have last_room := inv.list.room last member
    simp only [freeHeaderSize, Span.Disjoint, Span.stop] at room separate last_room
    omega
  have returns : ReturnsInPlace state.heap.memory free (allocSpan (ptr, size)) :=
    Or.inr ⟨room, Or.inl ⟨last, member, higher⟩⟩
  obtain ⟨after, new, run, released, ordered⟩ :=
    kfree_spec inv.list bounds header apart gaps (Or.inl returns)
  rw [← ptr_eq] at run
  exact ⟨after, new, run, released.list, ordered returns ascending, released.inserted.bytesOf_eq,
    (inv.of_released held released).2⟩

end HeapInv

/-! ## Two small allocations after boot -/

/-- A lower block that does not touch the only block goes in front of it. -/
theorem Inserted.eq_pair {freed block : Span} {new : List Span}
    (inserted : Inserted freed [block] new) (gap : freed.stop ≠ block.start)
    (ascending : Ascending new) (below : freed.start < block.start) : new = [freed, block] := by
  generalize shape : [block] = free at inserted
  cases inserted with
  | merge adjacent =>
      obtain ⟨rfl, rfl⟩ := List.cons.inj shape
      exact absurd adjacent gap
  | insert front back =>
      cases front with
      | nil =>
          subst shape
          rfl
      | cons first rest =>
          rw [List.cons_append] at shape
          obtain ⟨rfl, nothing⟩ := List.cons.inj shape
          obtain ⟨rfl, rfl⟩ := List.append_eq_nil_iff.mp nothing.symm
          have above := (List.pairwise_cons.mp ascending).1 freed List.mem_cons_self
          omega

/-- Two requests of 16 bytes are served after boot and the first of them is freed again. -/
theorem boot_first_freed : ∃ state : HeapState,
    Relation.ReflTransGen ClientStep bootHeap state ∧
      state.live = [(kernelHeapStart + 32, 16)] ∧
      HeapInv kernelHeapStart state
        [⟨kernelHeapStart, 24⟩, ⟨kernelHeapStart + 48, kernelHeapSize - 48⟩] [] := by
  obtain ⟨second, two, live, inv⟩ := @boot_malloc_two 16 16 (by decide)
  have held : (kernelHeapStart + 8, 16) ∈ second.live := by
    rw [live]
    decide
  obtain ⟨ptr_eq, bounds, header, apart, gaps⟩ := inv.freed_spec held
  have returns : ReturnsInPlace second.heap.memory
      [⟨kernelHeapStart + 48, kernelHeapSize - 48⟩] (allocSpan (kernelHeapStart + 8, 16)) :=
    Or.inr ⟨by decide, Or.inl ⟨_, List.mem_singleton.mpr rfl, by decide⟩⟩
  obtain ⟨third, new, run, released, ordered⟩ :=
    kfree_spec inv.list bounds header apart gaps (Or.inl returns)
  have freed : ClientStep second ⟨third, second.live.erase (kernelHeapStart + 8, 16)⟩ :=
    ⟨_, .free held (run 2 (by decide))⟩
  have new_eq : new = [⟨kernelHeapStart, 24⟩, ⟨kernelHeapStart + 48, kernelHeapSize - 48⟩] := by
    exact Inserted.eq_pair released.inserted (by decide)
      (ordered returns (List.pairwise_singleton _ _)) (by decide)
  rw [new_eq] at released
  have rest : second.live.erase (kernelHeapStart + 8, 16) = [(kernelHeapStart + 32, 16)] := by
    rw [live]
    decide
  exact ⟨_, (clientRun_of_orderly two).tail freed, rest, (inv.of_released held released).1⟩

/-- The second of two allocations is freed below the last free block. -/
theorem kfree_below_last_after_boot : ∃ state : HeapState, ∃ after new,
    (∀ fuel, 2 < fuel → kfree fuel state.heap (kernelHeapStart + 32) = some after) ∧
      FreeList after new ∧ Ascending new ∧
      bytesOf new = bytesOf
          [⟨kernelHeapStart, 24⟩, ⟨kernelHeapStart + 48, kernelHeapSize - 48⟩] ∪
        bytesOf [allocSpan (kernelHeapStart + 32, 16)] ∧
      ∀ alloc ∈ state.live.erase (kernelHeapStart + 32, 16),
        state.heap.memory.AgreeOn after.memory (alloc.1 - 8) (alloc.2 + 8) := by
  obtain ⟨state, _, live, inv⟩ := boot_first_freed
  have held : (kernelHeapStart + 32, 16) ∈ state.live := by
    rw [live]
    exact List.mem_singleton.mpr rfl
  have ascending : Ascending
      [⟨kernelHeapStart, 24⟩, ⟨kernelHeapStart + 48, kernelHeapSize - 48⟩] :=
    List.pairwise_pair.mpr (by decide)
  exact ⟨state, inv.kfree_below_last ascending held (by decide) rfl (by decide)⟩

/-! ## When the heap comes back as one block -/

/-- No block starts where another one ends. -/
def NoneTouch (free : List Span) : Prop :=
  ∀ left ∈ free, ∀ right ∈ free, left.stop ≠ right.start

/-- Requests of at least 16 bytes that leave no remainder too small for a header; and blocks to be
freed that no free block touches from below, and that are touched from above by the first free block
or by none and then have their place in the list. -/
def HeapAction.Coalesces (state : HeapState) : HeapAction → Prop
  | .malloc size => 16 ≤ size ∧ ServesWhole (freeBlocks state.heap) size
  | .free ptr size =>
      (∀ block ∈ freeBlocks state.heap, block.stop ≠ (allocSpan (ptr, size)).start) ∧
        ((∃ first rest, freeBlocks state.heap = first :: rest ∧
            (allocSpan (ptr, size)).stop = first.start) ∨
          (∀ block ∈ freeBlocks state.heap, (allocSpan (ptr, size)).stop ≠ block.start) ∧
            ((∃ block ∈ freeBlocks state.heap, ptr < block.start) ∨
              2 ≤ (freeBlocks state.heap).length ∧ state.heap.memory.read ptr 8 = endOfHeap))
  | .write _ _ => True

/-- A step that meets the condition on its call. -/
def CoalescingStep (before after : HeapState) : Prop :=
  ∃ action : HeapAction, action.Coalesces before ∧ HeapStep action before after

theorem eq_singleton_of_noneTouch {low high : Nat} {free : List Span} (lt : low < high)
    (tiles : Span.Tiles low high free) (apart : NoneTouch free) : free = [⟨low, high - low⟩] := by
  obtain ⟨first, member, lower, upper⟩ := tiles.cover low (le_refl _) lt
  have inside := tiles.inside first member
  have whole : first.stop = high := by
    by_contra short
    obtain ⟨next, next_mem, next_lower, next_upper⟩ :=
      tiles.cover first.stop (by omega) (by omega)
    by_cases same : next = first
    · subst same
      omega
    · have separate := tiles.disjoint.forall next_mem member same
      have touch := apart first member next next_mem
      rw [Span.Disjoint] at separate
      omega
  have alone : ∀ other ∈ free, other = first := by
    intro other other_mem
    by_contra differ
    have separate := tiles.disjoint.forall other_mem member differ
    have other_inside := tiles.inside other other_mem
    have other_pos := tiles.nonempty other other_mem
    simp only [Span.Disjoint, Span.stop] at separate other_inside whole
    omega
  have first_eq : first = ⟨low, high - low⟩ := by
    have start : first.start = low := by omega
    rw [Span.stop] at whole
    cases first
    simp only at start whole ⊢
    rw [start, ← whole, start, Nat.add_sub_cancel_left]
  rw [← first_eq]
  cases free with
  | nil => cases member
  | cons head rest =>
      obtain rfl := alone head List.mem_cons_self
      cases rest with
      | nil => rfl
      | cons second rest =>
          have second_eq := alone second (List.mem_cons_of_mem _ List.mem_cons_self)
          have separate := (List.pairwise_cons.mp tiles.disjoint).1 second List.mem_cons_self
          have head_pos := tiles.nonempty head List.mem_cons_self
          rw [second_eq] at separate
          simp only [Span.Disjoint, Span.stop] at separate
          omega

/-- Taking bytes from the start of a block makes no spans touch. -/
theorem NoneTouch.leftover {front back : List Span} {block : Span} {allocSize : Nat}
    (apart : NoneTouch (front ++ block :: back))
    (disjoint : (front ++ block :: back).Pairwise Span.Disjoint)
    (room : ∀ other ∈ front ++ block :: back, 0 < other.length)
    (fit : allocSize ≤ block.length) (alloc_pos : 0 < allocSize) :
    NoneTouch (front ++ (leftover block allocSize ++ back)) := by
  have members : ∀ other ∈ front ++ (PellOs.leftover block allocSize ++ back),
      other ∈ front ++ back ∨
        other.start = block.start + allocSize ∧ other.stop = block.stop ∧ 0 < other.length := by
    intro other member
    simp only [List.mem_append] at member ⊢
    rcases member with early | part | late
    · exact Or.inl (Or.inl early)
    · rw [PellOs.leftover] at part
      split_ifs at part with exact_fit
      · cases part
      · obtain rfl := List.mem_singleton.mp part
        exact Or.inr ⟨rfl, by simp only [Span.stop]; omega, by simp only; omega⟩
    · exact Or.inl (Or.inr late)
  have separate : ∀ other ∈ front ++ back, other.Disjoint block := by
    intro other member
    obtain ⟨_, tail, cross⟩ := List.pairwise_append.mp disjoint
    rcases List.mem_append.mp member with early | late
    · exact cross other early block List.mem_cons_self
    · exact ((List.pairwise_cons.mp tail).1 other late).symm
  have block_mem : block ∈ front ++ block :: back := by simp
  intro left left_mem right right_mem
  rcases members left left_mem with left_old | ⟨left_start, left_stop, left_pos⟩
  · have left_whole := @mem_insert_middle _ _ block left left_old
    rcases members right right_mem with right_old | ⟨right_start, right_stop, right_pos⟩
    · exact apart left left_whole right (mem_insert_middle right_old)
    · have away := separate left left_old
      have left_pos := room left left_whole
      simp only [Span.Disjoint, Span.stop] at away right_stop ⊢
      omega
  · rcases members right right_mem with right_old | ⟨right_start, right_stop, right_pos⟩
    · rw [left_stop]
      exact apart block block_mem right (mem_insert_middle right_old)
    · simp only [Span.stop] at left_stop ⊢
      omega

/-- Putting a block that nothing touches into the list makes no spans touch. -/
theorem NoneTouch.insert {front back : List Span} {freed : Span} (apart : NoneTouch (front ++ back))
    (freed_pos : 0 < freed.length) (lower : ∀ block ∈ front ++ back, block.stop ≠ freed.start)
    (upper : ∀ block ∈ front ++ back, freed.stop ≠ block.start) :
    NoneTouch (front ++ freed :: back) := by
  have members : ∀ other ∈ front ++ freed :: back, other = freed ∨ other ∈ front ++ back := by
    intro other member
    simp only [List.mem_append, List.mem_cons] at member ⊢
    tauto
  intro left left_mem right right_mem
  rcases members left left_mem with rfl | left_old
  · rcases members right right_mem with rfl | right_old
    · rw [Span.stop]
      omega
    · exact upper right right_old
  · rcases members right right_mem with rfl | right_old
    · exact lower left left_old
    · exact apart left left_old right right_old

/-- Merging a block that nothing touches from below into the first one makes no spans touch. -/
theorem NoneTouch.merge {first freed : Span} {rest : List Span} (apart : NoneTouch (first :: rest))
    (adjacent : freed.stop = first.start)
    (lower : ∀ block ∈ first :: rest, block.stop ≠ freed.start) :
    NoneTouch (⟨freed.start, freed.length + first.length⟩ :: rest) := by
  have stop_eq : Span.stop ⟨freed.start, freed.length + first.length⟩ = first.stop := by
    simp only [Span.stop] at adjacent ⊢
    omega
  intro left left_mem right right_mem
  rcases List.mem_cons.mp left_mem with rfl | left_old
  · rw [stop_eq]
    rcases List.mem_cons.mp right_mem with rfl | right_old
    · exact lower first List.mem_cons_self
    · exact apart first List.mem_cons_self right (List.mem_cons_of_mem _ right_old)
  · rcases List.mem_cons.mp right_mem with rfl | right_old
    · exact lower left (List.mem_cons_of_mem _ left_old)
    · exact apart left (List.mem_cons_of_mem _ left_old) right (List.mem_cons_of_mem _ right_old)

/-- The free blocks are as large as they can be, and every allocation has room for a header. -/
def Coalesced (heapStart : Nat) (state : HeapState) : Prop :=
  ∃ free, HeapInv heapStart state free [] ∧ NoneTouch free ∧ ∀ alloc ∈ state.live, 16 ≤ alloc.2

namespace Coalesced

variable {heapStart : Nat} {state next : HeapState}

private theorem malloc {size fuel ptr : Nat} {heap : Heap} (inv : Coalesced heapStart state)
    (size_le : size ≤ kernelHeapSize) (size_ge : 16 ≤ size)
    (served : ServesWhole (freeBlocks state.heap) size)
    (run : kmalloc fuel state.heap size = some (heap, ptr)) :
    Coalesced heapStart ⟨heap, if ptr = 0 then state.live else (ptr, size) :: state.live⟩ := by
  obtain ⟨free, inv, apart, large⟩ := inv
  rw [inv.freeBlocks_eq] at served
  rcases inv.malloc_cases size_le served run with
    ⟨rfl, rfl, rfl⟩ | ⟨front, block, back, rfl, fit, nonnull, kept, _⟩
  · exact ⟨[], inv, apart, large⟩
  · rw [if_neg nonnull]
    refine ⟨_, kept, apart.leftover inv.list.disjoint ?_ fit (Nat.add_pos_right _ (by decide)), ?_⟩
    · intro other member
      exact lt_of_lt_of_le (by decide) (inv.list.room other member)
    · intro alloc member
      rcases List.mem_cons.mp member with rfl | old
      · exact size_ge
      · exact large alloc old

private theorem free {ptr size fuel : Nat} {heap : Heap} (inv : Coalesced heapStart state)
    (held : (ptr, size) ∈ state.live)
    (coalesces : (HeapAction.free ptr size).Coalesces state)
    (run : kfree fuel state.heap ptr = some heap) :
    Coalesced heapStart ⟨heap, state.live.erase (ptr, size)⟩ := by
  obtain ⟨free, inv, apart, large⟩ := inv
  have size_ge := large _ held
  obtain ⟨ptr_eq, bounds, header, separate, gaps⟩ := inv.freed_spec held
  have freed_pos : 0 < (allocSpan (ptr, size)).length := by
    simp only [allocSpan]
    omega
  rw [HeapAction.Coalesces, inv.freeBlocks_eq] at coalesces
  obtain ⟨lower, merges | ⟨upper, place⟩⟩ := coalesces
  · obtain ⟨first, rest, rfl, adjacent⟩ := merges
    have below : (allocSpan (ptr, size)).start + 8 < first.start := by
      rw [Span.stop] at adjacent
      simp only [allocSpan] at adjacent size_ge ⊢
      omega
    obtain ⟨after, result, released⟩ :=
      kfree_merges inv.list bounds header separate adjacent (Or.inr below)
    have same := result (fuel + 1) (Nat.succ_pos _)
    rw [← ptr_eq, kfree_mono run 1, Option.some.injEq] at same
    subst same
    exact ⟨_, (inv.of_released held released).1, apart.merge adjacent lower,
      fun alloc member => large alloc (List.mem_of_mem_erase member)⟩
  · have returns : ReturnsInPlace state.heap.memory free (allocSpan (ptr, size)) := by
      rw [ptr_eq] at place
      refine Or.inr ⟨?_, place⟩
      simp only [allocSpan, freeHeaderSize] at size_ge ⊢
      omega
    obtain ⟨after, new, result, released, _⟩ :=
      kfree_spec inv.list bounds header separate gaps (Or.inl returns)
    have same := result (free.length + 1 + fuel) (by omega)
    rw [← ptr_eq, Nat.add_comm, kfree_mono run, Option.some.injEq] at same
    subst same
    refine ⟨_, (inv.of_released held released).1, ?_,
      fun alloc member => large alloc (List.mem_of_mem_erase member)⟩
    cases released.inserted with
    | merge adjacent => exact absurd adjacent (upper _ List.mem_cons_self)
    | insert front back => exact apart.insert freed_pos lower upper

theorem step (inv : Coalesced heapStart state) (step : CoalescingStep state next) :
    Coalesced heapStart next := by
  obtain ⟨action, coalesces, step⟩ := step
  cases step with
  | malloc size_le run => exact inv.malloc size_le coalesces.1 coalesces.2 run
  | free held run => exact inv.free held coalesces run
  | write held inside =>
      obtain ⟨free, inv, apart, large⟩ := inv
      exact ⟨free, inv.write held inside, apart, large⟩

theorem run (inv : Coalesced heapStart state)
    (run : Relation.ReflTransGen CoalescingStep state next) : Coalesced heapStart next := by
  induction run with
  | refl => exact inv
  | tail _ last ih => exact ih.step last

end Coalesced

/-- In every run whose frees coalesce, a heap without live allocations is one free block again. -/
theorem heap_restored {memory : Memory} {heapStart : Nat} {state : HeapState}
    (range : 0 < heapStart ∧ heapStart + kernelHeapSize < wordSize)
    (run : Relation.ReflTransGen CoalescingStep (initialState memory heapStart) state)
    (nothing_live : state.live = []) :
    freeBlocks state.heap = [⟨heapStart, kernelHeapSize⟩] := by
  have start : Coalesced heapStart (initialState memory heapStart) := by
    refine ⟨_, HeapInv.initial memory range, ?_, fun alloc member => absurd member List.not_mem_nil⟩
    intro left left_mem right right_mem
    rw [List.mem_singleton.mp left_mem, List.mem_singleton.mp right_mem, Span.stop_mk]
    exact Nat.ne_of_gt (Nat.lt_add_of_pos_right (by decide))
  obtain ⟨free, inv, apart, _⟩ := start.run run
  have tiles := inv.tiles
  rw [nothing_live, List.map_nil, List.append_nil, List.append_nil] at tiles
  have whole := eq_singleton_of_noneTouch (Nat.lt_add_of_pos_right (by decide)) tiles apart
  rw [inv.freeBlocks_eq, whole, Nat.add_sub_cancel_left]

/-- An allocation after boot is freed again. -/
theorem heap_restored_after_one : ∃ before after : HeapState,
    before.live = [(kernelHeapStart + 8, 16)] ∧
      HeapStep (.free (kernelHeapStart + 8) 16) before after ∧
      freeBlocks after.heap = [⟨kernelHeapStart, kernelHeapSize⟩] := by
  obtain ⟨heap, step, orderly, inv⟩ := @boot_malloc 16 (by decide)
  have held : (kernelHeapStart + 8, 16) ∈ [(kernelHeapStart + 8, 16)] := List.mem_singleton.mpr rfl
  obtain ⟨ptr_eq, bounds, header, apart, _⟩ := inv.freed_spec held
  obtain ⟨after, result, released⟩ :=
    kfree_merges inv.list bounds header apart (by decide) (Or.inl rfl)
  have freed : HeapStep (.free (kernelHeapStart + 8) 16) ⟨heap, [(kernelHeapStart + 8, 16)]⟩
      ⟨after, []⟩ := .free held (result 1 Nat.one_pos)
  have coalesces : (HeapAction.free (kernelHeapStart + 8) 16).Coalesces
      ⟨heap, [(kernelHeapStart + 8, 16)]⟩ := by
    rw [HeapAction.Coalesces, inv.freeBlocks_eq]
    exact ⟨by decide, Or.inl ⟨_, _, rfl, by decide⟩⟩
  have requested : CoalescingStep bootHeap ⟨heap, [(kernelHeapStart + 8, 16)]⟩ :=
    ⟨.malloc 16, ⟨le_refl _, orderly⟩, step⟩
  exact ⟨_, _, rfl, freed, heap_restored kernelHeapStart_range
    ((Relation.ReflTransGen.single requested).tail ⟨_, coalesces, freed⟩) rfl⟩

/-- Two allocations of 16 bytes are freed in the order they were made: the second touches free
blocks on both sides and is merged with neither. -/
theorem kfree_leaves_fragments : ∃ state : HeapState,
    Relation.ReflTransGen ClientStep bootHeap state ∧ state.live = [] ∧
      freeBlocks state.heap ≠ [⟨kernelHeapStart, kernelHeapSize⟩] := by
  obtain ⟨state, run, live, inv⟩ := boot_first_freed
  have held : (kernelHeapStart + 32, 16) ∈ state.live := by
    rw [live]
    exact List.mem_singleton.mpr rfl
  obtain ⟨ptr_eq, bounds, header, apart, gaps⟩ := inv.freed_spec held
  obtain ⟨after, new, result, released, _⟩ := kfree_spec inv.list bounds header apart gaps
    (Or.inl (Or.inr ⟨by decide, Or.inl ⟨_, List.mem_cons_of_mem _ List.mem_cons_self, by decide⟩⟩))
  have kept := (inv.of_released held released).1
  have nothing_live : state.live.erase (kernelHeapStart + 32, 16) = [] := by
    rw [live, List.erase_cons_head]
  refine ⟨_, run.tail ⟨_, .free held (result 3 (by decide))⟩, nothing_live, fun whole => ?_⟩
  have inserted := released.inserted
  rw [← kept.freeBlocks_eq, whole] at inserted
  generalize shape : [Span.mk kernelHeapStart 24,
    ⟨kernelHeapStart + 48, kernelHeapSize - 48⟩] = free at inserted
  generalize single : [Span.mk kernelHeapStart kernelHeapSize] = new at inserted
  cases inserted with
  | merge adjacent =>
      obtain ⟨rfl, _⟩ := List.cons.inj shape
      exact absurd adjacent (by decide)
  | insert front back =>
      have two := congrArg List.length shape
      have one := congrArg List.length single
      simp only [List.length_append, List.length_cons, List.length_nil] at two one
      omega

end PellOs

import PellOs.Kmalloc.Runs

/-!
# Heap safety over whole runs

Every run of the heap whose calls are harmless keeps the live allocations apart and unchanged, and
every run whose calls are orderly keeps the free list in address order and loses no memory.  Two
short runs show what a call outside these conditions does.
-/

namespace PellOs

open FreeMemHeader

/-- A step of a heap client. -/
def ClientStep (before after : HeapState) : Prop :=
  ∃ action, HeapStep action before after

/-- A step that meets the condition on its call. -/
def HarmlessStep (before after : HeapState) : Prop :=
  ∃ action : HeapAction, action.Harmless before ∧ HeapStep action before after

/-- A step that moreover keeps the list complete and in order. -/
def OrderlyStep (before after : HeapState) : Prop :=
  ∃ action : HeapAction, action.Orderly before ∧ HeapStep action before after

/-- The allocator runs, not the client. -/
def HeapAction.IsCall : HeapAction → Prop
  | .write _ _ => False
  | _ => True

theorem HeapAction.Orderly.harmless {state : HeapState} {action : HeapAction}
    (orderly : action.Orderly state) : action.Harmless state := by
  cases action with
  | malloc size => exact orderly
  | free ptr size => exact Or.inr (Or.inl orderly)
  | write address byte => trivial

/-! ## The initial heap -/

theorem HeapInv.initial (memory : Memory) {heapStart : Nat}
    (range : 0 < heapStart ∧ heapStart + kernelHeapSize < wordSize) :
    HeapInv heapStart (initialState memory heapStart) [⟨heapStart, kernelHeapSize⟩] [] := by
  have size_room : freeHeaderSize ≤ kernelHeapSize := by decide
  have fits : heapStart + 24 ≤ wordSize := by
    simp only [freeHeaderSize] at size_room
    omega
  have node : Node (initialState memory heapStart).heap.memory ⟨heapStart, kernelHeapSize⟩
      startOfHeap endOfHeap := by
    refine Node.of_words fits ?_
    have size_lt : kernelHeapSize < wordSize := by decide
    simp (disch := first | omega | decide) only [initialState, kmallocInit, setPrev_eq, setNext_eq,
      setSize_eq, read_write_word, Memory.read_write_disjoint, and_self]
  refine ⟨range, ⟨rfl, ⟨node, trivial⟩, ?_, List.pairwise_singleton _ _, ?_⟩, ?_, ?_, ?_⟩
  · intro block member
    obtain rfl := List.mem_singleton.mp member
    exact size_room
  · intro block member
    obtain rfl := List.mem_singleton.mp member
    exact range
  · have whole := @Span.Tiles.singleton heapStart (heapStart + kernelHeapSize)
      (Nat.lt_add_of_pos_right (by decide))
    simpa [initialState] using whole
  · exact fun alloc member => absurd member List.not_mem_nil
  · exact fun span member => absurd member List.not_mem_nil

/-! ## One step -/

/-- A harmless step keeps the invariant; an orderly one also keeps the order and loses nothing. -/
theorem HeapInv.step {heapStart : Nat} {state next : HeapState} {free lost : List Span}
    {action : HeapAction} (inv : HeapInv heapStart state free lost)
    (harmless : action.Harmless state) (step : HeapStep action state next) :
    ∃ free' lost', HeapInv heapStart next free' lost' ∧
      (action.Orderly state → lost' = lost ∧ (Ascending free → Ascending free')) ∧
      (action.IsCall → KeepsLive state next) := by
  cases step with
  | malloc size_le run =>
      simp only [HeapAction.Harmless, inv.freeBlocks_eq] at harmless
      obtain ⟨free', kept, ordered, frame⟩ := inv.malloc size_le harmless run
      exact ⟨free', lost, kept, fun _ => ⟨rfl, ordered⟩, fun _ alloc held _ => frame alloc held⟩
  | free held run =>
      simp only [HeapAction.Harmless, HeapAction.Orderly, inv.freeBlocks_eq] at harmless ⊢
      obtain ⟨free', lost', kept, ordered, frame⟩ := inv.release held harmless run
      exact ⟨free', lost', kept, ordered, fun _ alloc _ still => frame alloc still⟩
  | write held inside =>
      exact ⟨free, lost, inv.write held inside, fun _ => ⟨rfl, id⟩, fun call => call.elim⟩

/-! ## Whole runs -/

section Runs

variable {memory : Memory} {heapStart : Nat} {state : HeapState}

theorem HeapInv.of_harmless_run (range : 0 < heapStart ∧ heapStart + kernelHeapSize < wordSize)
    (run : Relation.ReflTransGen HarmlessStep (initialState memory heapStart) state) :
    ∃ free lost, HeapInv heapStart state free lost := by
  induction run with
  | refl => exact ⟨_, _, HeapInv.initial memory range⟩
  | tail _ last ih =>
      obtain ⟨free, lost, inv⟩ := ih
      obtain ⟨action, harmless, step⟩ := last
      obtain ⟨free', lost', kept, -⟩ := inv.step harmless step
      exact ⟨free', lost', kept⟩

theorem HeapInv.of_orderly_run (range : 0 < heapStart ∧ heapStart + kernelHeapSize < wordSize)
    (run : Relation.ReflTransGen OrderlyStep (initialState memory heapStart) state) :
    ∃ free, HeapInv heapStart state free [] ∧ Ascending free := by
  induction run with
  | refl => exact ⟨_, HeapInv.initial memory range, List.pairwise_singleton _ _⟩
  | tail _ last ih =>
      obtain ⟨free, inv, ascending⟩ := ih
      obtain ⟨action, orderly, step⟩ := last
      obtain ⟨free', lost', kept, ordered, -⟩ := inv.step orderly.harmless step
      obtain ⟨rfl, keeps⟩ := ordered orderly
      exact ⟨free', kept, keeps ascending⟩

/-- In every state reached by harmless calls the live allocations lie inside the heap, do not
overlap, and no further harmless call changes a size word or a payload that stays live. -/
theorem kmalloc_clients_isolated
    (range : 0 < heapStart ∧ heapStart + kernelHeapSize < wordSize)
    (run : Relation.ReflTransGen HarmlessStep (initialState memory heapStart) state) :
    (∀ alloc ∈ state.live,
      heapStart + 8 ≤ alloc.1 ∧ alloc.1 + alloc.2 ≤ heapStart + kernelHeapSize) ∧
    state.live.Pairwise (fun left right => (allocSpan left).Disjoint (allocSpan right)) ∧
    ∀ (action : HeapAction) (next : HeapState), action.IsCall → action.Harmless state →
      HeapStep action state next → KeepsLive state next := by
  obtain ⟨free, lost, inv⟩ := HeapInv.of_harmless_run range run
  refine ⟨?_, List.pairwise_map.mp inv.live_disjoint, ?_⟩
  · intro alloc held
    have inside := inv.live_inside held
    omega
  · intro action next call harmless step
    obtain ⟨_, _, _, _, keeps⟩ := inv.step harmless step
    exact keeps call

/-- A harmless request of at most the heap's size returns after a search of the free list. -/
theorem kmalloc_returns (range : 0 < heapStart ∧ heapStart + kernelHeapSize < wordSize)
    (run : Relation.ReflTransGen HarmlessStep (initialState memory heapStart) state)
    {size : Nat} (size_le : size ≤ kernelHeapSize)
    (harmless : (HeapAction.malloc size).Harmless state) :
    ∃ next, HeapStep (.malloc size) state next := by
  obtain ⟨free, lost, inv⟩ := HeapInv.of_harmless_run range run
  simp only [HeapAction.Harmless, inv.freeBlocks_eq] at harmless
  rcases harmless with rfl | ⟨block, first_fit, room⟩
  · have empty : state.heap.firstFree = 0 := inv.list.first
    exact ⟨_, @HeapStep.malloc _ _ 0 _ _ size_le (by rw [kmalloc, if_pos empty])⟩
  · obtain ⟨fit, front, back, rfl, skip⟩ := List.find?_eq_some_iff_append.mp first_fit
    obtain ⟨heap, served, -⟩ := inv.malloc_fit size_le
      (fun other member => by simpa using skip other member) (by simpa using fit) room
    exact ⟨_, .malloc size_le (served _ (Nat.lt_succ_self _))⟩

/-- A harmless release of a live allocation returns after a search of the free list. -/
theorem kfree_returns (range : 0 < heapStart ∧ heapStart + kernelHeapSize < wordSize)
    (run : Relation.ReflTransGen HarmlessStep (initialState memory heapStart) state)
    {ptr size : Nat} (held : (ptr, size) ∈ state.live)
    (harmless : (HeapAction.free ptr size).Harmless state) :
    ∃ next, HeapStep (.free ptr size) state next := by
  obtain ⟨free, lost, inv⟩ := HeapInv.of_harmless_run range run
  simp only [HeapAction.Harmless, inv.freeBlocks_eq] at harmless
  rcases harmless with rfl | returns
  · exact ⟨_, .free held (inv.release_full held 0).1⟩
  · obtain ⟨heap, free', released, -⟩ := inv.release_listed held returns
    exact ⟨_, .free held (released _ (Nat.lt_succ_self _))⟩

end Runs

/-- Address of the kernel heap after boot: the first allocated page, in the kernel half. -/
def kernelHeapStart : Nat := 0xffff000000400000

theorem kernelHeapStart_range :
    0 < kernelHeapStart ∧ kernelHeapStart + kernelHeapSize < wordSize := by
  decide

/-- The heap after boot. -/
def bootHeap : HeapState := initialState (fun _ => 0) kernelHeapStart

/-- A request is served from the rest of the heap behind the blocks allocated so far. -/
theorem HeapInv.malloc_rest {heapStart : Nat} {state : HeapState} {rest : Span}
    (inv : HeapInv heapStart state [rest] []) {size : Nat} (fit : size + 32 ≤ rest.length)
    (inside : rest.length ≤ kernelHeapSize) :
    ∃ heap, HeapStep (.malloc size) state ⟨heap, (rest.start + 8, size) :: state.live⟩ ∧
      (HeapAction.malloc size).Orderly state ∧
      HeapInv heapStart ⟨heap, (rest.start + 8, size) :: state.live⟩
        [⟨rest.start + (size + 8), rest.length - (size + 8)⟩] [] := by
  have split : size + kernelMallocHeaderSize + freeHeaderSize ≤ rest.length := by
    simp only [kernelMallocHeaderSize, freeHeaderSize]
    omega
  obtain ⟨heap, run, kept, -⟩ := @HeapInv.malloc_fit _ _ _ [] [] _ inv size (by omega) (by simp)
    (le_trans (Nat.le_add_right _ _) split) (Or.inr split)
  rw [leftover_split split] at kept
  refine ⟨heap, .malloc (by omega) (run 1 Nat.one_pos), Or.inr ⟨rest, ?_, Or.inr split⟩, kept⟩
  rw [inv.freeBlocks_eq]
  simp only [List.find?_cons, decide_eq_true (show size + kernelMallocHeaderSize ≤ rest.length by
    omega)]

theorem boot_malloc {size : Nat} (fit : size + 32 ≤ kernelHeapSize) :
    ∃ heap, HeapStep (.malloc size) bootHeap ⟨heap, [(kernelHeapStart + 8, size)]⟩ ∧
      (HeapAction.malloc size).Orderly bootHeap ∧
      HeapInv kernelHeapStart ⟨heap, [(kernelHeapStart + 8, size)]⟩
        [⟨kernelHeapStart + (size + 8), kernelHeapSize - (size + 8)⟩] [] :=
  (HeapInv.initial (fun _ => 0) kernelHeapStart_range).malloc_rest fit (le_refl _)

theorem boot_malloc_two {first second : Nat} (fit : first + second + 40 ≤ kernelHeapSize) :
    ∃ state, Relation.ReflTransGen OrderlyStep bootHeap state ∧
      state.live = [(kernelHeapStart + (first + 8) + 8, second), (kernelHeapStart + 8, first)] ∧
      HeapInv kernelHeapStart state [⟨kernelHeapStart + (first + 8) + (second + 8),
        kernelHeapSize - (first + 8) - (second + 8)⟩] [] := by
  obtain ⟨heap, one, orderly, inv⟩ := @boot_malloc first (by omega)
  obtain ⟨_, two, orderly', inv⟩ := @HeapInv.malloc_rest _ _ _ inv second (by dsimp only; omega)
    (Nat.sub_le _ _)
  exact ⟨_, (Relation.ReflTransGen.single ⟨_, orderly, one⟩).tail ⟨_, orderly', two⟩, rfl, inv⟩

theorem clientRun_of_orderly {before after : HeapState}
    (run : Relation.ReflTransGen OrderlyStep before after) :
    Relation.ReflTransGen ClientStep before after := by
  refine Relation.ReflTransGen.mono ?_ _ _ run
  rintro before after ⟨action, -, step⟩
  exact ⟨action, step⟩

/-- A client that holds two blocks keeps both. -/
theorem kmalloc_clients_isolated_after_two : ∃ state : HeapState,
    state.live = [(kernelHeapStart + 32, 40), (kernelHeapStart + 8, 16)] ∧
    (∀ alloc ∈ state.live, kernelHeapStart + 8 ≤ alloc.1 ∧
      alloc.1 + alloc.2 ≤ kernelHeapStart + kernelHeapSize) ∧
    state.live.Pairwise (fun left right => (allocSpan left).Disjoint (allocSpan right)) ∧
    ∀ (action : HeapAction) (next : HeapState), action.IsCall → action.Harmless state →
      HeapStep action state next → KeepsLive state next := by
  obtain ⟨state, run, live, -⟩ := @boot_malloc_two 16 40 (by decide)
  have harmless : Relation.ReflTransGen HarmlessStep bootHeap state := by
    refine Relation.ReflTransGen.mono ?_ _ _ run
    rintro before after ⟨action, orderly, step⟩
    exact ⟨action, orderly.harmless, step⟩
  exact ⟨state, live, kmalloc_clients_isolated kernelHeapStart_range harmless⟩

/-- Two empty payloads are requested and the first is freed: the 24-byte header written over the
8-byte block replaces the size word of the second. -/
theorem kfree_overwrites_size_word : ∃ before after : HeapState,
    Relation.ReflTransGen ClientStep bootHeap before ∧
    HeapStep (.free (kernelHeapStart + 8) 0) before after ∧ ¬KeepsLive before after := by
  obtain ⟨state, run, live, inv⟩ := @boot_malloc_two 0 0 (by decide)
  have held : (kernelHeapStart + 8, 0) ∈ state.live := by
    rw [live]
    decide
  have freed := @kfree_found _ [] _ _ ⟨kernelHeapStart, 8⟩ 1 inv.list (by decide) (by
      rw [show state.heap.memory.read kernelHeapStart 8 = 0 from inv.headers _ held]
      rfl) (kfreeFind_single inv.list)
  refine ⟨_, _, clientRun_of_orderly run, .free held freed, fun keeps => ?_⟩
  have other : (kernelHeapStart + 16, 0) ∈ state.live := by
    rw [live]
    decide
  have still : (kernelHeapStart + 16, 0) ∈ state.live.erase (kernelHeapStart + 8, 0) := by
    rw [live]
    decide
  have same := Memory.read_congr (keeps _ other still)
  rw [inv.headers _ other] at same
  simp only [if_true, kfreeFront] at same
  rw [if_neg (by decide)] at same
  simp (disch := decide) only [setPrev_eq, setNext_eq, setSize_eq, Nat.zero_add,
    Memory.read_write_disjoint] at same
  rw [show kernelHeapStart + 16 - 8 = kernelHeapStart + 8 from rfl,
    read_write_word (by decide)] at same
  exact absurd same (by decide)

/-! ## The free list as a representation -/

/-- `first_free` heads a doubly linked list in address order from `START_OF_HEAP` to
`END_OF_HEAP`, and its blocks tile the heap together with the live ones. -/
structure RepresentsHeap (heapStart : Nat) (state : HeapState) : Prop where
  first : state.heap.firstFree = headStart (freeBlocks state.heap) 0
  linked : Linked state.heap.memory startOfHeap (freeBlocks state.heap) endOfHeap
  ascending : Ascending (freeBlocks state.heap)
  tiles : Span.Tiles heapStart (heapStart + kernelHeapSize)
    (freeBlocks state.heap ++ state.live.map allocSpan)
  total : ((freeBlocks state.heap).map Span.length).sum +
    (state.live.map fun alloc => alloc.2 + kernelMallocHeaderSize).sum = kernelHeapSize

theorem HeapInv.representsHeap {heapStart : Nat} {state : HeapState} {free : List Span}
    (inv : HeapInv heapStart state free []) (ascending : Ascending free) :
    RepresentsHeap heapStart state := by
  have tiles : Span.Tiles heapStart (heapStart + kernelHeapSize)
      (free ++ state.live.map allocSpan) := by
    simpa using inv.tiles
  have total := tiles.sum_length
  rw [List.map_append, List.sum_append, List.map_map, Nat.add_sub_cancel_left] at total
  refine ⟨?_, ?_, ?_, ?_, ?_⟩
  all_goals rw [inv.freeBlocks_eq]
  · exact inv.list.first
  · exact inv.list.linked
  · exact ascending
  · exact tiles
  · exact total

/-- Every state reached by orderly calls has a complete and ordered free list. -/
theorem freeList_represents_heap {memory : Memory} {heapStart : Nat} {state : HeapState}
    (range : 0 < heapStart ∧ heapStart + kernelHeapSize < wordSize)
    (run : Relation.ReflTransGen OrderlyStep (initialState memory heapStart) state) :
    RepresentsHeap heapStart state := by
  obtain ⟨free, inv, ascending⟩ := HeapInv.of_orderly_run range run
  exact inv.representsHeap ascending

/-- The list behind two live blocks. -/
theorem freeList_represents_heap_after_two : ∃ state : HeapState,
    state.live = [(kernelHeapStart + 32, 40), (kernelHeapStart + 8, 16)] ∧
      RepresentsHeap kernelHeapStart state := by
  obtain ⟨state, run, live, -⟩ := @boot_malloc_two 16 40 (by decide)
  exact ⟨state, live, freeList_represents_heap kernelHeapStart_range run⟩

/-- The whole heap is requested and freed again: `kfree` gives up because `first_free` is null and
the memory never returns to the list. -/
theorem kfree_loses_full_heap : ∃ state : HeapState,
    Relation.ReflTransGen ClientStep bootHeap state ∧ ¬RepresentsHeap kernelHeapStart state := by
  obtain ⟨heap, run, inv, -⟩ := @HeapInv.malloc_fit _ _ _ [] [] _
    (HeapInv.initial (fun _ => 0) kernelHeapStart_range) (kernelHeapSize - 8) (by decide) (by simp)
    (by decide) (Or.inl (by decide))
  rw [leftover_exact (by decide)] at inv
  have requested : HeapStep (.malloc (kernelHeapSize - 8)) bootHeap
      ⟨heap, [(kernelHeapStart + 8, kernelHeapSize - 8)]⟩ :=
    .malloc (by decide) (run 1 Nat.one_pos)
  obtain ⟨freed, inv⟩ := @HeapInv.release_full _ _ _ inv (kernelHeapStart + 8) (kernelHeapSize - 8)
    List.mem_cons_self 0
  have released : HeapStep (.free (kernelHeapStart + 8) (kernelHeapSize - 8))
      ⟨heap, [(kernelHeapStart + 8, kernelHeapSize - 8)]⟩ ⟨heap, _⟩ :=
    .free List.mem_cons_self freed
  refine ⟨_, (Relation.ReflTransGen.single ⟨_, requested⟩).tail ⟨_, released⟩,
    fun represents => ?_⟩
  have total := represents.total
  rw [inv.freeBlocks_eq, List.erase_cons_head] at total
  exact absurd total (show (0 : Nat) ≠ kernelHeapSize by decide)

end PellOs

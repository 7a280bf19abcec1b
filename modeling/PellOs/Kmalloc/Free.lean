import PellOs.Kmalloc.Malloc

/-!
# Returning blocks to the free list

`kfree` walks to the first free block above the pointer.  It then merges the freed block into the
first free block, inserts it in front of the list, inserts it between two free blocks, or hangs it
behind the last one.  The last case stores no `next` word, so the list ends there only if the
payload happened to hold `END_OF_HEAP`.
-/

namespace PellOs

open FreeMemHeader

/-! ## The search -/

theorem kfreeSearch_skip {memory : Memory} {ptr fuel prev : Nat} {front back : List Span}
    {block : Span} (linked : Linked memory prev (front ++ block :: back) endOfHeap)
    (starts : ∀ other ∈ front ++ block :: back, other.start ≠ endOfHeap)
    (below : ∀ other ∈ front, other.start ≤ ptr) (enough : front.length < fuel) :
    ∃ left, kfreeSearch memory ptr fuel (headStart front block.start) =
      kfreeSearch memory ptr (left + 1) block.start := by
  induction front generalizing prev fuel with
  | nil =>
      obtain ⟨left, rfl⟩ := Nat.exists_eq_succ_of_ne_zero (Nat.ne_of_gt enough)
      exact ⟨left, rfl⟩
  | cons first front ih =>
      obtain ⟨fuel, rfl⟩ := Nat.exists_eq_succ_of_ne_zero (Nat.ne_of_gt (Nat.zero_lt_of_lt enough))
      obtain ⟨node, rest⟩ := linked
      have low := below first List.mem_cons_self
      have next_ne : headStart front block.start ≠ endOfHeap := by
        cases front with
        | nil => exact starts block (by simp)
        | cons second front => exact starts second (by simp)
      obtain ⟨left, reached⟩ := ih rest
        (fun other member => starts other (List.mem_cons_of_mem _ member))
        (fun other member => below other (List.mem_cons_of_mem _ member)) (by simpa using enough)
      refine ⟨left, ?_⟩
      simp only [headStart_cons, kfreeSearch, node.next_eq, List.append_eq, headStart_append_cons]
      rw [if_pos next_ne, if_neg (by omega), reached]
      rfl

/-- The loop reaches the first block above the pointer when another block follows it. -/
theorem kfreeSearch_found {memory : Memory} {ptr fuel prev : Nat} {front back : List Span}
    {block : Span} (linked : Linked memory prev (front ++ block :: back) endOfHeap)
    (starts : ∀ other ∈ front ++ block :: back, other.start ≠ endOfHeap)
    (below : ∀ other ∈ front, other.start ≤ ptr) (above : ptr < block.start)
    (more : back ≠ []) (enough : front.length < fuel) :
    kfreeSearch memory ptr fuel (headStart front block.start) = some (block.start, true) := by
  obtain ⟨left, reached⟩ := kfreeSearch_skip linked starts below enough
  obtain ⟨behind, tail, rfl⟩ := List.exists_cons_of_ne_nil more
  have node : Node memory block _ _ := (Linked.append.mp linked).2.1
  have next_ne : behind.start ≠ endOfHeap := starts behind (by simp)
  rw [reached, kfreeSearch, node.next_eq, headStart_cons, if_pos next_ne, if_pos above]

/-- The loop stops at the last block without comparing it. -/
theorem kfreeSearch_last {memory : Memory} {ptr fuel prev : Nat} {front : List Span}
    {block : Span} (linked : Linked memory prev (front ++ [block]) endOfHeap)
    (starts : ∀ other ∈ front ++ [block], other.start ≠ endOfHeap)
    (below : ∀ other ∈ front, other.start ≤ ptr) (enough : front.length < fuel) :
    kfreeSearch memory ptr fuel (headStart front block.start) = some (block.start, false) := by
  obtain ⟨left, reached⟩ := kfreeSearch_skip linked starts below enough
  have node : Node memory block _ _ := (Linked.append.mp linked).2.1
  rw [reached, kfreeSearch, node.next_eq, headStart_nil, if_neg (by simp)]

/-- More fuel does not change the outcome of a search that has ended. -/
theorem kfreeSearch_mono {memory : Memory} {ptr fuel block : Nat} {result : Nat × Bool}
    (ended : kfreeSearch memory ptr fuel block = some result) (extra : Nat) :
    kfreeSearch memory ptr (fuel + extra) block = some result := by
  induction fuel generalizing block with
  | zero => cases ended
  | succ fuel ih =>
      rw [Nat.succ_add]
      simp only [kfreeSearch] at ended ⊢
      split_ifs at ended ⊢ with more above
      · exact ended
      · exact ih ended
      · exact ended

section Find

variable {heap : Heap} {front back : List Span} {block : Span} {ptr fuel : Nat}

theorem kfreeFind_single (list : FreeList heap [block]) :
    kfreeFind fuel heap ptr = some (block.start, true) := by
  have node := @FreeList.node _ [] _ _ list
  have first : heap.firstFree = block.start := list.first
  simp only [kfreeFind, first, node.next_eq, node.prev_eq, headStart_nil, lastStart_nil, and_self,
    if_true]

private theorem not_single (list : FreeList heap (front ++ block :: back))
    (several : front ≠ [] ∨ back ≠ []) :
    ¬(nextAt heap.memory heap.firstFree = endOfHeap ∧
      prevAt heap.memory heap.firstFree = startOfHeap) := by
  rintro ⟨next_end, -⟩
  cases front with
  | nil =>
      have node := list.node
      have first : heap.firstFree = block.start := list.first
      rw [first, node.next_eq, @FreeList.headStart_eq_end_iff _ [block] _ list] at next_end
      simp [next_end] at several
  | cons first front =>
      have node := @FreeList.node _ [] (front ++ block :: back) first list
      have head : heap.firstFree = first.start := list.first
      rw [head, node.next_eq, @FreeList.headStart_eq_end_iff _ [first] (front ++ block :: back)
        list] at next_end
      simp at next_end

/-- Among several free blocks the first one above the pointer is found. -/
theorem kfreeFind_above (list : FreeList heap (front ++ block :: back))
    (several : front ≠ [] ∨ back ≠ []) (below : ∀ other ∈ front, other.start ≤ ptr)
    (above : ptr < block.start) (enough : front.length < fuel) :
    kfreeFind fuel heap ptr = some (block.start, true) := by
  have first : heap.firstFree = headStart front block.start := by
    rw [list.first, headStart_append_cons]
  have starts : ∀ other ∈ front ++ block :: back, other.start ≠ endOfHeap :=
    fun other member => list.start_ne_end member
  rw [kfreeFind, if_neg (not_single list several), first]
  cases back with
  | nil =>
      have node := list.node
      rw [kfreeSearch_last list.linked starts below enough]
      simp [node.next_eq, above]
  | cons behind back =>
      rw [kfreeSearch_found list.linked starts below above (by simp) enough]
      simp

/-- Without a block above the pointer the search ends at the last block. -/
theorem kfreeFind_last (list : FreeList heap (front ++ [block])) (several : front ≠ [])
    (below : ∀ other ∈ front ++ [block], other.start ≤ ptr) (enough : front.length < fuel) :
    kfreeFind fuel heap ptr = some (block.start, false) := by
  have first : heap.firstFree = headStart front block.start := by
    rw [list.first, headStart_append_cons]
  have starts : ∀ other ∈ front ++ [block], other.start ≠ endOfHeap :=
    fun other member => list.start_ne_end member
  have low := below block (by simp)
  rw [kfreeFind, if_neg (not_single list (Or.inl several)), first,
    kfreeSearch_last list.linked starts (fun other member => below other (by simp [member])) enough]
  simp [show ¬ptr < block.start by omega]

end Find

/-! ## Relinking -/

section Release

variable {heap : Heap} {front back : List Span} {block freed : Span}

private theorem succ_mod_ne {value target : Nat} (small : value < wordSize) (pos : 0 < target)
    (ne : value + 1 ≠ target) : (value + 1) % wordSize ≠ target := by
  by_cases top : value + 1 = wordSize
  · rw [top, Nat.mod_self]
    omega
  · rw [Nat.mod_eq_of_lt (by omega)]
    exact ne

/-- The other free blocks stay clear of a freed block in front and of the block that it touches. -/
private theorem clear_of_touching (list : FreeList heap (block :: back))
    (apart : ∀ other ∈ block :: back, freed.Disjoint other) (adjacent : freed.stop = block.start) :
    ∀ other ∈ back, other.start + 24 ≤ freed.start ∨ block.stop ≤ other.start := by
  intro other member
  have room := list.room other (List.mem_cons_of_mem _ member)
  have from_freed := apart other (List.mem_cons_of_mem _ member)
  have from_block := (List.pairwise_cons.mp list.disjoint).1 other member
  have block_room := list.room block (by simp)
  simp only [freeHeaderSize, Span.stop] at room block_room adjacent ⊢
  simp only [Span.Disjoint, Span.stop] at from_freed from_block
  omega

/-- The list with the first block merged is well formed once its header and the link back to it are
in place. -/
private theorem freeList_merged (list : FreeList heap (block :: back))
    (bounds : 0 < freed.start ∧ freed.stop < wordSize)
    (apart : ∀ other ∈ block :: back, freed.Disjoint other) (adjacent : freed.stop = block.start)
    {after : Memory} (merged : Node after ⟨freed.start, freed.length + block.length⟩ startOfHeap
      (headStart back endOfHeap))
    (back_first : ∀ first tail, back = first :: tail →
      Node after first freed.start (headStart tail endOfHeap))
    (frame : ∀ address count,
      (∀ first tail, back = first :: tail → AvoidsHeader address count first.start) →
      address + count ≤ freed.start ∨ block.stop ≤ address →
        heap.memory.AgreeOn after address count) :
    FreeList ⟨after, freed.start⟩ (⟨freed.start, freed.length + block.length⟩ :: back) ∧
      ∀ address count, (∀ other ∈ back, AvoidsHeader address count other.start) →
        address + count ≤ freed.start ∨ block.stop ≤ address →
          heap.memory.AgreeOn after address count := by
  have away := clear_of_touching list apart adjacent
  have block_bounds := list.bounds block (by simp)
  have block_room := list.room block (by simp)
  have hole_stop : Span.stop ⟨freed.start, freed.length + block.length⟩ = block.stop := by
    simp only [Span.stop] at adjacent ⊢
    omega
  have new_bounds : ∀ other ∈ (⟨freed.start, freed.length + block.length⟩ : Span) :: back,
      freeHeaderSize ≤ other.length ∧ 0 < other.start ∧ other.stop < wordSize := by
    intro other member
    rcases List.mem_cons.mp member with rfl | old
    · rw [hole_stop]
      exact ⟨by dsimp only; omega, bounds.1, block_bounds.2⟩
    · exact ⟨list.room other (List.mem_cons_of_mem _ old),
        list.bounds other (List.mem_cons_of_mem _ old)⟩
  have new_disjoint : ((⟨freed.start, freed.length + block.length⟩ : Span) :: back).Pairwise
      Span.Disjoint := by
    obtain ⟨block_away, rest⟩ := List.pairwise_cons.mp list.disjoint
    refine List.pairwise_cons.mpr ⟨?_, rest⟩
    intro other member
    have from_hole := away other member
    have from_block := block_away other member
    have from_freed := apart other (List.mem_cons_of_mem _ member)
    simp only [Span.Disjoint, Span.stop] at *
    omega
  obtain ⟨linked, keeps⟩ := @FreeList.edit _ [] [block]
    [⟨freed.start, freed.length + block.length⟩] _ _ ⟨freed.start, freed.length + block.length⟩
    list (by rwa [hole_stop]) ⟨merged, trivial⟩ (by simp) back_first
    (by rw [hole_stop]; exact fun address count _ => frame address count)
  rw [hole_stop] at keeps
  exact ⟨⟨rfl, linked, fun other member => (new_bounds other member).1, new_disjoint,
    fun other member => (new_bounds other member).2⟩, keeps⟩

/-- `kfree` in front of the block that it touches stores the merged header, and the link back to it
if there is a block behind. -/
private theorem kfreeFront_touching (list : FreeList heap (block :: back))
    (bounds : 0 < freed.start ∧ freed.stop < wordSize) (adjacent : freed.stop = block.start) :
    kfreeFront heap block.start freed.start freed.length =
      ⟨if headStart back endOfHeap ≠ endOfHeap then
          setPrev (store heap.memory freed.start
            ⟨startOfHeap, headStart back endOfHeap, freed.length + block.length⟩)
            (headStart back endOfHeap) freed.start
        else store heap.memory freed.start
          ⟨startOfHeap, headStart back endOfHeap, freed.length + block.length⟩,
        freed.start⟩ := by
  have node := @FreeList.node _ [] _ _ list
  have block_bounds := list.bounds block (by simp)
  have block_room := list.room block (by simp)
  have start_lt := startOfHeap_lt
  have next_lt : headStart back endOfHeap < wordSize := by
    cases back with
    | nil => exact endOfHeap_lt
    | cons behind back =>
        have behind_bounds := list.bounds behind (by simp)
        simp only [headStart_cons, Span.stop] at behind_bounds ⊢
        omega
  simp only [Span.stop, freeHeaderSize] at bounds adjacent block_bounds block_room
  have contiguous : (freed.start + freed.length) % wordSize = block.start := by
    rw [adjacent, Nat.mod_eq_of_lt (by omega)]
  have moved : (block.start + wordSize - freed.length) % wordSize = freed.start := by
    rw [show block.start + wordSize - freed.length = freed.start + wordSize by omega,
      Nat.add_mod_right, Nat.mod_eq_of_lt (by omega)]
  have total : (block.length + freed.length) % wordSize = freed.length + block.length := by
    rw [Nat.add_comm, Nat.mod_eq_of_lt (by omega)]
  have next_moved : nextAt (store heap.memory freed.start
      ⟨startOfHeap, headStart back endOfHeap, freed.length + block.length⟩) freed.start =
        headStart back endOfHeap := by
    simp (disch := omega) only [nextAt_eq, store, setPrev_eq, setNext_eq, setSize_eq,
      read_write_word, Memory.read_write_disjoint]
  simp only [kfreeFront, contiguous, if_true, moved, load, node.prev_eq, node.next_eq,
    node.size_eq, lastStart_nil, total, next_moved]
  split_ifs <;> rfl

/-- A freed block that stops where the first free block starts is merged into it. -/
theorem kfreeFront_merge (list : FreeList heap (block :: back))
    (bounds : 0 < freed.start ∧ freed.stop < wordSize)
    (apart : ∀ other ∈ block :: back, freed.Disjoint other) (adjacent : freed.stop = block.start) :
    FreeList (kfreeFront heap block.start freed.start freed.length)
        (⟨freed.start, freed.length + block.length⟩ :: back) ∧
      ∀ address count, (∀ other ∈ back, AvoidsHeader address count other.start) →
        address + count ≤ freed.start ∨ block.stop ≤ address →
          heap.memory.AgreeOn (kfreeFront heap block.start freed.start freed.length).memory
            address count := by
  have away := clear_of_touching list apart adjacent
  have block_bounds := list.bounds block (by simp)
  have block_room := list.room block (by simp)
  have start_lt := startOfHeap_lt
  have end_lt := endOfHeap_lt
  rw [kfreeFront_touching list bounds adjacent]
  have merged := fun after => @freeList_merged _ _ _ _ list bounds apart adjacent after
  simp only [Span.stop, freeHeaderSize] at bounds adjacent block_bounds block_room
  cases back with
  | nil =>
      rw [headStart_nil, if_neg (by simp)]
      refine merged _ (Node.of_words (by simp only; omega) ?_) (by simp) ?_
      · simp (disch := omega) only [store, setPrev_eq, setNext_eq, setSize_eq, read_write_word,
          Memory.read_write_disjoint, headStart_nil, and_self]
      · intro address count _ outside
        simp only [Span.stop] at outside
        refine ((agreeOn_setPrev ?_ ?_).trans (agreeOn_setNext ?_ ?_)).trans
          (agreeOn_setSize ?_ ?_) <;> omega
  | cons behind back =>
      have behind_ne := list.start_ne_end (by simp : behind ∈ _)
      have behind_fits := list.fits behind (by simp)
      have behind_away := away behind (by simp)
      have behind_words := (@FreeList.node _ [block] _ _ list).words behind_fits
      simp only [Span.stop] at behind_away
      rw [headStart_cons, if_pos behind_ne]
      refine merged _ (Node.of_words (by simp only; omega) ?_) ?_ ?_
      · simp (disch := omega) only [store, setPrev_eq, setNext_eq, setSize_eq, read_write_word,
          Memory.read_write_disjoint, headStart_cons, and_self]
      · rintro first tail ⟨rfl, rfl⟩
        refine Node.of_words behind_fits ?_
        simp (disch := omega) only [store, setPrev_eq, setNext_eq, setSize_eq, read_write_word,
          Memory.read_write_disjoint, behind_words, and_self]
      · intro address count avoids outside
        have avoids_behind := avoids behind back rfl
        simp only [Span.stop, AvoidsHeader] at outside avoids_behind
        refine (((agreeOn_setPrev ?_ ?_).trans (agreeOn_setNext ?_ ?_)).trans
          (agreeOn_setSize ?_ ?_)).trans (agreeOn_setPrev ?_ ?_) <;> omega

/-- Inserting a freed block with room for a header keeps the list well formed once the links
around it are in place. -/
private theorem freeList_insert (list : FreeList heap (front ++ ([] ++ back)))
    (bounds : 0 < freed.start ∧ freed.stop < wordSize) (room : freeHeaderSize ≤ freed.length)
    (apart : ∀ other ∈ front ++ back, freed.Disjoint other) {after : Heap}
    (first : after.firstFree = headStart (front ++ freed :: back) 0)
    (node : Node after.memory freed (lastStart startOfHeap front) (headStart back endOfHeap))
    (front_last : ∀ init last, front = init ++ [last] →
      Node after.memory last (lastStart startOfHeap init) freed.start)
    (back_first : ∀ first tail, back = first :: tail →
      Node after.memory first freed.start (headStart tail endOfHeap))
    (frame : ∀ address count,
      (∀ init last, front = init ++ [last] → AvoidsHeader address count last.start) →
      (∀ first tail, back = first :: tail → AvoidsHeader address count first.start) →
      address + count ≤ freed.start ∨ freed.stop ≤ address →
        heap.memory.AgreeOn after.memory address count) :
    FreeList after (front ++ freed :: back) ∧
      ∀ address count, (∀ other ∈ front ++ back, AvoidsHeader address count other.start) →
        address + count ≤ freed.start ∨ freed.stop ≤ address →
          heap.memory.AgreeOn after.memory address count := by
  have clear : ∀ other ∈ front ++ back,
      other.start + 24 ≤ freed.start ∨ freed.stop ≤ other.start := by
    intro other member
    have other_room := list.room other member
    have other_apart := apart other member
    simp only [freeHeaderSize, Span.Disjoint, Span.stop] at other_room other_apart ⊢
    omega
  obtain ⟨linked, keeps⟩ := @FreeList.edit _ _ _ [freed] _ _ freed list clear ⟨node, trivial⟩
    front_last back_first frame
  have members : ∀ other ∈ front ++ freed :: back, other = freed ∨ other ∈ front ++ back := by
    intro other member
    simp only [List.mem_append, List.mem_cons] at member ⊢
    tauto
  refine ⟨⟨first, linked, ?_, ?_, ?_⟩, keeps⟩
  · intro other member
    rcases members other member with rfl | old
    · exact room
    · exact list.room other old
  · obtain ⟨inFront, inBack, cross⟩ := List.pairwise_append.mp list.disjoint
    refine List.pairwise_append.mpr ⟨inFront, List.pairwise_cons.mpr ⟨?_, inBack⟩, ?_⟩
    · exact fun other member => apart other (List.mem_append_right _ member)
    · intro other inside target member
      rcases List.mem_cons.mp member with rfl | old
      · exact (apart other (List.mem_append_left _ inside)).symm
      · exact cross other inside target old
  · intro other member
    rcases members other member with rfl | old
    · exact bounds
    · exact list.bounds other old

/-- A freed block that does not touch the first free block becomes the new head. -/
theorem kfreeFront_insert (list : FreeList heap (block :: back))
    (bounds : 0 < freed.start ∧ freed.stop < wordSize) (room : freeHeaderSize ≤ freed.length)
    (apart : ∀ other ∈ block :: back, freed.Disjoint other) (gap : freed.stop ≠ block.start) :
    FreeList (kfreeFront heap block.start freed.start freed.length) (freed :: block :: back) ∧
      ∀ address count, (∀ other ∈ block :: back, AvoidsHeader address count other.start) →
        address + count ≤ freed.start ∨ freed.stop ≤ address →
          heap.memory.AgreeOn (kfreeFront heap block.start freed.start freed.length).memory
            address count := by
  have start_lt := startOfHeap_lt
  have block_fits := list.fits block (by simp)
  have block_words := (@FreeList.node _ [] _ _ list).words block_fits
  have block_room := list.room block (by simp)
  have block_apart := apart block (by simp)
  have separate : (freed.start + freed.length) % wordSize ≠ block.start := by
    rw [← Span.stop, Nat.mod_eq_of_lt bounds.2]
    exact gap
  simp only [kfreeFront, separate, if_false]
  simp only [freeHeaderSize, Span.Disjoint, Span.stop] at bounds room block_apart block_room
  refine @freeList_insert _ [] (block :: back) _ list bounds room apart _ rfl
    (Node.of_words (by omega) ?_) (by simp) ?_ ?_
  · simp (disch := omega) only [setPrev_eq, setNext_eq, setSize_eq, read_write_word,
      Memory.read_write_disjoint, lastStart_nil, headStart_cons, and_self]
  · rintro first tail ⟨rfl, rfl⟩
    refine Node.of_words block_fits ?_
    simp (disch := omega) only [setPrev_eq, setNext_eq, setSize_eq, read_write_word,
      Memory.read_write_disjoint, block_words, and_self]
  · intro address count _ avoids outside
    have avoids_block := avoids block back rfl
    simp only [Span.stop, AvoidsHeader] at outside avoids_block
    refine (((agreeOn_setPrev ?_ ?_).trans (agreeOn_setNext ?_ ?_)).trans
      (agreeOn_setSize ?_ ?_)).trans (agreeOn_setPrev ?_ ?_) <;> omega

/-- Between two free blocks the merge tests compare with an address one byte off, so without a
one-byte gap the freed block is inserted on its own. -/
theorem kfreeBetween_insert {before : Span}
    (list : FreeList heap ((front ++ [before]) ++ block :: back))
    (bounds : 0 < freed.start ∧ freed.stop < wordSize) (room : freeHeaderSize ≤ freed.length)
    (apart : ∀ other ∈ (front ++ [before]) ++ block :: back, freed.Disjoint other)
    (gap_before : before.stop + 1 ≠ freed.start) (gap_block : freed.stop + 1 ≠ block.start) :
    FreeList (kfreeBetween heap block.start freed.start freed.length)
        ((front ++ [before]) ++ freed :: block :: back) ∧
      ∀ address count,
        (∀ other ∈ (front ++ [before]) ++ block :: back, AvoidsHeader address count other.start) →
        address + count ≤ freed.start ∨ freed.stop ≤ address →
          heap.memory.AgreeOn (kfreeBetween heap block.start freed.start freed.length).memory
            address count := by
  have node := list.node
  have before_node := @FreeList.node _ _ (block :: back) before (by simpa using list)
  have before_bounds := list.bounds before (by simp)
  have before_fits := list.fits before (by simp)
  have before_words := before_node.words before_fits
  have before_room := list.room before (by simp)
  have before_apart := apart before (by simp)
  have block_bounds := list.bounds block (by simp)
  have block_fits := list.fits block (by simp)
  have block_words := node.words block_fits
  have block_room := list.room block (by simp)
  have block_apart := apart block (by simp)
  have neighbours : AvoidsHeader before.start 24 block.start := by
    have headers := list.headers_apart
    simp only [List.append_assoc, List.cons_append, List.nil_append, List.pairwise_append,
      List.pairwise_cons, List.mem_cons, forall_eq_or_imp] at headers
    exact headers.2.1.1.1
  simp only [freeHeaderSize, Span.stop] at bounds room gap_before gap_block
  simp only [freeHeaderSize, Span.Disjoint, Span.stop] at before_bounds before_room before_apart
  simp only [freeHeaderSize, Span.Disjoint, Span.stop] at block_bounds block_room block_apart
  simp only [AvoidsHeader] at neighbours
  have end_ne : ((before.start + before.length) % wordSize + 1) % wordSize ≠ freed.start := by
    rw [Nat.mod_eq_of_lt before_bounds.2]
    exact succ_mod_ne before_bounds.2 bounds.1 gap_before
  have header_ne : (freed.start + freed.length + 1) % wordSize ≠ block.start :=
    succ_mod_ne bounds.2 block_bounds.1 gap_block
  simp only [kfreeBetween, node.prev_eq, lastStart_concat, before_node.size_eq, end_ne, header_ne,
    and_self, if_false]
  refine @freeList_insert _ (front ++ [before]) (block :: back) _ list bounds room apart _ ?_
    (Node.of_words (by omega) ?_) ?_ ?_ ?_
  · rw [list.first]
    simp
  · simp (disch := omega) only [setPrev_eq, setNext_eq, setSize_eq, read_write_word,
      Memory.read_write_disjoint, lastStart_concat, headStart_cons, and_self]
  · intro init last same
    obtain ⟨rfl, rfl⟩ := List.append_singleton_inj.mp same
    refine Node.of_words before_fits ?_
    simp (disch := omega) only [setPrev_eq, setNext_eq, setSize_eq, read_write_word,
      Memory.read_write_disjoint, before_words, and_self]
  · rintro first tail ⟨rfl, rfl⟩
    refine Node.of_words block_fits ?_
    simp (disch := omega) only [setPrev_eq, setNext_eq, setSize_eq, read_write_word,
      Memory.read_write_disjoint, block_words, and_self]
  · intro address count away_before away_block outside
    have avoids_before := away_before front before rfl
    have avoids_block := away_block block back rfl
    simp only [Span.stop, AvoidsHeader] at outside avoids_before avoids_block
    refine ((((agreeOn_setSize ?_ ?_).trans (agreeOn_setNext ?_ ?_)).trans
      (agreeOn_setPrev ?_ ?_)).trans (agreeOn_setPrev ?_ ?_)).trans
      (agreeOn_setNext ?_ ?_) <;> omega

/-- Behind the last free block the list stays terminated only if the payload's first word already
was the terminator. -/
theorem kfreeTail_append (list : FreeList heap (front ++ [block]))
    (bounds : 0 < freed.start ∧ freed.stop < wordSize) (room : freeHeaderSize ≤ freed.length)
    (apart : ∀ other ∈ front ++ [block], freed.Disjoint other) (behind : block.start < freed.start)
    (terminated : heap.memory.read (freed.start + 8) 8 = endOfHeap) :
    FreeList (kfreeTail heap block.start freed.start freed.length) ((front ++ [block]) ++ [freed]) ∧
      ∀ address count, (∀ other ∈ front ++ [block], AvoidsHeader address count other.start) →
        address + count ≤ freed.start ∨ freed.stop ≤ address →
          heap.memory.AgreeOn (kfreeTail heap block.start freed.start freed.length).memory
            address count := by
  have node := list.node
  have block_fits := list.fits block (by simp)
  have block_words := node.words block_fits
  have block_room := list.room block (by simp)
  have block_apart := apart block (by simp)
  simp only [freeHeaderSize, Span.Disjoint, Span.stop] at bounds room block_apart block_room
  simp only [kfreeTail, node.next_eq, headStart_nil, behind, behind.le, and_self, if_true]
  have inserted := @freeList_insert heap (front ++ [block]) [] freed (by simpa using list) bounds
    room (by simpa using apart) ⟨setSize (setPrev (setNext heap.memory block.start freed.start)
      freed.start block.start) freed.start freed.length, heap.firstFree⟩ (by rw [list.first]; simp)
        (Node.of_words (by omega) ?_) ?_ (by simp) ?_
  · simpa using inserted
  · simp (disch := omega) only [setPrev_eq, setNext_eq, setSize_eq, read_write_word,
      Memory.read_write_disjoint, terminated, lastStart_concat, headStart_nil, and_self]
  · intro init last same
    obtain ⟨rfl, rfl⟩ := List.append_singleton_inj.mp same
    refine Node.of_words block_fits ?_
    simp (disch := omega) only [setPrev_eq, setNext_eq, setSize_eq, read_write_word,
      Memory.read_write_disjoint, block_words, and_self]
  · intro address count away_block _ outside
    have avoids_block := away_block front block rfl
    simp only [Span.stop, AvoidsHeader] at outside avoids_block
    refine ((agreeOn_setNext ?_ ?_).trans (agreeOn_setPrev ?_ ?_)).trans
      (agreeOn_setSize ?_ ?_) <;> omega

end Release

/-! ## The whole call -/

section Call

variable {heap : Heap} {front back : List Span} {block freed : Span} {fuel : Nat}

private theorem kfree_eq (bounds : 0 < freed.start ∧ freed.stop < wordSize)
    (header : heap.memory.read freed.start 8 + kernelMallocHeaderSize = freed.length)
    (nonempty : heap.firstFree ≠ 0) {target : Nat} {found : Bool}
    (search : kfreeFind fuel heap (freed.start + 8) = some (target, found)) :
    kfree fuel heap (freed.start + 8) =
      if ¬found then some (kfreeTail heap target freed.start freed.length)
      else if prevAt heap.memory target = startOfHeap then
        some (kfreeFront heap target freed.start freed.length)
      else some (kfreeBetween heap target freed.start freed.length) := by
  simp only [Span.stop] at bounds
  have headerAdr : (freed.start + 8 + wordSize - kernelMallocHeaderSize) % wordSize =
      freed.start := by
    rw [show freed.start + 8 + wordSize - kernelMallocHeaderSize = freed.start + wordSize by
      simp only [kernelMallocHeaderSize]; omega, Nat.add_mod_right, Nat.mod_eq_of_lt (by omega)]
  have size : (heap.memory.read freed.start 8 + kernelMallocHeaderSize) % wordSize =
      freed.length := by
    rw [header, Nat.mod_eq_of_lt (by omega)]
  simp only [kfree, headerAdr, size, search, nonempty, if_false, Option.bind_eq_bind,
    Option.bind_some]
  rw [if_neg (by omega)]

private theorem firstFree_ne (list : FreeList heap (front ++ block :: back)) :
    heap.firstFree ≠ 0 := by
  rw [list.first]
  cases front with
  | nil => exact list.start_pos (by simp)
  | cons first front => exact list.start_pos (by simp)

/-- The block found by the search is the head of the list or has a predecessor. -/
theorem kfree_found (list : FreeList heap (front ++ block :: back))
    (bounds : 0 < freed.start ∧ freed.stop < wordSize)
    (header : heap.memory.read freed.start 8 + kernelMallocHeaderSize = freed.length)
    (search : kfreeFind fuel heap (freed.start + 8) = some (block.start, true)) :
    kfree fuel heap (freed.start + 8) =
      some (if front = [] then kfreeFront heap block.start freed.start freed.length
        else kfreeBetween heap block.start freed.start freed.length) := by
  rw [kfree_eq bounds header (firstFree_ne list) search, list.node.prev_eq, if_neg (by simp)]
  simp only [list.lastStart_eq_start_iff]
  split_ifs <;> rfl

theorem kfree_behind (list : FreeList heap (front ++ [block]))
    (bounds : 0 < freed.start ∧ freed.stop < wordSize)
    (header : heap.memory.read freed.start 8 + kernelMallocHeaderSize = freed.length)
    (search : kfreeFind fuel heap (freed.start + 8) = some (block.start, false)) :
    kfree fuel heap (freed.start + 8) =
      some (kfreeTail heap block.start freed.start freed.length) := by
  rw [kfree_eq bounds header (firstFree_ne list) search]
  rfl

end Call

/-- Free blocks in address order. -/
def Ascending (free : List Span) : Prop :=
  free.Pairwise fun left right => left.start < right.start

/-- A block goes back into the list at its place: it merges with the first free block, or it has
room for a header and lies below some free block, or the list has several blocks and the payload
already holds the terminator. -/
def ReturnsInPlace (memory : Memory) (free : List Span) (freed : Span) : Prop :=
  (∃ first rest, free = first :: rest ∧ freed.stop = first.start ∧
      (rest = [] ∨ freed.start + 8 < first.start)) ∨
    freeHeaderSize ≤ freed.length ∧
      ((∃ block ∈ free, freed.start + 8 < block.start) ∨
        2 ≤ free.length ∧ memory.read (freed.start + 8) 8 = endOfHeap)

/-- How the list of free blocks takes up a freed block. -/
inductive Inserted (freed : Span) : List Span → List Span → Prop
  | merge {first : Span} {rest : List Span} (adjacent : freed.stop = first.start) :
      Inserted freed (first :: rest) (⟨freed.start, freed.length + first.length⟩ :: rest)
  | insert (front back : List Span) :
      Inserted freed (front ++ back) (front ++ freed :: back)

/-- A freed block together with the old list covers what the new list covers. -/
theorem Inserted.tiles {freed : Span} {free after others : List Span} {low high : Nat}
    (inserted : Inserted freed free after)
    (tiles : Span.Tiles low high (freed :: (free ++ others))) :
    Span.Tiles low high (after ++ others) := by
  cases inserted with
  | merge adjacent => exact tiles.join adjacent
  | insert front back =>
      refine tiles.perm (List.perm_iff_count.mpr fun span => ?_)
      simp only [List.count_append, List.count_cons]
      omega

/-- Outcome of `kfree` on a well-formed list. -/
structure Released (heap after : Heap) (free : List Span) (freed : Span) (new : List Span) :
    Prop where
  list : FreeList after new
  inserted : Inserted freed free new
  frame : ∀ span : Span, 0 < span.length → (∀ other ∈ freed :: free, span.Disjoint other) →
    heap.memory.AgreeOn after.memory span.start span.length

section Specification

variable {heap : Heap} {front back free : List Span} {block freed : Span} {fuel : Nat}

private theorem avoids_of_disjoint (list : FreeList heap free) {span : Span}
    (apart : ∀ other ∈ free, span.Disjoint other) :
    ∀ other ∈ free, AvoidsHeader span.start span.length other.start := by
  intro other member
  have room := list.room other member
  have separate := apart other member
  simp only [freeHeaderSize, Span.Disjoint, Span.stop, AvoidsHeader] at room separate ⊢
  omega

/-- The head of the list is found: the freed block merges with it or goes in front. -/
private theorem released_front (list : FreeList heap (block :: back))
    (bounds : 0 < freed.start ∧ freed.stop < wordSize)
    (apart : ∀ other ∈ block :: back, freed.Disjoint other)
    (room : freed.stop = block.start ∨ freeHeaderSize ≤ freed.length) :
    Released heap (kfreeFront heap block.start freed.start freed.length) (block :: back) freed
      (if freed.stop = block.start then ⟨freed.start, freed.length + block.length⟩ :: back
        else freed :: block :: back) := by
  split_ifs with adjacent
  · obtain ⟨merged, keeps⟩ := kfreeFront_merge list bounds apart adjacent
    refine ⟨merged, .merge adjacent, fun span span_pos away => keeps _ _ ?_ ?_⟩
    · exact fun other member => avoids_of_disjoint list
        (fun other member => away other (List.mem_cons_of_mem _ member)) other
        (List.mem_cons_of_mem _ member)
    · have from_freed := away freed (by simp)
      have from_block := away block (by simp)
      have block_room := list.room block (by simp)
      simp only [Span.Disjoint, Span.stop, freeHeaderSize] at *
      omega
  · have room := room.resolve_left adjacent
    obtain ⟨put, keeps⟩ := kfreeFront_insert list bounds room apart adjacent
    refine ⟨put, .insert [] (block :: back), fun span _ away => keeps _ _ ?_ ?_⟩
    · exact avoids_of_disjoint list fun other member => away other (List.mem_cons_of_mem _ member)
    · exact away freed (by simp)

/-- A block with a predecessor is found: the freed block goes between the two. -/
private theorem released_between {before : Span}
    (list : FreeList heap ((front ++ [before]) ++ block :: back))
    (bounds : 0 < freed.start ∧ freed.stop < wordSize)
    (apart : ∀ other ∈ (front ++ [before]) ++ block :: back, freed.Disjoint other)
    (gaps : ∀ other ∈ (front ++ [before]) ++ block :: back,
      other.stop + 1 ≠ freed.start ∧ freed.stop + 1 ≠ other.start)
    (room : freeHeaderSize ≤ freed.length) :
    Released heap (kfreeBetween heap block.start freed.start freed.length)
      ((front ++ [before]) ++ block :: back) freed
      ((front ++ [before]) ++ freed :: block :: back) := by
  obtain ⟨put, keeps⟩ := kfreeBetween_insert list bounds room apart
    (gaps before (by simp)).1 (gaps block (by simp)).2
  refine ⟨put, .insert (front ++ [before]) (block :: back), fun span _ away => keeps _ _ ?_ ?_⟩
  · exact avoids_of_disjoint list fun other member => away other (List.mem_cons_of_mem _ member)
  · exact away freed (by simp)

private theorem ascending_front {first : Span} {rest : List Span}
    (ascending : Ascending (first :: rest)) {start length : Nat} (below : start < first.start) :
    Ascending (⟨start, length⟩ :: rest) ∧ Ascending (⟨start, length⟩ :: first :: rest) := by
  obtain ⟨later, inRest⟩ := List.pairwise_cons.mp ascending
  have rest_above : ∀ other ∈ rest, start < other.start :=
    fun other member => below.trans (later other member)
  refine ⟨List.pairwise_cons.mpr ⟨rest_above, inRest⟩, List.pairwise_cons.mpr ⟨?_, ascending⟩⟩
  intro other member
  rcases List.mem_cons.mp member with rfl | old
  · exact below
  · exact rest_above other old

private theorem ascending_insert (ascending : Ascending (front ++ back))
    (below : ∀ other ∈ front, other.start < freed.start)
    (above : ∀ other ∈ back, freed.start < other.start) :
    Ascending (front ++ freed :: back) := by
  obtain ⟨inFront, inBack, cross⟩ := List.pairwise_append.mp ascending
  refine List.pairwise_append.mpr ⟨inFront, List.pairwise_cons.mpr ⟨above, inBack⟩, ?_⟩
  intro other inside target member
  rcases List.mem_cons.mp member with rfl | old
  · exact below other inside
  · exact cross other inside target old

/-- The freed block has room for a header and some free block lies above it. -/
private theorem released_below (list : FreeList heap (front ++ block :: back))
    (bounds : 0 < freed.start ∧ freed.stop < wordSize)
    (header : heap.memory.read freed.start 8 + kernelMallocHeaderSize = freed.length)
    (apart : ∀ other ∈ front ++ block :: back, freed.Disjoint other)
    (gaps : ∀ other ∈ front ++ block :: back,
      other.stop + 1 ≠ freed.start ∧ freed.stop + 1 ≠ other.start)
    (room : freeHeaderSize ≤ freed.length) (below : ∀ other ∈ front, other.start ≤ freed.start + 8)
    (above : freed.start + 8 < block.start) :
    ∃ after new, (∀ fuel, front.length < fuel → kfree fuel heap (freed.start + 8) = some after) ∧
      Released heap after (front ++ block :: back) freed new ∧
      (Ascending (front ++ block :: back) → Ascending new) := by
  have search : ∀ fuel, front.length < fuel →
      kfreeFind fuel heap (freed.start + 8) = some (block.start, true) := by
    intro fuel enough
    by_cases single : front = [] ∧ back = []
    · obtain ⟨rfl, rfl⟩ := single
      exact kfreeFind_single list
    · exact kfreeFind_above list (by tauto) below above enough
  rcases List.eq_nil_or_concat front with rfl | ⟨init, before, rfl⟩
  · refine ⟨_, _, fun fuel enough => (kfree_found list bounds header (search fuel enough)).trans
      (by rw [if_pos rfl]), released_front list bounds apart (Or.inr room), ?_⟩
    intro ascending
    have lower : freed.start < block.start := by omega
    split_ifs
    · exact (ascending_front ascending lower).1
    · exact (ascending_front ascending lower).2
  · rw [List.concat_eq_append] at *
    refine ⟨_, _, fun fuel enough => (kfree_found list bounds header (search fuel enough)).trans
      (by rw [if_neg (by simp)]), released_between list bounds apart gaps room, ?_⟩
    intro ascending
    refine ascending_insert ascending ?_ ?_
    · intro other member
      have low := below other member
      have separate := apart other (List.mem_append_left _ member)
      have other_room := list.room other (List.mem_append_left _ member)
      simp only [freeHeaderSize, Span.Disjoint, Span.stop] at room separate other_room
      omega
    · intro other member
      obtain ⟨_, tail, _⟩ := List.pairwise_append.mp ascending
      rcases List.mem_cons.mp member with rfl | behind
      · omega
      · have := (List.pairwise_cons.mp tail).1 other behind
        omega

/-- The freed block lies behind every free block and its payload holds the terminator. -/
private theorem released_behind (list : FreeList heap (front ++ [block])) (several : front ≠ [])
    (bounds : 0 < freed.start ∧ freed.stop < wordSize)
    (header : heap.memory.read freed.start 8 + kernelMallocHeaderSize = freed.length)
    (apart : ∀ other ∈ front ++ [block], freed.Disjoint other)
    (room : freeHeaderSize ≤ freed.length)
    (below : ∀ other ∈ front ++ [block], other.start ≤ freed.start + 8)
    (terminated : heap.memory.read (freed.start + 8) 8 = endOfHeap) :
    ∃ after new, (∀ fuel, front.length < fuel → kfree fuel heap (freed.start + 8) = some after) ∧
      Released heap after (front ++ [block]) freed new ∧
      (Ascending (front ++ [block]) → Ascending new) := by
  have before : ∀ other ∈ front ++ [block], other.start < freed.start := by
    intro other member
    have low := below other member
    have separate := apart other member
    have other_room := list.room other member
    simp only [freeHeaderSize, Span.Disjoint, Span.stop] at room separate other_room
    omega
  obtain ⟨put, keeps⟩ := kfreeTail_append list bounds room apart (before block (by simp)) terminated
  refine ⟨_, _, fun fuel enough => kfree_behind list bounds header
    (kfreeFind_last list several below enough), ⟨put, ?_, fun span _ away => keeps _ _ ?_ ?_⟩, ?_⟩
  · simpa using @Inserted.insert freed (front ++ [block]) []
  · exact avoids_of_disjoint list fun other member => away other (List.mem_cons_of_mem _ member)
  · exact away freed (by simp)
  · intro ascending
    exact @ascending_insert _ [] _ (by simpa using ascending) before (by simp)

/-- The head of the list is found, because it is the only block or because it lies above. -/
private theorem kfree_head (list : FreeList heap (block :: back))
    (bounds : 0 < freed.start ∧ freed.stop < wordSize)
    (header : heap.memory.read freed.start 8 + kernelMallocHeaderSize = freed.length)
    (found : back = [] ∨ freed.start + 8 < block.start) (enough : 0 < fuel) :
    kfree fuel heap (freed.start + 8) =
      some (kfreeFront heap block.start freed.start freed.length) := by
  have search : kfreeFind fuel heap (freed.start + 8) = some (block.start, true) := by
    by_cases single : back = []
    · subst single
      exact kfreeFind_single list
    · exact @kfreeFind_above _ [] _ _ _ _ list (Or.inr single) (by simp)
        (found.resolve_left single) enough
  rw [@kfree_found _ [] _ _ _ _ list bounds header search, if_pos rfl]

private theorem released_head (list : FreeList heap (block :: back))
    (bounds : 0 < freed.start ∧ freed.stop < wordSize)
    (header : heap.memory.read freed.start 8 + kernelMallocHeaderSize = freed.length)
    (apart : ∀ other ∈ block :: back, freed.Disjoint other)
    (found : back = [] ∨ freed.start + 8 < block.start)
    (room : freed.stop = block.start ∨ freeHeaderSize ≤ freed.length) :
    ∃ after new, (∀ fuel, 0 < fuel → kfree fuel heap (freed.start + 8) = some after) ∧
      Released heap after (block :: back) freed new ∧
      (freed.start < block.start → Ascending (block :: back) → Ascending new) := by
  refine ⟨_, _, fun fuel enough => kfree_head list bounds header found enough,
    released_front list bounds apart room, ?_⟩
  intro lower ascending
  split_ifs
  · exact (ascending_front ascending lower).1
  · exact (ascending_front ascending lower).2

theorem kfree_merges (list : FreeList heap (block :: back))
    (bounds : 0 < freed.start ∧ freed.stop < wordSize)
    (header : heap.memory.read freed.start 8 + kernelMallocHeaderSize = freed.length)
    (apart : ∀ other ∈ block :: back, freed.Disjoint other) (adjacent : freed.stop = block.start)
    (found : back = [] ∨ freed.start + 8 < block.start) :
    ∃ after, (∀ fuel, 0 < fuel → kfree fuel heap (freed.start + 8) = some after) ∧
      Released heap after (block :: back) freed
        (⟨freed.start, freed.length + block.length⟩ :: back) := by
  have merged := released_front list bounds apart (Or.inl adjacent)
  rw [if_pos adjacent] at merged
  exact ⟨_, fun fuel enough => kfree_head list bounds header found enough, merged⟩

/-- `kfree` of a block that returns to its place, or that joins a single free block. -/
theorem kfree_spec (list : FreeList heap free)
    (bounds : 0 < freed.start ∧ freed.stop < wordSize)
    (header : heap.memory.read freed.start 8 + kernelMallocHeaderSize = freed.length)
    (apart : ∀ other ∈ free, freed.Disjoint other)
    (gaps : ∀ other ∈ free, other.stop + 1 ≠ freed.start ∧ freed.stop + 1 ≠ other.start)
    (returns : ReturnsInPlace heap.memory free freed ∨
      free.length = 1 ∧ freeHeaderSize ≤ freed.length) :
    ∃ after new, (∀ fuel, free.length < fuel → kfree fuel heap (freed.start + 8) = some after) ∧
      Released heap after free freed new ∧
      (ReturnsInPlace heap.memory free freed → Ascending free → Ascending new) := by
  by_cases above : freeHeaderSize ≤ freed.length ∧ ∃ block ∈ free, freed.start + 8 < block.start
  · obtain ⟨room, target, target_mem, target_above⟩ := above
    obtain ⟨block, first_above⟩ := Option.isSome_iff_exists.mp
      (List.find?_isSome (p := fun block : Span => decide (freed.start + 8 < block.start)) |>.mpr
        ⟨target, target_mem, by simpa using target_above⟩)
    obtain ⟨block_above, front, back, rfl, below⟩ :=
      List.find?_eq_some_iff_append.mp first_above
    obtain ⟨after, new, run, released, keeps⟩ := released_below list bounds header apart gaps room
      (fun other member => by simpa using below other member) (by simpa using block_above)
    refine ⟨after, new, fun fuel enough => run fuel ?_, released, fun _ => keeps⟩
    rw [List.length_append] at enough
    omega
  · rcases returns with (⟨first, rest, rfl, adjacent, found⟩ | ⟨room, higher | ⟨several, ended⟩⟩)
      | ⟨single, room⟩
    · obtain ⟨after, new, run, released, keeps⟩ :=
        released_head list bounds header apart found (Or.inl adjacent)
      refine ⟨after, new, fun fuel enough => run fuel (by omega), released, fun _ => keeps ?_⟩
      simp only [Span.stop] at adjacent
      simp only [kernelMallocHeaderSize] at header
      omega
    · exact absurd ⟨room, higher⟩ above
    · obtain ⟨front, block, rfl⟩ := (List.eq_nil_or_concat free).resolve_left (by
        rintro rfl
        simp at several)
      rw [List.concat_eq_append] at *
      have several : front ≠ [] := by
        rintro rfl
        simp at several
      have below : ∀ other ∈ front ++ [block], other.start ≤ freed.start + 8 := by
        intro other member
        exact Nat.le_of_not_lt fun higher => above ⟨room, other, member, higher⟩
      obtain ⟨after, new, run, released, keeps⟩ :=
        released_behind list several bounds header apart room below ended
      refine ⟨after, new, fun fuel enough => run fuel ?_, released, fun _ => keeps⟩
      rw [List.length_append] at enough
      omega
    · obtain ⟨block, rfl⟩ := List.length_eq_one_iff.mp single
      obtain ⟨after, new, run, released, keeps⟩ :=
        released_head list bounds header apart (Or.inl rfl) (Or.inr room)
      refine ⟨after, new, fun fuel enough => run fuel (by omega), released, fun inPlace => keeps ?_⟩
      rcases inPlace with ⟨first, rest, same, adjacent, -⟩ | ⟨-, higher | ⟨several, -⟩⟩
      · obtain ⟨rfl, rfl⟩ := List.cons.inj same
        simp only [Span.stop] at adjacent
        simp only [kernelMallocHeaderSize] at header
        omega
      · exact absurd ⟨room, higher⟩ above
      · simp at several

end Specification

/-- More fuel does not change the outcome of a call that has returned. -/
theorem kfree_mono {heap result : Heap} {ptr fuel : Nat}
    (returned : kfree fuel heap ptr = some result) (extra : Nat) :
    kfree (fuel + extra) heap ptr = some result := by
  have find_mono : ∀ outcome, kfreeFind fuel heap ptr = some outcome →
      kfreeFind (fuel + extra) heap ptr = some outcome := by
    intro outcome found
    unfold kfreeFind at found ⊢
    split_ifs at found ⊢ with single
    · exact found
    · obtain ⟨stop, search, rest⟩ := Option.bind_eq_some_iff.mp found
      rw [kfreeSearch_mono search extra]
      exact rest
  simp only [kfree] at returned ⊢
  split_ifs at returned ⊢ with null empty
  · exact returned
  · exact returned
  · obtain ⟨outcome, found, rest⟩ := Option.bind_eq_some_iff.mp returned
    rw [find_mono outcome found]
    exact rest

end PellOs

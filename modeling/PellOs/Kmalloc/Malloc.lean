import PellOs.Kmalloc.FreeList

/-!
# Allocation from the free list

`kmalloc` takes the first block that fits.  When the rest of that block is empty or has room for a
header of its own, the effect on the list is local: the block disappears or shrinks in place, and
only its neighbours' link words and its own bytes change.
-/

namespace PellOs

open FreeMemHeader

/-- The part of a block that stays free after taking `allocSize` bytes from its start. -/
def leftover (block : Span) (allocSize : Nat) : List Span :=
  if block.length = allocSize then []
  else [⟨block.start + allocSize, block.length - allocSize⟩]

theorem leftover_exact {block : Span} {allocSize : Nat} (exact_fit : block.length = allocSize) :
    leftover block allocSize = [] := if_pos exact_fit

theorem leftover_split {block : Span} {allocSize : Nat}
    (split : allocSize + freeHeaderSize ≤ block.length) :
    leftover block allocSize = [⟨block.start + allocSize, block.length - allocSize⟩] := by
  apply if_neg
  simp only [freeHeaderSize] at split
  omega

/-- Effect of unlinking or shrinking `block` on the memory. -/
structure Taken (before after : Memory) (front : List Span) (block : Span) (back : List Span)
    (allocSize : Nat) : Prop where
  linked : Linked after startOfHeap (front ++ (leftover block allocSize ++ back)) endOfHeap
  frame : ∀ address count, (∀ other ∈ front ++ back, AvoidsHeader address count other.start) →
    address + count ≤ block.start + allocSize ∨ block.stop ≤ address →
      before.AgreeOn after address count

section Take

variable {heap : Heap} {front back : List Span} {block : Span} {allocSize : Nat}

/-- Every other header of the list avoids the whole block that is taken. -/
private theorem apart_of_mem (list : FreeList heap (front ++ block :: back)) :
    ∀ other ∈ front ++ back,
      other.start + 24 ≤ block.start ∨ block.start + block.length ≤ other.start := by
  intro other member
  have room : freeHeaderSize ≤ other.length := list.room other (mem_insert_middle member)
  have separate : other.Disjoint block := by
    obtain ⟨_, tail, cross⟩ := List.pairwise_append.mp list.disjoint
    rcases List.mem_append.mp member with left | right
    · exact cross other left block List.mem_cons_self
    · exact ((List.pairwise_cons.mp tail).1 other right).symm
  simp only [freeHeaderSize, Span.Disjoint, Span.stop] at room separate
  omega

/-- The edits `kmalloc` makes around a block stay in the neighbours' headers and in the part of the
block behind the allocation. -/
private theorem taken_of_edits (list : FreeList heap (front ++ block :: back)) {after : Memory}
    (middle : Linked after (lastStart startOfHeap front) (leftover block allocSize)
      (headStart back endOfHeap))
    (front_last : ∀ init last, front = init ++ [last] →
      Node after last (lastStart startOfHeap init)
        (headStart (leftover block allocSize ++ back) endOfHeap))
    (back_first : ∀ first tail, back = first :: tail →
      Node after first (lastStart (lastStart startOfHeap front) (leftover block allocSize))
        (headStart tail endOfHeap))
    (frame : ∀ address count,
      (∀ init last, front = init ++ [last] → AvoidsHeader address count last.start) →
      (∀ first tail, back = first :: tail → AvoidsHeader address count first.start) →
      address + count ≤ block.start + allocSize ∨ block.stop ≤ address →
        heap.memory.AgreeOn after address count)
    (fit : allocSize ≤ block.length) :
    Taken heap.memory after front block back allocSize := by
  let hole : Span := ⟨block.start + allocSize, block.length - allocSize⟩
  have hole_stop : hole.stop = block.stop := by
    simp only [hole, Span.stop]
    omega
  have apart := apart_of_mem list
  have clear : ∀ other ∈ front ++ back,
      other.start + 24 ≤ hole.start ∨ hole.stop ≤ other.start := by
    intro other member
    have := apart other member
    rw [hole_stop]
    simp only [hole, Span.stop]
    omega
  obtain ⟨linked, keeps⟩ := @FreeList.edit _ _ [block] _ _ _ hole list clear middle front_last
    back_first (by rwa [hole_stop])
  rw [hole_stop] at keeps
  exact ⟨linked, keeps⟩

private theorem take_only (list : FreeList heap ([] ++ block :: []))
    (room : block.length = allocSize ∨ allocSize + freeHeaderSize ≤ block.length) :
    Taken heap.memory (kmallocTake heap block.start allocSize).memory [] block [] allocSize ∧
      (kmallocTake heap block.start allocSize).firstFree =
        headStart (leftover block allocSize) 0 := by
  have node := list.node
  have bounds := list.bounds block (by simp)
  have start_lt := startOfHeap_lt
  have end_lt := endOfHeap_lt
  simp only [Span.stop] at bounds
  simp only [kmallocTake, load, node.prev_eq, node.next_eq, node.size_eq, lastStart_nil,
    headStart_nil, and_self, if_true]
  rcases room with exact_fit | split
  · rw [if_pos (by omega)]
    refine ⟨taken_of_edits list ?_ (by simp) (by simp) (fun _ _ _ _ _ => .refl _ _ _) (by omega),
      ?_⟩ <;>
      rw [leftover_exact exact_fit] <;> trivial
  · have new := leftover_split split
    simp only [freeHeaderSize] at split
    rw [if_neg (by omega), Nat.mod_eq_of_lt (by omega)]
    refine ⟨taken_of_edits list ?_ (by simp) (by simp) ?_ (by omega), by rw [new]; rfl⟩
    · rw [new]
      refine ⟨Node.of_words (by simp only; omega) ?_, trivial⟩
      simp (disch := omega) only [setPrev_eq, setNext_eq, setSize_eq, read_write_word,
        Memory.read_write_disjoint, lastStart_nil, headStart_nil, and_self]
    · intro address count _ _ outside
      simp only [Span.stop] at outside
      refine ((agreeOn_setPrev ?_ ?_).trans (agreeOn_setNext ?_ ?_)).trans
        (agreeOn_setSize ?_ ?_) <;> omega

private theorem take_first {behind : Span} (list : FreeList heap ([] ++ block :: behind :: back))
    (room : block.length = allocSize ∨ allocSize + freeHeaderSize ≤ block.length) :
    Taken heap.memory (kmallocTake heap block.start allocSize).memory [] block (behind :: back)
        allocSize ∧
      (kmallocTake heap block.start allocSize).firstFree =
        headStart (leftover block allocSize ++ behind :: back) 0 := by
  have node := list.node
  have bounds := list.bounds block (by simp)
  have start_lt := startOfHeap_lt
  have behind_ne := list.start_ne_end (by simp : behind ∈ _)
  have behind_fits := list.fits behind (by simp)
  have behind_apart := apart_of_mem list behind (by simp)
  have behind_words := (@FreeList.node _ [block] _ _ list).words behind_fits
  simp only [Span.stop] at bounds
  simp only [kmallocTake, load, node.prev_eq, node.next_eq, node.size_eq, lastStart_nil,
    headStart_cons, behind_ne, and_false, if_false, if_true]
  rcases room with exact_fit | split
  · rw [if_pos (by omega)]
    refine ⟨taken_of_edits list ?_ (by simp) ?_ ?_ (by omega), ?_⟩
    · rw [leftover_exact exact_fit]
      trivial
    · rintro first tail ⟨rfl, rfl⟩
      rw [leftover_exact exact_fit]
      refine Node.of_words behind_fits ?_
      simp (disch := omega) only [setPrev_eq, read_write_word, Memory.read_write_disjoint,
        behind_words, lastStart_nil, and_self]
    · intro address count _ away _
      exact agreeOn_setPrev behind_fits (away behind back rfl)
    · rw [leftover_exact exact_fit]
      rfl
  · have new := leftover_split split
    simp only [freeHeaderSize] at split
    have next_free : nextAt (setNext heap.memory (block.start + allocSize) behind.start)
        (block.start + allocSize) = behind.start := by
      simp (disch := omega) only [nextAt_eq, setNext_eq, read_write_word]
    rw [if_neg (by omega), Nat.mod_eq_of_lt (by omega)]
    simp only [next_free]
    refine ⟨taken_of_edits list ?_ (by simp) ?_ ?_ (by omega), by rw [new]; rfl⟩
    · rw [new]
      refine ⟨Node.of_words (by simp only; omega) ?_, trivial⟩
      simp (disch := omega) only [setPrev_eq, setNext_eq, setSize_eq, read_write_word,
        Memory.read_write_disjoint, lastStart_nil, headStart_nil, headStart_cons, and_self]
    · rintro first tail ⟨rfl, rfl⟩
      rw [new]
      refine Node.of_words behind_fits ?_
      simp (disch := omega) only [setPrev_eq, setNext_eq, setSize_eq, read_write_word,
        Memory.read_write_disjoint, behind_words, lastStart_cons, lastStart_nil, and_self]
    · intro address count _ away outside
      have avoids := away behind back rfl
      simp only [Span.stop, AvoidsHeader] at outside avoids
      refine (((agreeOn_setNext ?_ ?_).trans (agreeOn_setPrev ?_ ?_)).trans
        (agreeOn_setSize ?_ ?_)).trans (agreeOn_setPrev ?_ ?_) <;> omega

private theorem take_last {before : Span}
    (list : FreeList heap ((front ++ [before]) ++ block :: []))
    (room : block.length = allocSize ∨ allocSize + freeHeaderSize ≤ block.length) :
    Taken heap.memory (kmallocTake heap block.start allocSize).memory (front ++ [before]) block []
        allocSize ∧
      (kmallocTake heap block.start allocSize).firstFree = heap.firstFree := by
  have node := list.node
  have bounds := list.bounds block (by simp)
  have end_lt := endOfHeap_lt
  have before_ne := list.start_pos (by simp : before ∈ _)
  have before_fits := list.fits before (by simp)
  have before_apart := apart_of_mem list before (by simp)
  have before_words := (@FreeList.node _ _ [block] before (by simpa using list)).words before_fits
  simp only [Span.stop] at bounds
  simp only [kmallocTake, load, node.prev_eq, node.next_eq, node.size_eq, lastStart_concat,
    headStart_nil, before_ne, false_and, if_false, if_true]
  rcases room with exact_fit | split
  · rw [if_pos (by omega)]
    refine ⟨taken_of_edits list ?_ ?_ (by simp) ?_ (by omega), rfl⟩
    · rw [leftover_exact exact_fit]
      trivial
    · intro init last same
      obtain ⟨rfl, rfl⟩ := List.append_singleton_inj.mp same
      rw [leftover_exact exact_fit]
      refine Node.of_words before_fits ?_
      simp (disch := omega) only [setNext_eq, read_write_word, Memory.read_write_disjoint,
        before_words, List.append_nil, headStart_nil, and_self]
    · intro address count away _ _
      exact agreeOn_setNext before_fits (away front before rfl)
  · have new := leftover_split split
    simp only [freeHeaderSize] at split
    have prev_free : prevAt (setPrev heap.memory (block.start + allocSize) before.start)
        (block.start + allocSize) = before.start := by
      simp (disch := omega) only [prevAt_eq, setPrev_eq, read_write_word]
    rw [if_neg (by omega), Nat.mod_eq_of_lt (by omega)]
    simp only [prev_free]
    refine ⟨taken_of_edits list ?_ ?_ (by simp) ?_ (by omega), trivial⟩
    · rw [new]
      refine ⟨Node.of_words (by simp only; omega) ?_, trivial⟩
      simp (disch := omega) only [setPrev_eq, setNext_eq, setSize_eq, read_write_word,
        Memory.read_write_disjoint, lastStart_concat, headStart_nil, and_self]
    · intro init last same
      obtain ⟨rfl, rfl⟩ := List.append_singleton_inj.mp same
      rw [new]
      refine Node.of_words before_fits ?_
      simp (disch := omega) only [setPrev_eq, setNext_eq, setSize_eq, read_write_word,
        Memory.read_write_disjoint, before_words, List.cons_append, headStart_cons, and_self]
    · intro address count away _ outside
      have avoids := away front before rfl
      simp only [Span.stop, AvoidsHeader] at outside avoids
      refine (((agreeOn_setPrev ?_ ?_).trans (agreeOn_setNext ?_ ?_)).trans
        (agreeOn_setSize ?_ ?_)).trans (agreeOn_setNext ?_ ?_) <;> omega

private theorem take_middle {before behind : Span}
    (list : FreeList heap ((front ++ [before]) ++ block :: behind :: back))
    (room : block.length = allocSize ∨ allocSize + freeHeaderSize ≤ block.length) :
    Taken heap.memory (kmallocTake heap block.start allocSize).memory (front ++ [before]) block
        (behind :: back) allocSize ∧
      (kmallocTake heap block.start allocSize).firstFree = heap.firstFree := by
  have node := list.node
  have bounds := list.bounds block (by simp)
  have before_ne := list.start_pos (by simp : before ∈ _)
  have before_fits := list.fits before (by simp)
  have before_apart := apart_of_mem list before (by simp)
  have before_words := (@FreeList.node _ _ (block :: behind :: back) before
    (by simpa using list)).words before_fits
  have behind_ne := list.start_ne_end (by simp : behind ∈ _)
  have behind_fits := list.fits behind (by simp)
  have behind_apart := apart_of_mem list behind (by simp)
  have behind_words := (@FreeList.node _ (front ++ [before, block]) back behind
    (by simpa using list)).words behind_fits
  have neighbours : AvoidsHeader before.start 24 behind.start := by
    have headers := list.headers_apart
    simp only [List.append_assoc, List.cons_append, List.nil_append, List.pairwise_append,
      List.pairwise_cons, List.mem_cons, forall_eq_or_imp] at headers
    exact headers.2.1.1.2.1
  simp only [AvoidsHeader] at neighbours
  simp only [Span.stop] at bounds
  simp only [kmallocTake, load, node.prev_eq, node.next_eq, node.size_eq, lastStart_concat,
    headStart_cons, before_ne, behind_ne, false_and, if_false]
  rcases room with exact_fit | split
  · rw [if_pos (by omega)]
    refine ⟨taken_of_edits list ?_ ?_ ?_ ?_ (by omega), rfl⟩
    · rw [leftover_exact exact_fit]
      trivial
    · intro init last same
      obtain ⟨rfl, rfl⟩ := List.append_singleton_inj.mp same
      rw [leftover_exact exact_fit]
      refine Node.of_words before_fits ?_
      simp (disch := omega) only [setPrev_eq, setNext_eq, read_write_word,
        Memory.read_write_disjoint, before_words, List.nil_append, headStart_cons, and_self]
    · rintro first tail ⟨rfl, rfl⟩
      rw [leftover_exact exact_fit]
      refine Node.of_words behind_fits ?_
      simp (disch := omega) only [setPrev_eq, setNext_eq, read_write_word,
        Memory.read_write_disjoint, behind_words, lastStart_concat, lastStart_nil, and_self]
    · intro address count away_before away_behind _
      exact (agreeOn_setNext before_fits (away_before front before rfl)).trans
        (agreeOn_setPrev behind_fits (away_behind behind back rfl))
  · have new := leftover_split split
    simp only [freeHeaderSize] at split
    have prev_free : prevAt (setPrev heap.memory (block.start + allocSize) before.start)
        (block.start + allocSize) = before.start := by
      simp (disch := omega) only [prevAt_eq, setPrev_eq, read_write_word]
    rw [if_neg (by omega), Nat.mod_eq_of_lt (by omega)]
    simp only [prev_free]
    have next_free (memory : Memory) : nextAt (setNext memory (block.start + allocSize)
        behind.start) (block.start + allocSize) = behind.start := by
      simp (disch := omega) only [nextAt_eq, setNext_eq, read_write_word]
    simp only [next_free]
    refine ⟨taken_of_edits list ?_ ?_ ?_ ?_ (by omega), trivial⟩
    · rw [new]
      refine ⟨Node.of_words (by simp only; omega) ?_, trivial⟩
      simp (disch := omega) only [setPrev_eq, setNext_eq, setSize_eq, read_write_word,
        Memory.read_write_disjoint, lastStart_concat, headStart_nil, headStart_cons, and_self]
    · intro init last same
      obtain ⟨rfl, rfl⟩ := List.append_singleton_inj.mp same
      rw [new]
      refine Node.of_words before_fits ?_
      simp (disch := omega) only [setPrev_eq, setNext_eq, setSize_eq, read_write_word,
        Memory.read_write_disjoint, before_words, List.cons_append, headStart_cons, and_self]
    · rintro first tail ⟨rfl, rfl⟩
      rw [new]
      refine Node.of_words behind_fits ?_
      simp (disch := omega) only [setPrev_eq, setNext_eq, setSize_eq, read_write_word,
        Memory.read_write_disjoint, behind_words, lastStart_cons, lastStart_nil, and_self]
    · intro address count away_before away_behind outside
      have avoids_before := away_before front before rfl
      have avoids_behind := away_behind behind back rfl
      simp only [Span.stop, AvoidsHeader] at outside avoids_before avoids_behind
      refine ((((agreeOn_setPrev ?_ ?_).trans (agreeOn_setNext ?_ ?_)).trans
        (agreeOn_setNext ?_ ?_)).trans (agreeOn_setPrev ?_ ?_)).trans
        (agreeOn_setSize ?_ ?_) <;> omega

theorem kmallocTake_taken (list : FreeList heap (front ++ block :: back))
    (room : block.length = allocSize ∨ allocSize + freeHeaderSize ≤ block.length) :
    Taken heap.memory (kmallocTake heap block.start allocSize).memory front block back allocSize ∧
      (kmallocTake heap block.start allocSize).firstFree =
        headStart (front ++ (leftover block allocSize ++ back)) 0 := by
  rcases List.eq_nil_or_concat front with rfl | ⟨init, last, rfl⟩
  · cases back with
    | nil => simpa using take_only list room
    | cons behind back => simpa using take_first list room
  · rw [List.concat_eq_append] at list ⊢
    have same_first : heap.firstFree =
        headStart ((init ++ [last]) ++ (leftover block allocSize ++ back)) 0 := by
      rw [list.first]
      simp
    rw [← same_first]
    cases back with
    | nil => exact take_last list room
    | cons behind back => exact take_middle list room

/-! ## The allocated block -/

private theorem leftover_sub {part : Span} (fit : allocSize ≤ block.length)
    (member : part ∈ leftover block allocSize) :
    part.start = block.start + allocSize ∧ part.stop = block.stop := by
  unfold leftover at member
  split_ifs at member with exact_fit
  · cases member
  · obtain rfl := List.mem_singleton.mp member
    refine ⟨rfl, ?_⟩
    simp only [Span.stop]
    omega

private theorem leftover_pairwise (allocSize : Nat) (block : Span) :
    (leftover block allocSize).Pairwise Span.Disjoint := by
  unfold leftover
  split_ifs
  · exact .nil
  · exact List.pairwise_singleton _ _

/-- A span inside another one is disjoint from whatever the outer one is disjoint from. -/
private theorem disjoint_of_sub {inner outer other : Span} (lower : outer.start ≤ inner.start)
    (upper : inner.stop ≤ outer.stop) (disjoint : outer.Disjoint other) :
    inner.Disjoint other := by
  simp only [Span.Disjoint] at *
  omega

/-- Replacing a block by its leftover keeps the list of blocks disjoint. -/
private theorem disjoint_leftover (disjoint : (front ++ block :: back).Pairwise Span.Disjoint)
    (fit : allocSize ≤ block.length) :
    (front ++ (leftover block allocSize ++ back)).Pairwise Span.Disjoint := by
  obtain ⟨inFront, tail, cross⟩ := List.pairwise_append.mp disjoint
  obtain ⟨away, inBack⟩ := List.pairwise_cons.mp tail
  have smaller : ∀ part ∈ leftover block allocSize, ∀ other, block.Disjoint other →
      part.Disjoint other := by
    intro part member other apart
    obtain ⟨start_eq, stop_eq⟩ := leftover_sub fit member
    exact disjoint_of_sub (by omega) (by omega) apart
  refine List.pairwise_append.mpr ⟨inFront, List.pairwise_append.mpr
    ⟨leftover_pairwise allocSize block, inBack, ?_⟩, ?_⟩
  · exact fun part member other inside => smaller part member other (away other inside)
  · intro other inside part member
    rcases List.mem_append.mp member with left | right
    · exact (smaller part left other
        (cross other inside block List.mem_cons_self).symm).symm
    · exact cross other inside part (List.mem_cons_of_mem _ right)

private theorem mem_leftover_list {other : Span}
    (member : other ∈ front ++ (leftover block allocSize ++ back)) :
    other ∈ front ++ back ∨ other ∈ leftover block allocSize := by
  simp only [List.mem_append] at member ⊢
  tauto

/-- The whole effect of serving a request from `block`: the payload pointer follows the size word,
the list keeps the leftover in the block's place, and only headers of other free blocks and the
block itself change. -/
theorem kmallocFit_spec (list : FreeList heap (front ++ block :: back)) {size : Nat}
    (small : size + kernelMallocHeaderSize < wordSize)
    (fit : size + kernelMallocHeaderSize ≤ block.length)
    (room : block.length = size + kernelMallocHeaderSize ∨
      size + kernelMallocHeaderSize + freeHeaderSize ≤ block.length) :
    (kmallocFit heap size block.start (size + kernelMallocHeaderSize)).2 = block.start + 8 ∧
      FreeList (kmallocFit heap size block.start (size + kernelMallocHeaderSize)).1
        (front ++ (leftover block (size + kernelMallocHeaderSize) ++ back)) ∧
      (kmallocFit heap size block.start (size + kernelMallocHeaderSize)).1.memory.read
        block.start 8 = size ∧
      ∀ address count, (∀ other ∈ front ++ back, AvoidsHeader address count other.start) →
        address + count ≤ block.start ∨ block.stop ≤ address →
          heap.memory.AgreeOn
            (kmallocFit heap size block.start (size + kernelMallocHeaderSize)).1.memory
            address count := by
  obtain ⟨taken, first⟩ := kmallocTake_taken list room
  have bounds := list.bounds block (by simp)
  have fits := list.fits block (by simp)
  have apart := apart_of_mem list
  simp only [kernelMallocHeaderSize, freeHeaderSize, Span.stop]
    at small fit room bounds first taken ⊢
  simp only [kmallocFit, Nat.mod_eq_of_lt (show block.start < wordSize by omega),
    Nat.mod_eq_of_lt (show block.start + 8 < wordSize by omega)]
  generalize kmallocTake heap block.start (size + 8) = after at taken first ⊢
  have new_bounds : ∀ other ∈ front ++ (leftover block (size + 8) ++ back),
      freeHeaderSize ≤ other.length ∧ 0 < other.start ∧ other.stop < wordSize := by
    intro other member
    rcases mem_leftover_list member with old | new
    · exact ⟨list.room other (mem_insert_middle old), list.bounds other (mem_insert_middle old)⟩
    · obtain ⟨start_eq, stop_eq⟩ := leftover_sub fit new
      have split : block.length ≠ size + 8 := by
        intro exact_fit
        rw [leftover_exact exact_fit] at new
        cases new
      simp only [Span.stop, freeHeaderSize] at stop_eq ⊢
      omega
  refine ⟨trivial, ⟨first, ?_, fun other member => (new_bounds other member).1,
    disjoint_leftover list.disjoint fit, fun other member => (new_bounds other member).2⟩, ?_, ?_⟩
  · refine taken.linked.congr ?_ ?_
    · intro other member
      have := new_bounds other member
      simp only [freeHeaderSize, Span.stop] at this
      omega
    · intro other member
      refine Memory.agreeOn_write _ ?_
      rcases mem_leftover_list member with old | new
      · have := apart other old
        omega
      · have := (leftover_sub fit new).1
        omega
  · exact read_write_word (by omega)
  · intro address count away outside
    have before_write := taken.frame address count away (by simp only [Span.stop]; omega)
    exact before_write.trans (Memory.agreeOn_write _ (by omega))

end Take

/-! ## The search -/

/-- More fuel does not change the outcome of a search that has ended. -/
theorem kmallocSearch_mono {heap : Heap} {size allocSize fuel block : Nat} {result : Heap × Nat}
    (ended : kmallocSearch heap size allocSize fuel block = some result) (extra : Nat) :
    kmallocSearch heap size allocSize (fuel + extra) block = some result := by
  induction fuel generalizing block with
  | zero => cases ended
  | succ fuel ih =>
      rw [Nat.succ_add]
      simp only [kmallocSearch] at ended ⊢
      split_ifs at ended ⊢ with fits more
      · exact ended
      · exact ih ended
      · exact ended

theorem kmallocSearch_skip {heap : Heap} {size allocSize fuel prev : Nat}
    {front back : List Span} {block : Span}
    (linked : Linked heap.memory prev (front ++ block :: back) endOfHeap)
    (skip : ∀ other ∈ front, other.length < allocSize) (fit : allocSize ≤ block.length)
    (enough : front.length < fuel) :
    kmallocSearch heap size allocSize fuel (headStart front block.start) =
      some (kmallocFit heap size block.start allocSize) := by
  induction front generalizing prev fuel with
  | nil =>
      obtain ⟨fuel, rfl⟩ := Nat.exists_eq_succ_of_ne_zero (Nat.ne_of_gt enough)
      have node : Node heap.memory block _ _ := linked.1
      simp only [headStart_nil, kmallocSearch, node.size_eq]
      rw [if_pos fit]
  | cons first front ih =>
      obtain ⟨fuel, rfl⟩ := Nat.exists_eq_succ_of_ne_zero (Nat.ne_of_gt (Nat.zero_lt_of_lt enough))
      obtain ⟨node, rest⟩ := linked
      have small := skip first List.mem_cons_self
      simp only [headStart_cons, kmallocSearch, node.size_eq, node.next_eq, List.append_eq,
        headStart_append_cons]
      rw [if_neg (by omega), if_pos]
      · exact ih rest (fun other member => skip other (List.mem_cons_of_mem _ member))
          (by simpa using enough)
      · rw [← not_and_or]
        rintro ⟨is_end, is_start⟩
        rw [is_end] at is_start
        exact absurd is_start (by decide)

theorem kmalloc_eq_fit {heap : Heap} {front back : List Span} {block : Span} {size fuel : Nat}
    (list : FreeList heap (front ++ block :: back))
    (small : size + kernelMallocHeaderSize < wordSize)
    (skip : ∀ other ∈ front, other.length < size + kernelMallocHeaderSize)
    (fit : size + kernelMallocHeaderSize ≤ block.length) (enough : front.length < fuel) :
    kmalloc fuel heap size =
      some (kmallocFit heap size block.start (size + kernelMallocHeaderSize)) := by
  have nonempty : headStart (front ++ block :: back) 0 ≠ 0 := by
    cases front with
    | nil => exact list.start_pos (by simp)
    | cons first front => exact list.start_pos (by simp)
  simp only [kmalloc, Nat.mod_eq_of_lt small]
  rw [list.first, if_neg nonempty, headStart_append_cons]
  exact kmallocSearch_skip list.linked skip fit enough

/-- More fuel does not change the outcome of a call that has returned. -/
theorem kmalloc_mono {heap : Heap} {size fuel : Nat} {result : Heap × Nat}
    (returned : kmalloc fuel heap size = some result) (extra : Nat) :
    kmalloc (fuel + extra) heap size = some result := by
  simp only [kmalloc] at returned ⊢
  split_ifs at returned ⊢ with empty
  · exact returned
  · exact kmallocSearch_mono returned extra

end PellOs

import PellOs.Kmalloc.Model
import PellOs.Lib.Span

/-!
# The free list as a list of spans

`Linked memory prev blocks next` reads the headers of `blocks` in order: every block records its
length, its predecessor (`prev` for the first) and its successor (`next` for the last).  A header
store changes one of these words, so each operation of the allocator is a handful of edits to the
links around one block, and every segment whose headers are untouched stays linked.
-/

namespace PellOs

open FreeMemHeader

/-- `sizeof(free_mem_header_t)`. -/
def freeHeaderSize : Nat := 24

/-! ## Header words -/

section HeaderWords

variable {memory : Memory} {block value other : Nat}

theorem prevAt_eq (fits : block + 24 ≤ wordSize) : prevAt memory block = memory.read block 8 := by
  rw [prevAt, Nat.mod_eq_of_lt (by omega)]

theorem nextAt_eq (fits : block + 24 ≤ wordSize) :
    nextAt memory block = memory.read (block + 8) 8 := by
  rw [nextAt, Nat.mod_eq_of_lt (by omega)]

theorem sizeAt_eq (fits : block + 24 ≤ wordSize) :
    sizeAt memory block = memory.read (block + 16) 8 := by
  rw [sizeAt, Nat.mod_eq_of_lt (by omega)]

theorem setPrev_eq (fits : block + 24 ≤ wordSize) :
    setPrev memory block value = memory.write block 8 value := by
  rw [setPrev, Nat.mod_eq_of_lt (by omega)]

theorem setNext_eq (fits : block + 24 ≤ wordSize) :
    setNext memory block value = memory.write (block + 8) 8 value := by
  rw [setNext, Nat.mod_eq_of_lt (by omega)]

theorem setSize_eq (fits : block + 24 ≤ wordSize) :
    setSize memory block value = memory.write (block + 16) 8 value := by
  rw [setSize, Nat.mod_eq_of_lt (by omega)]

theorem startOfHeap_lt : startOfHeap < wordSize := by decide

theorem endOfHeap_lt : endOfHeap < wordSize := by decide

theorem read_write_word (small : value < wordSize) :
    (memory.write block 8 value).read block 8 = value := by
  rw [Memory.read_write_same]
  exact Nat.mod_eq_of_lt (by omega)

theorem agreeOn_setPrev (fits : block + 24 ≤ wordSize) {address count : Nat}
    (disjoint : address + count ≤ block ∨ block + 24 ≤ address) :
    memory.AgreeOn (setPrev memory block value) address count := by
  rw [setPrev_eq fits]
  exact memory.agreeOn_write (by omega)

theorem agreeOn_setNext (fits : block + 24 ≤ wordSize) {address count : Nat}
    (disjoint : address + count ≤ block ∨ block + 24 ≤ address) :
    memory.AgreeOn (setNext memory block value) address count := by
  rw [setNext_eq fits]
  exact memory.agreeOn_write (by omega)

theorem agreeOn_setSize (fits : block + 24 ≤ wordSize) {address count : Nat}
    (disjoint : address + count ≤ block ∨ block + 24 ≤ address) :
    memory.AgreeOn (setSize memory block value) address count := by
  rw [setSize_eq fits]
  exact memory.agreeOn_write (by omega)

end HeaderWords

/-! ## Nodes and segments -/

/-- The header of one free block. -/
structure Node (memory : Memory) (block : Span) (prev next : Nat) : Prop where
  prev_eq : prevAt memory block.start = prev
  next_eq : nextAt memory block.start = next
  size_eq : sizeAt memory block.start = block.length

namespace Node

variable {memory : Memory} {block : Span} {prev next : Nat}

theorem of_words (fits : block.start + 24 ≤ wordSize)
    (words : memory.read block.start 8 = prev ∧ memory.read (block.start + 8) 8 = next ∧
      memory.read (block.start + 16) 8 = block.length) :
    Node memory block prev next where
  prev_eq := (prevAt_eq fits).trans words.1
  next_eq := (nextAt_eq fits).trans words.2.1
  size_eq := (sizeAt_eq fits).trans words.2.2

theorem words (node : Node memory block prev next) (fits : block.start + 24 ≤ wordSize) :
    memory.read block.start 8 = prev ∧ memory.read (block.start + 8) 8 = next ∧
      memory.read (block.start + 16) 8 = block.length :=
  ⟨(prevAt_eq fits).symm.trans node.prev_eq, (nextAt_eq fits).symm.trans node.next_eq,
    (sizeAt_eq fits).symm.trans node.size_eq⟩

theorem congr {after : Memory} (node : Node memory block prev next)
    (fits : block.start + 24 ≤ wordSize) (agree : memory.AgreeOn after block.start 24) :
    Node after block prev next := by
  apply of_words fits
  rw [Memory.read_congr (agree.mono (by omega) (by omega)),
    Memory.read_congr (agree.mono (by omega) (by omega)),
    Memory.read_congr (agree.mono (by omega) (by omega))]
  exact node.words fits

end Node

/-- Start of the first block, or `next` when there is none. -/
def headStart : List Span → Nat → Nat
  | [], next => next
  | block :: _, _ => block.start

/-- Start of the last block, or `prev` when there is none. -/
def lastStart : Nat → List Span → Nat
  | prev, [] => prev
  | _, block :: blocks => lastStart block.start blocks

/-- The blocks are doubly linked in order, between the outer pointers `prev` and `next`. -/
def Linked (memory : Memory) : Nat → List Span → Nat → Prop
  | _, [], _ => True
  | prev, block :: blocks, next =>
      Node memory block prev (headStart blocks next) ∧ Linked memory block.start blocks next

@[simp] theorem headStart_nil (next : Nat) : headStart [] next = next := rfl

@[simp] theorem headStart_cons (block : Span) (blocks : List Span) (next : Nat) :
    headStart (block :: blocks) next = block.start := rfl

@[simp] theorem headStart_append_cons (front : List Span) (block : Span) (back : List Span)
    (next : Nat) :
    headStart (front ++ block :: back) next = headStart front block.start := by
  cases front <;> rfl

@[simp] theorem lastStart_nil (prev : Nat) : lastStart prev [] = prev := rfl

@[simp] theorem lastStart_cons (prev : Nat) (block : Span) (blocks : List Span) :
    lastStart prev (block :: blocks) = lastStart block.start blocks := rfl

@[simp] theorem lastStart_concat (prev : Nat) (front : List Span) (block : Span) :
    lastStart prev (front ++ [block]) = block.start := by
  induction front generalizing prev with
  | nil => rfl
  | cons first front ih => exact ih first.start

namespace Linked

variable {memory : Memory}

theorem append {prev next : Nat} {front back : List Span} :
    Linked memory prev (front ++ back) next ↔
      Linked memory prev front (headStart back next) ∧
        Linked memory (lastStart prev front) back next := by
  induction front generalizing prev with
  | nil => simp [Linked]
  | cons block front ih =>
      have seam : headStart (front ++ back) next = headStart front (headStart back next) := by
        cases front <;> rfl
      simp only [List.cons_append, Linked, lastStart_cons, seam, ih, and_assoc]

theorem congr {after : Memory} {prev next : Nat} {blocks : List Span}
    (linked : Linked memory prev blocks next)
    (fits : ∀ block ∈ blocks, block.start + 24 ≤ wordSize)
    (agree : ∀ block ∈ blocks, memory.AgreeOn after block.start 24) :
    Linked after prev blocks next := by
  induction blocks generalizing prev with
  | nil => trivial
  | cons block blocks ih =>
      refine ⟨linked.1.congr (fits block List.mem_cons_self) (agree block List.mem_cons_self), ?_⟩
      exact ih linked.2 (fun other member => fits other (List.mem_cons_of_mem _ member))
        fun other member => agree other (List.mem_cons_of_mem _ member)

/-- Replace the middle of a linked list: the segment in front is redirected through its last
header, the segment behind through its first. -/
theorem splice {after : Memory} {prev next : Nat} {front old new back : List Span}
    (linked : Linked memory prev (front ++ (old ++ back)) next)
    (fits : ∀ block ∈ front ++ back, block.start + 24 ≤ wordSize)
    (front_last : ∀ init last, front = init ++ [last] →
      Node after last (lastStart prev init) (headStart (new ++ back) next) ∧
        ∀ block ∈ init, memory.AgreeOn after block.start 24)
    (middle : Linked after (lastStart prev front) new (headStart back next))
    (back_first : ∀ first tail, back = first :: tail →
      Node after first (lastStart (lastStart prev front) new) (headStart tail next) ∧
        ∀ block ∈ tail, memory.AgreeOn after block.start 24) :
    Linked after prev (front ++ (new ++ back)) next := by
  obtain ⟨before, rest⟩ := append.mp linked
  obtain ⟨_, behind⟩ := append.mp rest
  rw [append, append]
  refine ⟨?_, middle, ?_⟩
  · rcases List.eq_nil_or_concat front with rfl | ⟨init, last, rfl⟩
    · trivial
    · rw [List.concat_eq_append] at before fits front_last ⊢
      obtain ⟨node, agree⟩ := front_last init last rfl
      exact append.mpr ⟨(append.mp before).1.congr
        (fun block member => fits block (by simp [member]))
        agree, node, trivial⟩
  · cases back with
    | nil => trivial
    | cons first tail =>
        obtain ⟨node, agree⟩ := back_first first tail rfl
        exact ⟨node, behind.2.congr (fun block member => fits block (by simp [member])) agree⟩

end Linked

theorem mem_insert_middle {front back : List Span} {block other : Span}
    (member : other ∈ front ++ back) : other ∈ front ++ block :: back := by
  rcases List.mem_append.mp member with left | right
  · exact List.mem_append_left _ left
  · exact List.mem_append_right _ (List.mem_cons_of_mem _ right)

/-- The `count` addresses from `address` avoid the 24-byte header at `start`. -/
def AvoidsHeader (address count start : Nat) : Prop :=
  address + count ≤ start ∨ start + 24 ≤ address

/-- A heap whose `first_free` heads a well-linked list of disjoint blocks, each with room for its
own header. -/
structure FreeList (heap : Heap) (free : List Span) : Prop where
  first : heap.firstFree = headStart free 0
  linked : Linked heap.memory startOfHeap free endOfHeap
  room : ∀ block ∈ free, freeHeaderSize ≤ block.length
  disjoint : free.Pairwise Span.Disjoint
  bounds : ∀ block ∈ free, 0 < block.start ∧ block.stop < wordSize

namespace FreeList

variable {heap : Heap} {free : List Span}

theorem fits (list : FreeList heap free) : ∀ block ∈ free, block.start + 24 ≤ wordSize := by
  intro block member
  have room := list.room block member
  have bounds := (list.bounds block member).2
  simp only [freeHeaderSize, Span.stop] at room bounds
  omega

theorem start_pos (list : FreeList heap free) {block : Span} (member : block ∈ free) :
    block.start ≠ startOfHeap :=
  Nat.ne_of_gt (list.bounds block member).1

theorem start_ne_end (list : FreeList heap free) {block : Span} (member : block ∈ free) :
    block.start ≠ endOfHeap := by
  have := list.fits block member
  simp only [endOfHeap]
  omega

theorem node {front back : List Span} {block : Span}
    (list : FreeList heap (front ++ block :: back)) :
    Node heap.memory block (lastStart startOfHeap front) (headStart back endOfHeap) :=
  (Linked.append.mp list.linked).2.1

theorem lastStart_eq_start_iff {front back : List Span}
    (list : FreeList heap (front ++ back)) :
    lastStart startOfHeap front = startOfHeap ↔ front = [] := by
  constructor
  · intro last
    rcases List.eq_nil_or_concat front with rfl | ⟨front, block, rfl⟩
    · rfl
    · rw [List.concat_eq_append, lastStart_concat] at last
      exact (list.start_pos (by simp) last).elim
  · rintro rfl
    rfl

theorem headStart_eq_end_iff {front back : List Span}
    (list : FreeList heap (front ++ back)) :
    headStart back endOfHeap = endOfHeap ↔ back = [] := by
  constructor
  · intro first
    cases back with
    | nil => rfl
    | cons block back => exact (list.start_ne_end (by simp) first).elim
  · rintro rfl
    rfl

theorem headers_apart (list : FreeList heap free) :
    free.Pairwise fun left right => AvoidsHeader left.start 24 right.start := by
  refine list.disjoint.imp_of_mem ?_
  intro left right leftMember rightMember disjoint
  have leftRoom := list.room left leftMember
  have rightRoom := list.room right rightMember
  simp only [freeHeaderSize, Span.Disjoint, Span.stop, AvoidsHeader] at *
  omega

/-- Editing one place of the list.  `old` is replaced by `new`; the last header in front and the
first header behind are redirected, and apart from these two only the bytes of `hole` change. -/
theorem edit {front old new back : List Span} {after : Memory} (hole : Span)
    (list : FreeList heap (front ++ (old ++ back)))
    (clear : ∀ other ∈ front ++ back,
      other.start + 24 ≤ hole.start ∨ hole.stop ≤ other.start)
    (middle : Linked after (lastStart startOfHeap front) new (headStart back endOfHeap))
    (front_last : ∀ init last, front = init ++ [last] →
      Node after last (lastStart startOfHeap init) (headStart (new ++ back) endOfHeap))
    (back_first : ∀ first tail, back = first :: tail →
      Node after first (lastStart (lastStart startOfHeap front) new) (headStart tail endOfHeap))
    (frame : ∀ address count,
      (∀ init last, front = init ++ [last] → AvoidsHeader address count last.start) →
      (∀ first tail, back = first :: tail → AvoidsHeader address count first.start) →
      address + count ≤ hole.start ∨ hole.stop ≤ address →
        heap.memory.AgreeOn after address count) :
    Linked after startOfHeap (front ++ (new ++ back)) endOfHeap ∧
      ∀ address count, (∀ other ∈ front ++ back, AvoidsHeader address count other.start) →
        address + count ≤ hole.start ∨ hole.stop ≤ address →
          heap.memory.AgreeOn after address count := by
  have headers := list.headers_apart
  have inside : ∀ other ∈ front ++ back, other ∈ front ++ (old ++ back) := by
    intro other member
    rcases List.mem_append.mp member with left | right
    · exact List.mem_append_left _ left
    · exact List.mem_append_right _ (List.mem_append_right _ right)
  refine ⟨list.linked.splice (fun other member => list.fits other (inside other member)) ?_
    middle ?_, ?_⟩
  · rintro init last rfl
    simp only [List.append_assoc, List.cons_append, List.nil_append, List.pairwise_append,
      List.mem_cons, List.mem_append, forall_eq_or_imp] at headers
    refine ⟨front_last init last rfl, fun other member => frame _ _ ?_ ?_ ?_⟩
    · intro init' last' same
      obtain ⟨-, rfl⟩ := List.append_singleton_inj.mp same
      exact (headers.2.2 other member).1
    · rintro first tail rfl
      exact (headers.2.2 other member).2 first (Or.inr List.mem_cons_self)
    · exact clear other (by simp [member])
  · rintro first tail rfl
    simp only [List.pairwise_append, List.pairwise_cons, List.mem_cons, List.mem_append,
      forall_eq_or_imp] at headers
    refine ⟨back_first first tail rfl, fun other member => frame _ _ ?_ ?_ ?_⟩
    · rintro init last rfl
      exact (headers.2.2 last (by simp) other (Or.inr (Or.inr member))).symm
    · intro first' tail' same
      obtain ⟨rfl, -⟩ := List.cons.inj same
      exact (headers.2.1.2.1.1 other member).symm
    · exact clear other (by simp [member])
  · intro address count away outside
    refine frame address count ?_ ?_ outside
    · rintro init last rfl
      exact away last (by simp)
    · rintro first tail rfl
      exact away first (by simp)

end FreeList

end PellOs

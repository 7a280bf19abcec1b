import PellOs.Mm.PageOwnership

/-!
# The two page allocators

`mm.c` has a second allocator for builds without `USE_BITMAP`, with one byte of `kernel_memmap` for
each page.  Both hand out the lowest page they regard as free, so they agree for as long as they
regard the same pages as free.  The byte map frees the page it is given; the bitmap does so for the
first page only.
-/

namespace PellOs

/-! ## The byte map -/

/-- Kernel memory with the static `kernel_memmap`. -/
structure MmBytes where
  memory : Memory
  kernelMemmap : Nat → UInt8

namespace MmBytes

/-- The loop over `kernel_memmap`. -/
def zeroByte (kernelMemmap : Nat → UInt8) : Nat → Nat → Option Nat
  | 0, _ => none
  | remaining + 1, i =>
      if kernelMemmap i = 0 then some i else zeroByte kernelMemmap remaining (i + 1)

/-- `get_next_free_page` of the byte map.  The address is computed in 32 bits. -/
@[irreducible] def getNextFreePage (mm : MmBytes) : MmBytes × Nat :=
  match zeroByte mm.kernelMemmap mmNumOfPages 0 with
  | none => (mm, 0)
  | some i =>
      let newPage := (lowMemory + i * pageSize % 2 ^ 32) % 2 ^ 32
      (⟨memzero mm.memory ((newPage + virtualAddressStart) % wordSize) pageSize,
        Function.update mm.kernelMemmap i 1⟩, newPage)

/-- `free_page` of the byte map. -/
def freePage (mm : MmBytes) (ptr : Nat) : MmBytes :=
  { mm with
    kernelMemmap := Function.update mm.kernelMemmap
      ((ptr + wordSize - mmAvailablePageMin) % wordSize / pageSize) 0 }

/-- The byte map regards the page as free. -/
def IsFree (mm : MmBytes) (index : Nat) : Prop := mm.kernelMemmap index = 0

instance (mm : MmBytes) (index : Nat) : Decidable (IsFree mm index) :=
  inferInstanceAs (Decidable (_ = _))

private theorem zeroByte_eq (mm : MmBytes) (remaining i : Nat) :
    zeroByte mm.kernelMemmap remaining i = firstIndex (IsFree mm) remaining i := by
  induction remaining generalizing i with
  | zero => rfl
  | succ remaining ih =>
      rw [zeroByte, firstIndex, ih]
      rfl

/-- The state after handing out the page with a given index. -/
def takePage (mm : MmBytes) (index : Nat) : MmBytes :=
  ⟨mm.memory.fill (pageAt index + virtualAddressStart) pageSize 0,
    Function.update mm.kernelMemmap index 1⟩

theorem getNextFreePage_eq (mm : MmBytes) :
    getNextFreePage mm =
      match firstIndex (IsFree mm) mmNumOfPages 0 with
      | none => (mm, 0)
      | some index => (takePage mm index, pageAt index) := by
  unfold getNextFreePage
  rw [zeroByte_eq]
  cases found : firstIndex (IsFree mm) mmNumOfPages 0 with
  | none => rfl
  | some index =>
      obtain ⟨-, inside, -⟩ := firstIndex_eq_some_iff.mp found
      have range := pageAt_range (show index < mmNumOfPages by omega)
      have address : (lowMemory + index * pageSize % 2 ^ 32) % 2 ^ 32 = pageAt index := by
        have last : mmAvailablePageMax < 2 ^ 32 := by decide
        rw [Nat.mul_comm]
        simp only [pageAt] at range ⊢
        omega
      simp only [address, takePage]
      rw [memzero_pageAt _ (show index < mmNumOfPages by omega)]

@[simp] theorem isFree_takePage (mm : MmBytes) (taken index : Nat) :
    IsFree (takePage mm taken) index ↔ IsFree mm index ∧ index ≠ taken := by
  unfold IsFree takePage
  by_cases same : index = taken
  · subst same
    simp
  · simp [same]

/-- `free_page` of a page inside the managed range frees this page alone. -/
theorem isFree_freePage (mm : MmBytes) {index : Nat} (inside : index < mmNumOfPages)
    (other : Nat) :
    IsFree (freePage mm (pageAt index)) other ↔ IsFree mm other ∨ other = index := by
  unfold IsFree freePage
  rw [indexOf_pageAt inside]
  by_cases same : other = index
  · subst same
    simp
  · simp [same]

end MmBytes

/-! ## Both allocators side by side -/

/-- Both allocators with the pages that clients hold. -/
structure PagePair where
  bitmap : Mm
  byteMap : MmBytes
  held : List Nat

namespace PagePair

/-- `get_next_free_page` of both allocators. -/
def take (state : PagePair) : PagePair :=
  ⟨(getNextFreePage state.bitmap).1, state.byteMap.getNextFreePage.1,
    if (getNextFreePage state.bitmap).2 = 0 then state.held
    else (getNextFreePage state.bitmap).2 :: state.held⟩

/-- `free_page` of both allocators. -/
def release (state : PagePair) (page : Nat) : PagePair :=
  ⟨freePage state.bitmap page, state.byteMap.freePage page, state.held.erase page⟩

/-- The two next calls of `get_next_free_page` return the same address, or both zero. -/
def Agrees (state : PagePair) : Prop :=
  (getNextFreePage state.bitmap).2 = state.byteMap.getNextFreePage.2

/-- Both allocators after `count` calls. -/
def afterTakes : Nat → PagePair → PagePair
  | 0, state => state
  | count + 1, state => afterTakes count state.take

/-- The allocators agree at every later call when no page is given back any more. -/
def AgreesOnwards (state : PagePair) : Prop := ∀ count, (afterTakes count state).Agrees

/-- The bitmap allocator alone. -/
def pages (state : PagePair) : PageState := ⟨state.bitmap, state.held⟩

end PagePair

/-- Both allocators before the first call, over the same memory. -/
def initialPagePair (memory : Memory) : PagePair :=
  ⟨⟨memory, fun _ => 0⟩, ⟨memory, fun _ => 0⟩, []⟩

/-- One call of both allocators; a page that is given back is held. -/
inductive PagePairStep : PageAction → PagePair → PagePair → Prop
  | take {state : PagePair} : PagePairStep .take state state.take
  | release {state : PagePair} {page : Nat} (held : page ∈ state.held) :
      PagePairStep (.release page) state (state.release page)

/-- Any call of both allocators. -/
def PairClientStep (before after : PagePair) : Prop :=
  ∃ action, PagePairStep action before after

/-- A call that gives back no page but the first. -/
def FirstPagePairStep (before after : PagePair) : Prop :=
  ∃ action, (∀ page, action = PageAction.release page → page = lowMemory) ∧
    PagePairStep action before after

/-- The allocators regard the same pages as free, and these are the pages nobody holds. -/
structure PairInv (state : PagePair) : Prop where
  pages : PageInv state.pages
  same : ∀ index, IsFree state.bitmap index ↔ state.byteMap.IsFree index

namespace PairInv

variable {state next : PagePair}

theorem initial (memory : Memory) : PairInv (initialPagePair memory) where
  pages := .initial memory
  same index := by
    constructor
    · intro _
      rfl
    · intro _
      show (0 : UInt8) &&& 1 = 0
      decide

private theorem scans_agree
    (same : ∀ index, IsFree state.bitmap index ↔ state.byteMap.IsFree index) :
    firstIndex (IsFree state.bitmap) mmNumOfPages 0 =
      firstIndex state.byteMap.IsFree mmNumOfPages 0 :=
  firstIndex_congr fun index _ _ => same index

/-- Allocators that regard the same pages as free return the same page. -/
theorem agrees (inv : PairInv state) : state.Agrees := by
  rw [PagePair.Agrees, getNextFreePage_eq, MmBytes.getNextFreePage_eq, scans_agree inv.same]
  cases firstIndex state.byteMap.IsFree mmNumOfPages 0 with
  | none => rfl
  | some index => rfl

theorem take (inv : PairInv state) : PairInv state.take := by
  refine ⟨inv.pages.take, fun index => ?_⟩
  rw [PagePair.take, getNextFreePage_eq, MmBytes.getNextFreePage_eq, scans_agree inv.same]
  cases firstIndex state.byteMap.IsFree mmNumOfPages 0 with
  | none => exact inv.same index
  | some taken =>
      simp only [PellOs.isFree_takePage, MmBytes.isFree_takePage, inv.same index]

theorem release_first (inv : PairInv state) : PairInv (state.release lowMemory) := by
  refine ⟨inv.pages.release_first, fun index => ?_⟩
  have bitmap := inv.pages.isFree_release_first index
  have byteMap := @MmBytes.isFree_freePage state.byteMap 0 (by decide) index
  simp only [PagePair.release]
  exact bitmap.trans ((or_congr (inv.same index) Iff.rfl).trans byteMap.symm)

theorem step (inv : PairInv state) (first : FirstPagePairStep state next) : PairInv next := by
  obtain ⟨action, condition, step⟩ := first
  cases step with
  | take => exact inv.take
  | release held =>
      obtain rfl := condition _ rfl
      exact inv.release_first

theorem of_run {memory : Memory}
    (run : Relation.ReflTransGen FirstPagePairStep (initialPagePair memory) state) :
    PairInv state := by
  induction run with
  | refl => exact .initial memory
  | tail _ last ih => exact ih.step last

theorem afterTakes (inv : PairInv state) (count : Nat) :
    PairInv (PagePair.afterTakes count state) := by
  induction count generalizing state with
  | zero => exact inv
  | succ count ih => exact ih inv.take

end PairInv

/-- A page that only the byte map regards as free is handed out by the byte map alone, after at
most `bound` calls that hand out the pages before it. -/
private theorem not_agreesOnwards {state : PagePair} {index : Nat} (inside : index < mmNumOfPages)
    (busy : ¬IsFree state.bitmap index) (free : state.byteMap.IsFree index) (bound : Nat)
    (taken : ∀ earlier, earlier + bound < index → ¬state.byteMap.IsFree earlier) :
    ¬state.AgreesOnwards := by
  induction bound generalizing state with
  | zero =>
      intro onwards
      have found : firstIndex state.byteMap.IsFree mmNumOfPages 0 = some index :=
        firstIndex_eq_some_iff.mpr
          ⟨Nat.zero_le _, by omega, free, fun earlier _ low => taken earlier low⟩
      have agrees : (getNextFreePage state.bitmap).2 = state.byteMap.getNextFreePage.2 := onwards 0
      rw [MmBytes.getNextFreePage_eq, found] at agrees
      rcases getNextFreePage_cases state.bitmap with ⟨other, _, other_free, _, call⟩ | ⟨_, call⟩
      · rw [call] at agrees
        rw [pageAt_injective agrees] at other_free
        exact busy other_free
      · rw [call] at agrees
        exact pageAt_ne_zero index agrees.symm
  | succ bound ih =>
      intro onwards
      have agrees : (getNextFreePage state.bitmap).2 = state.byteMap.getNextFreePage.2 := onwards 0
      cases found : firstIndex state.byteMap.IsFree mmNumOfPages 0 with
      | none => exact firstIndex_eq_none_iff.mp found index (Nat.zero_le _) (by omega) free
      | some first =>
          obtain ⟨-, first_inside, first_free, before⟩ := firstIndex_eq_some_iff.mp found
          rw [MmBytes.getNextFreePage_eq, found] at agrees
          rcases getNextFreePage_cases state.bitmap with ⟨other, _, other_free, _, call⟩ | ⟨_, call⟩
          · rw [call] at agrees
            obtain rfl := pageAt_injective agrees
            have differ : index ≠ other := by
              rintro rfl
              exact busy other_free
            have bitmap : state.take.bitmap = takePage state.bitmap other := by
              rw [PagePair.take, call]
            have byteMap : state.take.byteMap = state.byteMap.takePage other := by
              rw [PagePair.take, MmBytes.getNextFreePage_eq, found]
            refine @ih state.take ?_ ?_ ?_ fun count => onwards (count + 1)
            · rw [bitmap, isFree_takePage]
              exact fun still => busy still.1
            · rw [byteMap, MmBytes.isFree_takePage]
              exact ⟨free, differ⟩
            · intro earlier low still
              rw [byteMap, MmBytes.isFree_takePage] at still
              rcases Nat.lt_or_ge earlier other with below | above
              · exact before earlier (Nat.zero_le _) below still.1
              · have other_low : ¬other + (bound + 1) < index := fun far =>
                  taken other far first_free
                omega
          · rw [call] at agrees
            exact pageAt_ne_zero first agrees.symm

/-- While no page but the first is given back both allocators return the same address at every
call.  Of the held pages the first is the only one that can be given back without a later call at
which they differ. -/
theorem allocators_agree (memory : Memory) {state : PagePair}
    (run : Relation.ReflTransGen FirstPagePairStep (initialPagePair memory) state) :
    state.Agrees ∧
      ∀ page ∈ state.held, (state.release page).AgreesOnwards ↔ page = lowMemory := by
  have inv := PairInv.of_run run
  refine ⟨inv.agrees, fun page held => ⟨fun onwards => ?_, ?_⟩⟩
  · by_contra other
    obtain ⟨index, inside, rfl, -⟩ := inv.pages.index_of_held held
    have busy : ¬IsFree (freePage state.bitmap (pageAt index)) index := fun free =>
      inv.pages.not_available_release held other
        ((available_iff _ _).mpr ⟨index, inside, rfl, free⟩)
    have free : (state.byteMap.freePage (pageAt index)).IsFree index :=
      (MmBytes.isFree_freePage _ inside index).mpr (Or.inr rfl)
    exact not_agreesOnwards inside busy free index (fun earlier low => by omega) onwards
  · rintro rfl
    exact fun count => (inv.release_first.afterTakes count).agrees

private theorem two_taken (memory : Memory) :
    (initialPagePair memory).take.take =
      ⟨takePage (takePage ⟨memory, fun _ => 0⟩ 0) 1,
        (MmBytes.takePage ⟨memory, fun _ => 0⟩ 0).takePage 1, [pageAt 1, pageAt 0]⟩ := by
  have free (index : Nat) : IsFree ⟨memory, fun _ => 0⟩ index := (PairInv.initial memory).same index
    |>.mpr rfl
  have first : firstIndex (IsFree ⟨memory, fun _ => 0⟩) mmNumOfPages 0 = some 0 :=
    firstIndex_eq_some_iff.mpr ⟨Nat.zero_le _, by decide, free 0, by simp⟩
  have first_byte : firstIndex (MmBytes.IsFree ⟨memory, fun _ => 0⟩) mmNumOfPages 0 = some 0 :=
    firstIndex_eq_some_iff.mpr ⟨Nat.zero_le _, by decide, rfl, by simp⟩
  have second : firstIndex (IsFree (takePage ⟨memory, fun _ => 0⟩ 0)) mmNumOfPages 0 = some 1 :=
    firstIndex_eq_some_iff.mpr ⟨Nat.zero_le _, by decide,
      (isFree_takePage _ _ _).mpr ⟨free 1, by decide⟩, by simp⟩
  have second_byte : firstIndex (MmBytes.takePage ⟨memory, fun _ => 0⟩ 0).IsFree mmNumOfPages 0 =
      some 1 :=
    firstIndex_eq_some_iff.mpr ⟨Nat.zero_le _, by decide,
      (MmBytes.isFree_takePage _ _ _).mpr ⟨rfl, by decide⟩, by simp⟩
  simp only [initialPagePair, PagePair.take, getNextFreePage_eq, MmBytes.getNextFreePage_eq, first,
    first_byte, second, second_byte, if_neg (pageAt_ne_zero _)]

/-- After two calls both allocators agree, and giving back the first page keeps it so while giving
back the second does not. -/
theorem allocators_agree_two_taken : ∃ state : PagePair,
    state.held = [pageAt 1, pageAt 0] ∧ state.Agrees ∧
      ∀ page ∈ state.held, (state.release page).AgreesOnwards ↔ page = lowMemory := by
  have step (state : PagePair) : FirstPagePairStep state state.take :=
    ⟨PageAction.take, fun _ release => (by cases release), PagePairStep.take⟩
  have run := (Relation.ReflTransGen.single (step (initialPagePair fun _ => 0))).tail (step _)
  exact ⟨_, by rw [two_taken], allocators_agree (fun _ => 0) run⟩

/-- Two pages are taken and the second is given back: the next call of the bitmap allocator returns
the third page and that of the byte map the second. -/
theorem freed_second_page_differs : ∃ state : PagePair,
    Relation.ReflTransGen PairClientStep (initialPagePair fun _ => 0) state ∧
      (getNextFreePage state.bitmap).2 = pageAt 2 ∧ state.byteMap.getNextFreePage.2 = pageAt 1 := by
  have step (state : PagePair) : PairClientStep state state.take := ⟨_, PagePairStep.take⟩
  have run := (Relation.ReflTransGen.single (step (initialPagePair fun _ => 0))).tail (step _)
  have held : pageAt 1 ∈ (initialPagePair fun _ => 0).take.take.held := by
    rw [two_taken]
    exact List.mem_cons_self
  refine ⟨_, run.tail ⟨_, PagePairStep.release held⟩, ?_, ?_⟩
  · rw [two_taken, PagePair.release, getNextFreePage_eq]
    have found : firstIndex (IsFree (freePage (takePage (takePage ⟨fun _ => 0, fun _ => 0⟩ 0) 1)
        (pageAt 1))) mmNumOfPages 0 = some 2 := by
      rw [freePage_pageAt _ (by decide)]
      refine firstIndex_eq_some_iff.mpr ⟨Nat.zero_le _, by decide, ?_, fun earlier _ low => ?_⟩
      · simp [IsFree, takePage]
      · rcases (by omega : earlier = 0 ∨ earlier = 1) with rfl | rfl
        · have kept : ¬(1 : UInt8) &&& ~~~((1 : UInt8) <<< 1) &&& 1 = 0 := by decide
          simpa [IsFree, takePage] using kept
        · simp [IsFree, takePage]
    rw [found]
  · rw [two_taken, PagePair.release, MmBytes.getNextFreePage_eq]
    have found : firstIndex (MmBytes.freePage
        ((MmBytes.takePage ⟨fun _ => 0, fun _ => 0⟩ 0).takePage
        1) (pageAt 1)).IsFree mmNumOfPages 0 = some 1 := by
      refine firstIndex_eq_some_iff.mpr ⟨Nat.zero_le _, by decide, ?_, fun earlier _ low => ?_⟩
      · exact (MmBytes.isFree_freePage _ (by decide) 1).mpr (Or.inr rfl)
      · obtain rfl : earlier = 0 := by omega
        rw [MmBytes.isFree_freePage _ (by decide)]
        simp
    rw [found]

end PellOs

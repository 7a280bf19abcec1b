import PellOs.Mm.Paging

/-!
# Pages and descriptors

Arithmetic of page addresses in the kernel half, of the descriptors that `map_table` and
`map_table_entry` store, and the number of pages that are left.
-/

namespace PellOs

/-! ## Pages in the kernel half -/

/-- Kernel address of the page with a given index. -/
@[irreducible] def kernelAdr (index : Nat) : Nat := pageAt index + virtualAddressStart

theorem kernelAdr_ne_zero (index : Nat) : kernelAdr index ≠ 0 := by
  rw [kernelAdr]
  exact fun zero => pageAt_ne_zero index (Nat.eq_zero_of_add_eq_zero_right zero)

theorem kernelAdr_range {index : Nat} (inside : index < mmNumOfPages) :
    virtualAddressStart + lowMemory ≤ kernelAdr index ∧
      kernelAdr index + 2 * pageSize ≤ wordSize := by
  have range := pageAt_range inside
  have top : mmAvailablePageMax + virtualAddressStart + pageSize ≤ wordSize := by decide
  simp only [kernelAdr]
  omega

theorem kernelAdr_apart {left right : Nat} (differ : left ≠ right) :
    kernelAdr left + pageSize ≤ kernelAdr right ∨ kernelAdr right + pageSize ≤ kernelAdr left := by
  simp only [kernelAdr, pageAt, pageSize]
  omega

theorem kernelAdr_eq {index : Nat} (inside : index < mmNumOfPages) :
    (pageAt index + virtualAddressStart) % wordSize = kernelAdr index := by
  have range := kernelAdr_range inside
  simp only [kernelAdr, pageSize] at range ⊢
  exact Nat.mod_eq_of_lt (by omega)

/-! ## Descriptors -/

theorem tableIndex_lt (virtAdr shift : Nat) : tableIndex virtAdr shift < ptrsPerTable := by
  rw [tableIndex, show ptrsPerTable - 1 = 2 ^ 9 - 1 from rfl, Nat.and_two_pow_sub_one_eq_mod]
  exact Nat.mod_lt _ (by decide)

theorem pageAt_eq_mul (index : Nat) : pageAt index = 2 ^ 12 * (1024 + index) := by
  simp only [pageAt, lowMemory, pageSize]
  omega

theorem pageAt_or (index : Nat) {flags : Nat} (small : flags < 2 ^ 12) :
    pageAt index ||| flags = pageAt index + flags := by
  rw [pageAt_eq_mul, Nat.two_pow_add_eq_or_of_lt small]

theorem and_pageMask {entry : Nat} (small : entry < wordSize) :
    entry &&& pageMask = 2 ^ 12 * (entry / 2 ^ 12) := by
  apply Nat.eq_of_testBit_eq
  intro bit
  have mask : pageMask = 2 ^ 12 * (2 ^ 52 - 1) := by decide
  have high : 64 ≤ bit → entry.testBit bit = false := by
    intro large
    apply Nat.testBit_lt_two_pow
    exact lt_of_lt_of_le small (Nat.pow_le_pow_right (by decide) large)
  rw [Nat.testBit_and, mask, Nat.testBit_two_pow_mul, Nat.testBit_two_pow_mul,
    Nat.testBit_two_pow_sub_one, Nat.testBit_div_two_pow]
  by_cases low : 12 ≤ bit
  · rw [Nat.sub_add_cancel low]
    by_cases middle : bit < 64
    · simp [low, show bit - 12 < 52 by omega]
    · simp [high (by omega)]
  · simp [low]

theorem pageAt_or_and_pageMask {index flags : Nat} (inside : index < mmNumOfPages)
    (small : flags < 2 ^ 12) : (pageAt index ||| flags) &&& pageMask = pageAt index := by
  have range := kernelAdr_range inside
  rw [pageAt_or index small, and_pageMask (by simp only [kernelAdr, pageSize] at range; omega),
    pageAt_eq_mul, Nat.mul_add_div (by decide), Nat.div_eq_of_lt small, Nat.add_zero]

theorem pageAt_or_lt {index flags : Nat} (inside : index < mmNumOfPages)
    (small : flags < 2 ^ 12) : pageAt index ||| flags < 256 ^ 8 := by
  have range := pageAt_range inside
  have top : mmAvailablePageMax < 256 ^ 8 := by decide
  rw [pageAt_or index small]
  refine lt_of_le_of_lt ?_ top
  simp only [pageSize] at range
  omega

theorem pageAt_lt {index : Nat} (inside : index < mmNumOfPages) : pageAt index < 256 ^ 8 := by
  have range := pageAt_range inside
  have top : mmAvailablePageMax < 256 ^ 8 := by decide
  refine lt_of_le_of_lt ?_ top
  omega

theorem pageAt_or_ne_zero (index flags : Nat) : pageAt index ||| flags ≠ 0 := by
  intro zero
  exact pageAt_ne_zero index (Nat.or_eq_zero_iff.mp zero).1

theorem descriptor_pageAt {memory : Memory} {index slot : Nat} (inside : index < mmNumOfPages)
    (bound : slot < ptrsPerTable) :
    descriptor memory (pageAt index) slot = memory.read (kernelAdr index + 8 * slot) 8 := by
  have range := kernelAdr_range inside
  simp only [ptrsPerTable] at bound
  simp only [descriptor, kernelAdr, pageSize] at range ⊢
  rw [Nat.mod_eq_of_lt (by omega)]

theorem tableSlot_kernelAdr {index virtAdr shift : Nat} (inside : index < mmNumOfPages) :
    tableSlot (kernelAdr index) virtAdr shift = kernelAdr index + 8 * tableIndex virtAdr shift := by
  have range := kernelAdr_range inside
  have bound := tableIndex_lt virtAdr shift
  simp only [ptrsPerTable, pageSize] at bound range
  rw [tableSlot, Nat.mod_eq_of_lt (by omega)]

/-! ## Pages left -/

/-- Number of pages that can still be handed out. -/
def freeCount (mm : Mm) : Nat := ((Finset.range mmNumOfPages).filter (IsFree mm)).card

theorem freeCount_takePage {mm : Mm} {index : Nat} (inside : index < mmNumOfPages)
    (free : IsFree mm index) : freeCount (takePage mm index) + 1 = freeCount mm := by
  have split : (Finset.range mmNumOfPages).filter (IsFree mm) =
      insert index ((Finset.range mmNumOfPages).filter (IsFree (takePage mm index))) := by
    ext other
    simp only [Finset.mem_insert, Finset.mem_filter, Finset.mem_range, isFree_takePage]
    constructor
    · rintro ⟨other_inside, other_free⟩
      by_cases same : other = index
      · exact Or.inl same
      · exact Or.inr ⟨other_inside, other_free, same⟩
    · rintro (rfl | ⟨other_inside, other_free, _⟩)
      · exact ⟨inside, free⟩
      · exact ⟨other_inside, other_free⟩
  have fresh : index ∉ (Finset.range mmNumOfPages).filter (IsFree (takePage mm index)) := by
    simp
  rw [freeCount, freeCount, split, Finset.card_insert_of_notMem fresh]

theorem freeCount_eq_zero_iff (mm : Mm) :
    freeCount mm = 0 ↔ ∀ index, index < mmNumOfPages → ¬IsFree mm index := by
  simp [freeCount, Finset.filter_eq_empty_iff]

theorem getNextFreePage_of_pos {mm : Mm} (left : 0 < freeCount mm) :
    ∃ index, index < mmNumOfPages ∧ IsFree mm index ∧
      getNextFreePage mm = (takePage mm index, pageAt index) := by
  rcases getNextFreePage_cases mm with ⟨index, inside, free, _, call⟩ | ⟨all, _⟩
  · exact ⟨index, inside, free, call⟩
  · have := (freeCount_eq_zero_iff mm).mpr all
    omega

theorem getNextFreePage_of_zero {mm : Mm} (none_left : freeCount mm = 0) :
    getNextFreePage mm = (mm, 0) := by
  rcases getNextFreePage_cases mm with ⟨index, inside, free, _⟩ | ⟨_, call⟩
  · exact absurd free ((freeCount_eq_zero_iff mm).mp none_left index inside)
  · exact call

theorem isFree_of_getNextFreePage {mm : Mm} {index : Nat}
    (free : IsFree (getNextFreePage mm).1 index) : IsFree mm index := by
  rcases getNextFreePage_cases mm with ⟨taken, _, _, _, call⟩ | ⟨_, call⟩
  · rw [call] at free
    exact ((isFree_takePage mm taken index).mp free).1
  · rwa [call] at free

theorem freeCount_congr {mm after : Mm} (same : after.pageBitmap = mm.pageBitmap) :
    freeCount after = freeCount mm := by
  have filter : (Finset.range mmNumOfPages).filter (IsFree after) =
      (Finset.range mmNumOfPages).filter (IsFree mm) := by
    apply Finset.filter_congr
    intro index _
    rw [IsFree, IsFree, same]
  rw [freeCount, freeCount, filter]

end PellOs

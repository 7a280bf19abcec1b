import PellOs.Lib.FirstIndex
import PellOs.Memutils

/-!
# The page allocator

`mm.c` in its `USE_BITMAP` configuration.  `page_bitmap` has `MM_NUM_OF_PAGES / sizeof(char)` bytes
and `get_next_free_page` looks at `sizeof(char)` bits of each, so page `i` is bit zero of byte `i`.
`free_page` addresses the same array with eight pages in a byte.
-/

namespace PellOs

/-- `PAGE_SIZE`. -/
def pageSize : Nat := 4096

/-- `LOW_MEMORY`, two sections. -/
def lowMemory : Nat := 2 * 2 ^ 21

/-- `MM_AVAILABLE_PAGE_MIN`. -/
def mmAvailablePageMin : Nat := 2 ^ 22

/-- `MM_AVAILABLE_PAGE_MAX`. -/
def mmAvailablePageMax : Nat := 0xFE000000

/-- `MM_NUM_OF_PAGES`. -/
def mmNumOfPages : Nat := (mmAvailablePageMax - mmAvailablePageMin) / pageSize

/-- `VIRTUAL_ADDRESS_START`, where the kernel half maps physical address zero. -/
def virtualAddressStart : Nat := 0xffff000000000000

/-- `sizeof(char)`. -/
def sizeofChar : Nat := 1

/-- Kernel memory with the static `page_bitmap`.  Cells past the end of the array are the memory
behind it. -/
structure Mm where
  memory : Memory
  pageBitmap : Nat → UInt8

namespace Mm

/-- Replace kernel memory. -/
def setMemory (mm : Mm) (memory : Memory) : Mm := ⟨memory, mm.pageBitmap⟩

@[simp] theorem memory_setMemory (mm : Mm) (memory : Memory) :
    (mm.setMemory memory).memory = memory := rfl

@[simp] theorem pageBitmap_setMemory (mm : Mm) (memory : Memory) :
    (mm.setMemory memory).pageBitmap = mm.pageBitmap := rfl

@[simp] theorem setMemory_setMemory (mm : Mm) (first second : Memory) :
    (mm.setMemory first).setMemory second = mm.setMemory second := rfl

end Mm

/-- The loop over the bits of one byte: the first clear one. -/
def clearBit (byte : UInt8) : Nat → Nat → Option Nat
  | 0, _ => none
  | remaining + 1, j =>
      if byte &&& 1 = 0 then some j else clearBit (byte >>> 1) remaining (j + 1)

/-- The loop over the bytes of the bitmap. -/
def clearPage (bitmap : Nat → UInt8) : Nat → Nat → Option (Nat × Nat)
  | 0, _ => none
  | remaining + 1, i =>
      if bitmap i &&& 255 = 255 then
        clearPage bitmap remaining (i + 1)
      else
        match clearBit (bitmap i) sizeofChar 0 with
        | some j => some (i, j)
        | none => clearPage bitmap remaining (i + 1)

/-- `get_next_free_page`, with the physical address it returns. -/
@[irreducible] def getNextFreePage (mm : Mm) : Mm × Nat :=
  match clearPage mm.pageBitmap (mmNumOfPages / sizeofChar) 0 with
  | none => (mm, 0)
  | some (i, j) =>
      let newPage := lowMemory + (pageSize * (i * sizeofChar) + j)
      (⟨memzero mm.memory ((newPage + virtualAddressStart) % wordSize) pageSize,
        Function.update mm.pageBitmap i (mm.pageBitmap i ||| 1 <<< UInt8.ofNat j)⟩, newPage)

/-- `free_page`. -/
def freePage (mm : Mm) (ptr : Nat) : Mm :=
  let idx := (ptr + wordSize - mmAvailablePageMin) % wordSize / pageSize % 2 ^ 32
  let i := idx / 8
  let j := idx % 8
  { mm with
    pageBitmap := Function.update mm.pageBitmap i
      (mm.pageBitmap i &&& ~~~(1 <<< UInt8.ofNat j)) }

/-! ## What one call does -/

/-- Physical address of the page with a given index. -/
def pageAt (index : Nat) : Nat := lowMemory + pageSize * index

/-- `get_next_free_page` regards the page as free. -/
def IsFree (mm : Mm) (index : Nat) : Prop := mm.pageBitmap index &&& 1 = 0

instance (mm : Mm) (index : Nat) : Decidable (IsFree mm index) :=
  inferInstanceAs (Decidable (_ = _))

theorem pageAt_injective {left right : Nat} (same : pageAt left = pageAt right) : left = right := by
  simp only [pageAt, pageSize] at same
  omega

theorem pageAt_range {index : Nat} (inside : index < mmNumOfPages) :
    lowMemory ≤ pageAt index ∧ pageAt index + pageSize ≤ mmAvailablePageMax := by
  have last : pageAt (mmNumOfPages - 1) + pageSize = mmAvailablePageMax := by decide
  simp only [pageAt, pageSize] at last ⊢
  omega

theorem indexOf_pageAt {index : Nat} (inside : index < mmNumOfPages) :
    (pageAt index + wordSize - mmAvailablePageMin) % wordSize / pageSize = index := by
  have range := pageAt_range inside
  have bound : mmAvailablePageMax < wordSize := by decide
  have shift : pageAt index + wordSize - mmAvailablePageMin = pageSize * index + wordSize := by
    simp only [pageAt, lowMemory, mmAvailablePageMin]
    omega
  have small : pageSize * index < wordSize := by
    simp only [pageAt] at range
    omega
  rw [shift, Nat.add_mod_right, Nat.mod_eq_of_lt small, Nat.mul_div_cancel_left _ (by decide)]

theorem memzero_pageAt (memory : Memory) {index : Nat} (inside : index < mmNumOfPages) :
    memzero memory ((pageAt index + virtualAddressStart) % wordSize) pageSize =
      memory.fill (pageAt index + virtualAddressStart) pageSize 0 := by
  have range := pageAt_range inside
  have top : mmAvailablePageMax + virtualAddressStart ≤ wordSize := by decide
  have small : pageAt index + virtualAddressStart + pageSize ≤ wordSize := by omega
  rw [Nat.mod_eq_of_lt (show pageAt index + virtualAddressStart < wordSize by
    simp only [pageSize] at small; omega)]
  rw [show pageSize = 512 * 8 from rfl] at small ⊢
  exact memzero_eq_fill _ _ _ (by decide) (by decide) small

theorem pageAt_ne_zero (index : Nat) : pageAt index ≠ 0 := by
  have low : 0 < lowMemory := by decide
  simp only [pageAt]
  omega

private theorem clearBit_char (byte : UInt8) :
    clearBit byte sizeofChar 0 = if byte &&& 1 = 0 then some 0 else none := rfl

private theorem and_255 (byte : UInt8) : byte &&& 255 = byte := by
  have : ∀ bits : BitVec 8, bits &&& 255#8 = bits := by decide
  exact UInt8.toBitVec_inj.mp (this byte.toBitVec)

/-- The byte test skips only bytes whose low bit is set. -/
private theorem clearPage_succ (bitmap : Nat → UInt8) (remaining i : Nat) :
    clearPage bitmap (remaining + 1) i =
      if bitmap i &&& 1 = 0 then some (i, 0) else clearPage bitmap remaining (i + 1) := by
  rw [clearPage, clearBit_char, and_255]
  by_cases clear : bitmap i &&& 1 = 0
  · have not_full : bitmap i ≠ 255 := by
      intro full
      rw [full] at clear
      exact absurd clear (by decide)
    simp only [not_full, clear, if_true, if_false]
  · simp only [clear, if_false, ite_self]

/-- The scan over the bytes stops at the first page whose bit is clear. -/
private theorem clearPage_eq (bitmap : Nat → UInt8) (remaining i : Nat) :
    clearPage bitmap remaining i =
      (firstIndex (fun index => bitmap index &&& 1 = 0) remaining i).map fun index =>
        (index, 0) := by
  induction remaining generalizing i with
  | zero => rfl
  | succ remaining ih =>
      rw [clearPage_succ, ih, firstIndex]
      split_ifs <;> rfl

/-- The state after handing out the page with a given index. -/
@[irreducible] def takePage (mm : Mm) (index : Nat) : Mm :=
  ⟨mm.memory.fill (pageAt index + virtualAddressStart) pageSize 0,
    Function.update mm.pageBitmap index (mm.pageBitmap index ||| 1)⟩

theorem getNextFreePage_eq (mm : Mm) :
    getNextFreePage mm =
      match firstIndex (IsFree mm) mmNumOfPages 0 with
      | none => (mm, 0)
      | some index => (takePage mm index, pageAt index) := by
  have count : mmNumOfPages / sizeofChar = mmNumOfPages := Nat.div_one _
  have same : firstIndex (fun index => mm.pageBitmap index &&& 1 = 0) mmNumOfPages 0 =
      firstIndex (IsFree mm) mmNumOfPages 0 := firstIndex_congr fun _ _ _ => Iff.rfl
  unfold getNextFreePage
  rw [count, clearPage_eq, same]
  cases found : firstIndex (IsFree mm) mmNumOfPages 0 with
  | none => rfl
  | some index =>
      obtain ⟨-, inside, -⟩ := firstIndex_eq_some_iff.mp found
      have address : lowMemory + (pageSize * (index * sizeofChar) + 0) = pageAt index := by
        rw [sizeofChar, Nat.mul_one, Nat.add_zero, pageAt]
      simp only [Option.map_some, address, takePage]
      rw [memzero_pageAt _ (show index < mmNumOfPages by omega)]
      rfl

/-- Either the first free page is taken, cleared and returned, or every page is taken. -/
theorem getNextFreePage_cases (mm : Mm) :
    (∃ index, index < mmNumOfPages ∧ IsFree mm index ∧
        (∀ earlier, earlier < index → ¬IsFree mm earlier) ∧
        getNextFreePage mm = (takePage mm index, pageAt index)) ∨
      (∀ index, index < mmNumOfPages → ¬IsFree mm index) ∧ getNextFreePage mm = (mm, 0) := by
  rw [getNextFreePage_eq]
  cases found : firstIndex (IsFree mm) mmNumOfPages 0 with
  | none =>
      have all := firstIndex_eq_none_iff.mp found
      exact Or.inr ⟨fun index inside => all index (Nat.zero_le _) (by omega), rfl⟩
  | some index =>
      obtain ⟨-, inside, free, before⟩ := firstIndex_eq_some_iff.mp found
      exact Or.inl ⟨index, by omega, free, fun earlier => before earlier (Nat.zero_le _), rfl⟩

@[simp] theorem memory_takePage (mm : Mm) (index : Nat) :
    (takePage mm index).memory =
      mm.memory.fill (pageAt index + virtualAddressStart) pageSize 0 := by
  rw [takePage]

theorem isFree_congr {mm after : Mm} (same : after.pageBitmap = mm.pageBitmap) (index : Nat) :
    IsFree after index ↔ IsFree mm index := by
  rw [IsFree, IsFree, same]

@[simp] theorem isFree_takePage (mm : Mm) (taken index : Nat) :
    IsFree (takePage mm taken) index ↔ IsFree mm index ∧ index ≠ taken := by
  have set : ∀ byte : UInt8, (byte ||| 1) &&& 1 ≠ 0 := by
    have : ∀ bits : BitVec 8, (bits ||| 1#8) &&& 1#8 ≠ 0#8 := by decide
    exact fun byte zero => this byte.toBitVec (UInt8.toBitVec_inj.mpr zero)
  unfold IsFree takePage
  by_cases same : index = taken
  · subst same
    simp [set]
  · simp [same]

end PellOs

import PellOs.Memutils

/-!
# Clearing the bss section

The linker script divides the size of the section by eight, and `memzero` takes a number of bytes.
Of every eight words of the section the boot code therefore clears one, rounded up to whole words.
-/

namespace PellOs

/-- `__bss_size` of the linker script. -/
def bssSize (bssStart bssEnd : Nat) : Nat := (bssEnd - bssStart) >>> 3

/-- The part of `_start` that clears the bss section, with `memzero`. -/
def clearBss (memory : Memory) (bssStart bssEnd : Nat) : Memory :=
  memzero memory bssStart (bssSize bssStart bssEnd)

/-- Every byte of the section is zero when `_start` branches to `main`. -/
def BssCleared (memory : Memory) (bssStart bssEnd : Nat) : Prop :=
  ∀ address, bssStart ≤ address → address < bssEnd → clearBss memory bssStart bssEnd address = 0

/-- `memzero` clears whole words, at least one of them. -/
theorem memzero_apply (memory : Memory) (start size target : Nat) (small : size < 2 ^ 63)
    (fits : start + 8 * max 1 ((size + 7) / 8) ≤ wordSize) :
    memzero memory start size target =
      if start ≤ target ∧ target < start + 8 * max 1 ((size + 7) / 8) then 0
      else memory target := by
  induction size using Nat.strong_induction_on generalizing memory start with
  | _ size ih =>
      unfold memzero
      by_cases more : gtAfterSubs size 8
      · have large := more.1
        have passes : max 1 ((size + 7) / 8) = max 1 ((size - 8 + 7) / 8) + 1 := by omega
        rw [passes] at fits ⊢
        have shifted : (start + 8) % wordSize = start + 8 := Nat.mod_eq_of_lt (by omega)
        rw [if_pos more, shifted, ih (size - 8) (by omega) _ _ (by omega) (by omega)]
        by_cases inside : start + 8 ≤ target ∧ target < start + 8 + 8 * max 1 ((size - 8 + 7) / 8)
        · rw [if_pos inside, if_pos (by omega)]
        · rw [if_neg inside]
          by_cases first : start ≤ target ∧ target < start + 8
          · rw [Memory.write_zero_inside _ first.1 first.2, if_pos (by omega)]
          · rw [Memory.write_outside _ (by omega), if_neg (by omega)]
      · have passes : max 1 ((size + 7) / 8) = 1 := by
          simp only [gtAfterSubs] at more
          omega
        rw [if_neg more, passes, Nat.mul_one]
        by_cases first : start ≤ target ∧ target < start + 8
        · rw [Memory.write_zero_inside _ first.1 first.2, if_pos first]
        · rw [Memory.write_outside _ (by omega), if_neg first]

section Section

variable {memory : Memory} {bssStart bssEnd : Nat}

theorem bssSize_eq (bssStart bssEnd : Nat) : bssSize bssStart bssEnd = (bssEnd - bssStart) / 8 := by
  rw [bssSize, Nat.shiftRight_eq_div_pow]

/-- The section is cleared if and only if it was zero already behind the words that the boot code
reaches, one for every eight words of the section. -/
theorem bss_cleared_iff (start_aligned : bssStart % 8 = 0) (end_aligned : bssEnd % 8 = 0)
    (order : bssStart ≤ bssEnd) (start_lt : bssStart < wordSize) (fits : bssEnd ≤ wordSize) :
    BssCleared memory bssStart bssEnd ↔
      ∀ address, bssStart + 8 * ((bssEnd - bssStart + 63) / 64) ≤ address → address < bssEnd →
        memory address = 0 := by
  have size := bssSize_eq bssStart bssEnd
  have words : (bssSize bssStart bssEnd + 7) / 8 = (bssEnd - bssStart + 63) / 64 := by omega
  have reached : ∀ address, clearBss memory bssStart bssEnd address =
      if bssStart ≤ address ∧ address < bssStart + 8 * max 1 ((bssEnd - bssStart + 63) / 64) then 0
      else memory address := by
    intro address
    rw [clearBss, memzero_apply, words]
    · simp only [wordSize] at fits
      omega
    · rw [words]
      simp only [wordSize] at fits start_lt ⊢
      omega
  constructor
  · intro cleared address lower upper
    have zero := cleared address (by omega) upper
    rw [reached, if_neg (by omega)] at zero
    exact zero
  · intro zero address lower upper
    rw [reached]
    split_ifs with early
    · rfl
    · exact zero address (by omega) upper

/-- A section of one word is cleared. -/
theorem bss_cleared_one_word :
    BssCleared (fun _ => 0xff) 0xffff000000090000 0xffff000000090008 :=
  (bss_cleared_iff (by decide) (by decide) (by decide) (by decide) (by decide)).mpr
    fun address lower upper => by omega

/-- The second word of a section of two words keeps its old contents. -/
theorem bss_second_word_not_cleared :
    clearBss (fun _ => 0xff) 0xffff000000090000 0xffff000000090010 0xffff000000090008 = 0xff ∧
      ¬BssCleared (fun _ => 0xff) 0xffff000000090000 0xffff000000090010 := by
  have kept : clearBss (fun _ => 0xff) 0xffff000000090000 0xffff000000090010
      0xffff000000090008 = 0xff := by
    rw [clearBss, show bssSize 0xffff000000090000 0xffff000000090010 = 2 by decide,
      memzero_apply _ _ _ _ (by decide) (by decide), if_neg (by decide)]
  refine ⟨kept, ?_⟩
  intro cleared
  have zero := cleared 0xffff000000090008 (by decide) (by decide)
  rw [kept] at zero
  exact absurd zero (by decide)

end Section

end PellOs

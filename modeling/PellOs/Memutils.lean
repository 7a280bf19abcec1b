import PellOs.Lib.ByteMemory

/-!
# Assembly memory helpers

The routines of `utils.S` are post-tested loops: each body runs once before its counter is
compared.  Registers are 64 bits wide and `b.gt` compares signed values, so a counter with its top
bit set ends a loop after the first pass.
-/

namespace PellOs

/-- Number of values of a 64-bit register. -/
abbrev wordSize : Nat := 2 ^ 64

theorem wordSize_eq_pow : wordSize = 256 ^ 8 := by norm_num

theorem succ_mod_add (pointer i : Nat) :
    ((pointer + 1) % wordSize + i) % wordSize = (pointer + (i + 1)) % wordSize := by
  rw [Nat.mod_add_mod, Nat.add_assoc, Nat.add_comm 1]

/-- The `gt` condition after `subs x, x, #step`: the old register exceeds `step` as a signed
number. -/
def gtAfterSubs (register step : Nat) : Prop :=
  step < register ∧ register < 2 ^ 63

instance (register step : Nat) : Decidable (gtAfterSubs register step) :=
  inferInstanceAs (Decidable (_ ∧ _))

/-- `memzero`: clear eight bytes per pass. -/
def memzero (memory : Memory) (start size : Nat) : Memory :=
  let cleared := memory.write start 8 0
  if gtAfterSubs size 8 then
    memzero cleared ((start + 8) % wordSize) (size - 8)
  else
    cleared
termination_by size
decreasing_by
  rename_i more
  have := more.1
  omega

/-- `memzero_u8`: each pass clears the four bytes of `wzr` and moves on by one. -/
def memzeroU8 (memory : Memory) (start size : Nat) : Memory :=
  let cleared := memory.write start 4 0
  if gtAfterSubs size 1 then
    memzeroU8 cleared ((start + 1) % wordSize) (size - 1)
  else
    cleared
termination_by size
decreasing_by
  rename_i more
  have := more.1
  omega

/-- `memcpy_u8`: move one byte per pass. -/
def memcpyU8 (memory : Memory) (dest src size : Nat) : Memory :=
  let moved := memory.writeByte dest (memory src)
  if gtAfterSubs size 1 then
    memcpyU8 moved ((dest + 1) % wordSize) ((src + 1) % wordSize) (size - 1)
  else
    moved
termination_by size
decreasing_by
  rename_i more
  have := more.1
  omega

/-- `memcpy_u64`: move eight bytes per pass. -/
def memcpyU64 (memory : Memory) (dest src size : Nat) : Memory :=
  let moved := memory.write dest 8 (memory.read src 8)
  if gtAfterSubs size 8 then
    memcpyU64 moved ((dest + 8) % wordSize) ((src + 8) % wordSize) (size - 8)
  else
    moved
termination_by size
decreasing_by
  rename_i more
  have := more.1
  omega

/-- `memcpy`: `msub x4, x2, x5, x2` leaves `size - size * 64`, and only a zero there selects the
eight-byte loop. -/
def memcpy (memory : Memory) (dest src size : Nat) : Memory :=
  if (size + size * (wordSize - 64)) % wordSize = 0 then
    memcpyU64 memory dest src size
  else
    memcpyU8 memory dest src size

/-! ## Clearing whole words -/

/-- Clearing a positive multiple of eight bytes inside the address space fills exactly that
range. -/
theorem memzero_eq_fill (memory : Memory) (start words : Nat) (words_pos : 0 < words)
    (small : words * 8 < 2 ^ 63) (fits : start + words * 8 ≤ wordSize) :
    memzero memory start (words * 8) = memory.fill start (words * 8) 0 := by
  induction words generalizing memory start with
  | zero => omega
  | succ words ih =>
      unfold memzero
      by_cases last : words = 0
      · subst last
        rw [if_neg (by unfold gtAfterSubs; omega)]
        funext target
        simp [Memory.write, Memory.fill]
      · rw [if_pos (by unfold gtAfterSubs; omega)]
        have shifted : (start + 8) % wordSize = start + 8 := Nat.mod_eq_of_lt (by omega)
        have remaining : (words + 1) * 8 - 8 = words * 8 := by omega
        rw [shifted, remaining, ih _ _ (by omega) (by omega) (by omega)]
        funext target
        simp only [Memory.write, Memory.fill, Nat.zero_div]
        split_ifs <;> first | rfl | omega

/-- Clearing byte by byte clears three bytes more than it is asked for. -/
theorem memzeroU8_apply (memory : Memory) (start size target : Nat) (size_pos : 0 < size)
    (small : size < 2 ^ 63) (fits : start + size ≤ wordSize) :
    memzeroU8 memory start size target =
      if start ≤ target ∧ target < start + size + 3 then 0 else memory target := by
  induction size generalizing memory start with
  | zero => omega
  | succ size ih =>
      unfold memzeroU8
      by_cases last : size = 0
      · subst last
        rw [if_neg (by unfold gtAfterSubs; omega)]
        simp only [Memory.write, Nat.zero_div]
        rfl
      · rw [if_pos (by unfold gtAfterSubs; omega)]
        have shifted : (start + 1) % wordSize = start + 1 := Nat.mod_eq_of_lt (by omega)
        rw [shifted, Nat.add_sub_cancel, ih _ _ (by omega) (by omega) (by omega)]
        simp only [Memory.write, Nat.zero_div]
        split_ifs <;> first | rfl | omega

/-! ## Copying -/

/-- The remainder that `memcpy` computes is zero only for an empty copy. -/
theorem dispatch_ne_zero {size : Nat} (size_pos : 0 < size) (small : size < wordSize) :
    (size + size * (wordSize - 64)) % wordSize ≠ 0 := by
  intro zero
  have difference : (size + size * (wordSize - 64)) % wordSize =
      (size * (wordSize - 63)) % wordSize := by
    congr 1
    rw [show wordSize - 63 = 1 + (wordSize - 64) by norm_num]
    ring
  rw [difference] at zero
  -- 63 is odd, so multiplication by its negation is injective on registers
  have divides : wordSize ∣ size * (wordSize - 63) := Nat.dvd_of_mod_eq_zero zero
  have coprime : Nat.Coprime wordSize (wordSize - 63) := by norm_num
  have := Nat.le_of_dvd size_pos (coprime.dvd_of_dvd_mul_right divides)
  omega

/-- The dispatch reaches the eight-byte loop only for an empty copy. -/
theorem memcpy_eq_memcpyU8 (memory : Memory) (dest src : Nat) {size : Nat} (size_pos : 0 < size)
    (small : size < wordSize) : memcpy memory dest src size = memcpyU8 memory dest src size := by
  rw [memcpy, if_neg (dispatch_ne_zero size_pos small)]

/-- A byte copy between ranges that do not overlap writes the source bytes to the destination and
nothing else. -/
theorem memcpyU8_apply (memory : Memory) (dest src size target : Nat) (size_pos : 0 < size)
    (small : size < 2 ^ 63) (dest_fits : dest + size ≤ wordSize) (src_fits : src + size ≤ wordSize)
    (disjoint : dest + size ≤ src ∨ src + size ≤ dest) :
    memcpyU8 memory dest src size target =
      if dest ≤ target ∧ target < dest + size then memory (src + (target - dest))
      else memory target := by
  induction size generalizing memory dest src with
  | zero => omega
  | succ size ih =>
      unfold memcpyU8
      by_cases last : size = 0
      · subst last
        rw [if_neg (by unfold gtAfterSubs; omega)]
        simp only [Memory.writeByte]
        by_cases here : target = dest
        · subst here
          simp
        · rw [if_neg here, if_neg (by omega)]
      · rw [if_pos (by unfold gtAfterSubs; omega)]
        have dest_next : (dest + 1) % wordSize = dest + 1 := Nat.mod_eq_of_lt (by omega)
        have src_next : (src + 1) % wordSize = src + 1 := Nat.mod_eq_of_lt (by omega)
        rw [dest_next, src_next, Nat.add_sub_cancel,
          ih _ _ _ (by omega) (by omega) (by omega) (by omega) (by omega)]
        simp only [Memory.writeByte]
        by_cases first : target = dest
        · subst first
          rw [if_neg (by omega), if_pos rfl, if_pos (by omega)]
          simp
        · by_cases inside : dest ≤ target ∧ target < dest + (size + 1)
          · rw [if_pos (by omega), if_neg (by omega), if_pos inside]
            congr 1
            omega
          · rw [if_neg (by omega), if_neg first, if_neg inside]

/-- A byte copy stores only at the addresses of its destination, which wrap around. -/
theorem memcpyU8_outside (memory : Memory) (src : Nat) {dest size target : Nat}
    (size_pos : 0 < size) (dest_lt : dest < wordSize)
    (outside : ∀ i < size, target ≠ (dest + i) % wordSize) :
    memcpyU8 memory dest src size target = memory target := by
  induction size generalizing memory dest src with
  | zero => omega
  | succ size ih =>
      have first : target ≠ dest := by
        have here := outside 0 size_pos
        rwa [Nat.add_zero, Nat.mod_eq_of_lt dest_lt] at here
      unfold memcpyU8
      by_cases more : gtAfterSubs (size + 1) 1
      · have rest_pos : 0 < size := by
          have := more.1
          omega
        rw [if_pos more, Nat.add_sub_cancel, ih _ _ rest_pos (Nat.mod_lt _ (by decide)) ?_,
          Memory.writeByte_of_ne _ first]
        intro i bound
        rw [succ_mod_add]
        exact outside (i + 1) (by omega)
      · rw [if_neg more, Memory.writeByte_of_ne _ first]

/-- An empty copy takes the eight-byte loop, which makes one pass. -/
theorem memcpy_zero (memory : Memory) (dest src : Nat) :
    memcpy memory dest src 0 = memory.write dest 8 (memory.read src 8) := by
  rw [memcpy, if_pos (by decide), memcpyU64, if_neg (by simp [gtAfterSubs])]

theorem memcpy_apply (memory : Memory) (dest src size target : Nat) (size_pos : 0 < size)
    (small : size < 2 ^ 63) (dest_fits : dest + size ≤ wordSize) (src_fits : src + size ≤ wordSize)
    (disjoint : dest + size ≤ src ∨ src + size ≤ dest) :
    memcpy memory dest src size target =
      if dest ≤ target ∧ target < dest + size then memory (src + (target - dest))
      else memory target := by
  rw [memcpy_eq_memcpyU8 memory dest src size_pos (by omega)]
  exact memcpyU8_apply memory dest src size target size_pos small dest_fits src_fits disjoint

end PellOs

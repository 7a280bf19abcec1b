import PellOs.Memutils

/-!
# The range of a copy

Which addresses `memcpy` accesses follows from its registers alone: the source and the destination
pointer take the same steps.  A nonempty copy moves exactly its range, also when the range runs over
the end of the address space.  An empty one is dispatched to the eight-byte loop, whose body runs
before the size is looked at.
-/

namespace PellOs

/-! ## Accesses -/

/-- Addresses behind the pointers of `memcpy_u8`, pass by pass. -/
def memcpyU8Accesses (pointer size : Nat) : List Nat :=
  pointer ::
    if gtAfterSubs size 1 then memcpyU8Accesses ((pointer + 1) % wordSize) (size - 1) else []
termination_by size
decreasing_by
  rename_i more
  have := more.1
  omega

/-- Addresses behind the pointers of `memcpy_u64`, eight bytes a pass. -/
def memcpyU64Accesses (pointer size : Nat) : List Nat :=
  (List.range 8).map (pointer + ·) ++
    if gtAfterSubs size 8 then memcpyU64Accesses ((pointer + 8) % wordSize) (size - 8) else []
termination_by size
decreasing_by
  rename_i more
  have := more.1
  omega

/-- Addresses that `memcpy` reads through its source pointer, and writes through its destination
pointer. -/
def memcpyAccesses (pointer size : Nat) : List Nat :=
  if (size + size * (wordSize - 64)) % wordSize = 0 then memcpyU64Accesses pointer size
  else memcpyU8Accesses pointer size

/-- Bytes that `memcpy` moves: a size with the top bit set ends the byte loop after one pass, and
an empty copy moves a word. -/
def memcpyMoved (size : Nat) : Nat :=
  if size = 0 then 8 else if size < 2 ^ 63 then size else 1

theorem mem_memcpyU8Accesses {pointer size address : Nat} (size_pos : 0 < size)
    (pointer_lt : pointer < wordSize) :
    address ∈ memcpyU8Accesses pointer size ↔
      ∃ i < memcpyMoved size, address = (pointer + i) % wordSize := by
  induction size generalizing pointer with
  | zero => omega
  | succ size ih =>
      unfold memcpyU8Accesses
      have first : (pointer + 0) % wordSize = pointer := Nat.mod_eq_of_lt pointer_lt
      by_cases more : gtAfterSubs (size + 1) 1
      · have small := more.2
        have rest_pos : 0 < size := by
          have := more.1
          omega
        have moved : memcpyMoved (size + 1) = memcpyMoved size + 1 := by
          rw [memcpyMoved, memcpyMoved, if_neg (Nat.succ_ne_zero size), if_pos small,
            if_neg (Nat.ne_of_gt rest_pos), if_pos (by omega)]
        rw [if_pos more, Nat.add_sub_cancel, List.mem_cons, ih rest_pos (Nat.mod_lt _ (by decide)),
          moved]
        constructor
        · rintro (rfl | ⟨i, bound, rfl⟩)
          · refine ⟨0, ?_, first.symm⟩
            omega
          · refine ⟨i + 1, by omega, ?_⟩
            rw [succ_mod_add]
        · rintro ⟨i, bound, rfl⟩
          cases i with
          | zero => exact Or.inl first
          | succ i =>
              refine Or.inr ⟨i, by omega, ?_⟩
              rw [succ_mod_add]
      · have moved : memcpyMoved (size + 1) = 1 := by
          rw [memcpyMoved, if_neg (Nat.succ_ne_zero size)]
          simp only [gtAfterSubs] at more
          split_ifs with small
          · omega
          · rfl
        rw [if_neg more, List.mem_singleton, moved]
        constructor
        · rintro rfl
          refine ⟨0, ?_, first.symm⟩
          omega
        · rintro ⟨i, bound, rfl⟩
          obtain rfl : i = 0 := by omega
          exact first

theorem memcpyU64Accesses_zero (pointer : Nat) :
    memcpyU64Accesses pointer 0 = (List.range 8).map (pointer + ·) := by
  rw [memcpyU64Accesses, if_neg (by simp [gtAfterSubs]), List.append_nil]

theorem memcpyAccesses_of_pos (pointer : Nat) {size : Nat} (size_pos : 0 < size)
    (small : size < wordSize) : memcpyAccesses pointer size = memcpyU8Accesses pointer size := by
  rw [memcpyAccesses, if_neg (dispatch_ne_zero size_pos small)]

theorem memcpyAccesses_zero (pointer : Nat) :
    memcpyAccesses pointer 0 = (List.range 8).map (pointer + ·) := by
  rw [memcpyAccesses, if_pos (by decide), memcpyU64Accesses_zero]

/-- Every byte outside the accesses of the destination pointer is kept, whatever the size. -/
theorem memcpy_outside_accesses (memory : Memory) (src : Nat) {dest size target : Nat}
    (small : size < wordSize) (dest_lt : dest < wordSize)
    (outside : target ∉ memcpyAccesses dest size) :
    memcpy memory dest src size target = memory target := by
  rcases Nat.eq_zero_or_pos size with rfl | size_pos
  · rw [memcpyAccesses_zero, List.mem_map] at outside
    rw [memcpy_zero]
    refine Memory.write_outside _ ?_
    by_contra inside
    exact outside ⟨target - dest, List.mem_range.mpr (by omega), by omega⟩
  · rw [memcpyAccesses_of_pos dest size_pos small] at outside
    rw [memcpy_eq_memcpyU8 memory dest src size_pos small]
    clear small
    induction size generalizing memory dest src with
    | zero => omega
    | succ size ih =>
        unfold memcpyU8Accesses at outside
        rw [List.mem_cons, not_or] at outside
        unfold memcpyU8
        by_cases more : gtAfterSubs (size + 1) 1
        · have rest_pos : 0 < size := by
            have := more.1
            omega
          rw [if_pos more, Nat.add_sub_cancel] at outside
          rw [if_pos more, Nat.add_sub_cancel, ih _ _ (Nat.mod_lt _ (by decide)) outside.2 rest_pos,
            Memory.writeByte_of_ne _ outside.1]
        · rw [if_neg more, Memory.writeByte_of_ne _ outside.1]

/-! ## Exact copies -/

/-- A byte copy between ranges that do not overlap moves the source bytes, also across the end of
the address space. -/
theorem memcpyU8_copied (memory : Memory) {dest src size i : Nat} (small : size < 2 ^ 63)
    (dest_lt : dest < wordSize) (src_lt : src < wordSize)
    (apart : ∀ i < size, ∀ j < size, (dest + i) % wordSize ≠ (src + j) % wordSize)
    (bound : i < size) :
    memcpyU8 memory dest src size ((dest + i) % wordSize) = memory ((src + i) % wordSize) := by
  induction size generalizing memory dest src i with
  | zero => omega
  | succ size ih =>
      have dest_first : (dest + 0) % wordSize = dest := Nat.mod_eq_of_lt dest_lt
      have src_first : (src + 0) % wordSize = src := Nat.mod_eq_of_lt src_lt
      unfold memcpyU8
      by_cases more : gtAfterSubs (size + 1) 1
      · have rest_pos : 0 < size := by
          have := more.1
          omega
        rw [if_pos more, Nat.add_sub_cancel]
        cases i with
        | zero =>
            rw [dest_first, src_first, memcpyU8_outside _ _ rest_pos (Nat.mod_lt _ (by decide)) ?_,
              Memory.writeByte_same]
            intro j later
            rw [succ_mod_add]
            simp only [wordSize] at dest_lt small ⊢
            omega
        | succ i =>
            rw [← succ_mod_add dest i, ih _ (by omega) (Nat.mod_lt _ (by decide))
              (Nat.mod_lt _ (by decide)) ?_ (by omega), succ_mod_add, Memory.writeByte_of_ne]
            · have differ := apart 0 (by omega) (i + 1) bound
              rw [dest_first] at differ
              exact differ.symm
            · intro left left_bound right right_bound
              rw [succ_mod_add, succ_mod_add]
              exact apart (left + 1) (by omega) (right + 1) (by omega)
      · obtain rfl : size = 0 := by
          simp only [gtAfterSubs] at more
          omega
        obtain rfl : i = 0 := by omega
        rw [if_neg more, dest_first, src_first, Memory.writeByte_same]

/-- `memcpy` moves the bytes of its range, reads no other byte and changes no other byte.  Addresses
wrap around. -/
structure CopiesExactly (memory : Memory) (dest src size : Nat) : Prop where
  copied : ∀ i < size,
    memcpy memory dest src size ((dest + i) % wordSize) = memory ((src + i) % wordSize)
  reads : ∀ address ∈ memcpyAccesses src size, ∃ i < size, address = (src + i) % wordSize
  kept : ∀ address, (∀ i < size, address ≠ (dest + i) % wordSize) →
    memcpy memory dest src size address = memory address

/-- A copy between ranges that do not overlap is exact if and only if it is not empty. -/
theorem memcpy_exact_iff {dest src size : Nat} (memory : Memory) (small : size < 2 ^ 63)
    (dest_lt : dest < wordSize) (src_lt : src < wordSize)
    (apart : ∀ i < size, ∀ j < size, (dest + i) % wordSize ≠ (src + j) % wordSize) :
    CopiesExactly memory dest src size ↔ size ≠ 0 := by
  constructor
  · rintro exact_copy rfl
    have first : src + 0 ∈ memcpyAccesses src 0 := by
      rw [memcpyAccesses_zero]
      exact List.mem_map.mpr ⟨0, by decide, rfl⟩
    obtain ⟨i, bound, _⟩ := exact_copy.reads _ first
    omega
  · intro nonempty
    have size_pos := Nat.pos_of_ne_zero nonempty
    have word : size < wordSize := by
      simp only [wordSize]
      omega
    have moved : memcpyMoved size = size := by rw [memcpyMoved, if_neg nonempty, if_pos small]
    constructor
    · intro i bound
      rw [memcpy_eq_memcpyU8 memory dest src size_pos word]
      exact memcpyU8_copied memory small dest_lt src_lt apart bound
    · intro address member
      rw [memcpyAccesses_of_pos src size_pos word, mem_memcpyU8Accesses size_pos src_lt,
        moved] at member
      exact member
    · intro address outside
      rw [memcpy_eq_memcpyU8 memory dest src size_pos word]
      exact memcpyU8_outside memory src size_pos dest_lt outside

/-- Memory with the byte seven at one address. -/
def sevenAt (address : Nat) : Memory := fun target => if target = address then 7 else 0

/-- Five bytes across the end of the address space. -/
theorem memcpy_exact_wrapping : CopiesExactly (sevenAt 0x1000) (wordSize - 2) 0x1000 5 :=
  (memcpy_exact_iff _ (by decide) (by decide) (by decide) (by decide)).mpr (by decide)

/-- An empty copy moves eight bytes. -/
theorem memcpy_empty_not_exact :
    memcpy (sevenAt 0x2000) 0x1000 0x2000 0 0x1000 = 7 ∧
      sevenAt 0x2000 0x1000 = 0 ∧ ¬CopiesExactly (sevenAt 0x2000) 0x1000 0x2000 0 := by
  have moved : memcpy (sevenAt 0x2000) 0x1000 0x2000 0 0x1000 = 7 := by
    rw [memcpy_zero]
    unfold Memory.write
    rfl
  have before : sevenAt 0x2000 0x1000 = 0 := rfl
  refine ⟨moved, before, ?_⟩
  intro exact_copy
  have same := exact_copy.kept 0x1000 (fun i bound => by omega)
  rw [moved, before] at same
  exact absurd same (by decide)

end PellOs

import PellOs.Fs.Lookup

/-!
# Comparing strings

`strcmp` of `utils.S` register by register.  The loop ends at the first byte that differs or is zero
in either string; the difference is formed in 32 bits, and the caller keeps its lowest eight as a
signed number.  The lookup compares with the list function of the same name, which is the number
that this loop computes.
-/

namespace PellOs

/-! ## The loop -/

/-- Result of `strcmp` in `w0`, and the addresses read through `x0` and through `x1`. -/
structure StrcmpRun where
  w0 : Nat
  readsLeft : List Nat
  readsRight : List Nat

/-- `sub` of two 32-bit registers. -/
def subWords (left right : Nat) : Nat := (left + 2 ^ 32 - right) % 2 ^ 32

/-- A pass of the loop before the one that is given. -/
def StrcmpRun.after (x0 x1 : Nat) (run : StrcmpRun) : StrcmpRun :=
  ⟨run.w0, x0 :: run.readsLeft, x1 :: run.readsRight⟩

/-- `strcmp` with at most the given number of passes. -/
def strcmpLoop (memory : Memory) : Nat → Nat → Nat → Option StrcmpRun
  | 0, _, _ => none
  | passes + 1, x0, x1 =>
      let w3 := (memory x0).toNat
      let w4 := (memory x1).toNat
      if w3 = 0 then some ⟨subWords w3 w4, [x0], [x1]⟩
      else if w4 = 0 then some ⟨subWords w3 w4, [x0], [x1]⟩
      else
        let w2 := subWords w3 w4
        if w2 = 0 then
          (strcmpLoop memory passes ((x0 + 1) % wordSize) ((x1 + 1) % wordSize)).map
            (StrcmpRun.after x0 x1)
        else some ⟨w2, [x0], [x1]⟩

/-- The value of type `sint8_t` that a caller takes from `w0`. -/
def sint8 (w0 : Nat) : Int := (w0 : Int).bmod (2 ^ 8)

/-- A string with its terminator stands at an address. -/
structure StringAt (memory : Memory) (address : Nat) (string : List UInt8) : Prop where
  stored : Memory.Stored (charAt memory address) 0 (string ++ [0])
  no_nul : 0 ∉ string

/-- The addresses of a string up to its terminator. -/
def WithinString (address : Nat) (string : List UInt8) (read : Nat) : Prop :=
  ∃ i ≤ string.length, read = (address + i) % wordSize

/-! ## Differences of bytes -/

theorem subWords_bytes (left right : UInt8) :
    (subWords left.toNat right.toNat : Int) = ((left.toNat : Int) - right.toNat) % 2 ^ 32 := by
  have left_lt := left.toNat_lt
  have right_lt := right.toNat_lt
  unfold subWords
  omega

theorem subWords_bytes_eq_zero {left right : UInt8} :
    subWords left.toNat right.toNat = 0 ↔ left = right := by
  have left_lt := left.toNat_lt
  have right_lt := right.toNat_lt
  rw [← UInt8.toNat_inj]
  unfold subWords
  omega

/-- The difference of two bytes survives the truncation. -/
theorem sint8_eq_zero {w0 : Nat} {difference : Int} (low : -256 < difference)
    (high : difference < 256) (result : (w0 : Int) = difference % 2 ^ 32) :
    sint8 w0 = 0 ↔ difference = 0 := by
  have whole : sint8 w0 = 0 ↔ ((2 ^ 8 : Nat) : Int) ∣ w0 := Int.dvd_iff_bmod_eq_zero.symm
  rw [whole]
  omega

theorem strcmp_bounds (left : Nat → UInt8) (right : List UInt8) (index : Nat) :
    -256 < strcmp left right index ∧ strcmp left right index < 256 := by
  induction right generalizing index with
  | nil =>
      have left_lt := (left index).toNat_lt
      simp only [strcmp]
      omega
  | cons byte right ih =>
      have left_lt := (left index).toNat_lt
      have byte_lt := byte.toNat_lt
      rw [strcmp]
      split_ifs
      · omega
      · exact ih (index + 1)
      · omega

/-! ## Runs on strings -/

section Run

variable {memory : Memory} {a b : Nat}

theorem strcmpLoop_last {x0 x1 passes : Nat}
    (last : memory x0 = 0 ∨ memory x1 = 0 ∨ memory x0 ≠ memory x1) :
    strcmpLoop memory (passes + 1) x0 x1 =
      some ⟨subWords (memory x0).toNat (memory x1).toNat, [x0], [x1]⟩ := by
  rw [strcmpLoop]
  by_cases left_zero : (memory x0).toNat = 0
  · rw [if_pos left_zero]
  by_cases right_zero : (memory x1).toNat = 0
  · rw [if_neg left_zero, if_pos right_zero]
  have differ : subWords (memory x0).toNat (memory x1).toNat ≠ 0 := by
    rw [ne_eq, subWords_bytes_eq_zero]
    rcases last with zero | zero | differ
    · exact absurd (congrArg UInt8.toNat zero) left_zero
    · exact absurd (congrArg UInt8.toNat zero) right_zero
    · exact differ
  rw [if_neg left_zero, if_neg right_zero]
  exact if_neg differ

theorem strcmpLoop_next {x0 x1 passes : Nat} (same : memory x0 = memory x1)
    (nonzero : memory x0 ≠ 0) :
    strcmpLoop memory (passes + 1) x0 x1 =
      (strcmpLoop memory passes ((x0 + 1) % wordSize) ((x1 + 1) % wordSize)).map
        (StrcmpRun.after x0 x1) := by
  have left_nonzero : (memory x0).toNat ≠ 0 := fun zero => nonzero (UInt8.toNat.inj zero)
  rw [strcmpLoop, ← same, if_neg left_nonzero, if_neg left_nonzero]
  exact if_pos (subWords_bytes_eq_zero.mpr rfl)

/-- The run of `strcmp` from byte `i` of both strings on. -/
structure StrcmpFrom (memory : Memory) (a b i : Nat) (left right : List UInt8)
    (run : StrcmpRun) : Prop where
  returns : ∀ passes, left.length < passes →
    strcmpLoop memory passes ((a + i) % wordSize) ((b + i) % wordSize) = some run
  readsLeft : ∀ read ∈ run.readsLeft, ∃ j ≤ left.length, read = (a + (i + j)) % wordSize
  readsRight : ∀ read ∈ run.readsRight, ∃ j ≤ right.length, read = (b + (i + j)) % wordSize
  result : (run.w0 : Int) = strcmp (charAt memory a) right i % 2 ^ 32

theorem StrcmpFrom.last {i : Nat} {left right : List UInt8}
    (last : charAt memory a i = 0 ∨ charAt memory b i = 0 ∨ charAt memory a i ≠ charAt memory b i)
    (result : strcmp (charAt memory a) right i =
      (charAt memory a i).toNat - (charAt memory b i).toNat) :
    ∃ run, StrcmpFrom memory a b i left right run := by
  refine ⟨⟨subWords (charAt memory a i).toNat (charAt memory b i).toNat, [(a + i) % wordSize],
    [(b + i) % wordSize]⟩, ?_, ?_, ?_, ?_⟩
  · intro passes enough
    cases passes with
    | zero => omega
    | succ passes => exact strcmpLoop_last last
  · intro read member
    exact ⟨0, Nat.zero_le _, List.mem_singleton.mp member⟩
  · intro read member
    exact ⟨0, Nat.zero_le _, List.mem_singleton.mp member⟩
  · rw [result, subWords_bytes]

theorem StrcmpFrom.next {i : Nat} {byte : UInt8} {left right : List UInt8} {run : StrcmpRun}
    (left_byte : charAt memory a i = byte) (right_byte : charAt memory b i = byte)
    (nonzero : byte ≠ 0) (rest : StrcmpFrom memory a b (i + 1) left right run) :
    StrcmpFrom memory a b i (byte :: left) (byte :: right)
      (run.after ((a + i) % wordSize) ((b + i) % wordSize)) := by
  have step : ∀ pointer, ((pointer + i) % wordSize + 1) % wordSize =
      (pointer + (i + 1)) % wordSize := by
    intro pointer
    rw [Nat.mod_add_mod, Nat.add_assoc]
  constructor
  · intro passes enough
    cases passes with
    | zero => omega
    | succ passes =>
        have same : memory ((a + i) % wordSize) = memory ((b + i) % wordSize) :=
          left_byte.trans right_byte.symm
        rw [strcmpLoop_next same (fun zero => nonzero (left_byte.symm.trans zero)), step, step,
          rest.returns passes (by rw [List.length_cons] at enough; omega)]
        rfl
  · intro read member
    rcases List.mem_cons.mp member with rfl | later
    · exact ⟨0, Nat.zero_le _, rfl⟩
    · obtain ⟨j, bound, rfl⟩ := rest.readsLeft read later
      exact ⟨j + 1, by rw [List.length_cons]; omega, by rw [Nat.add_assoc i, Nat.add_comm 1]⟩
  · intro read member
    rcases List.mem_cons.mp member with rfl | later
    · exact ⟨0, Nat.zero_le _, rfl⟩
    · obtain ⟨j, bound, rfl⟩ := rest.readsRight read later
      exact ⟨j + 1, by rw [List.length_cons]; omega, by rw [Nat.add_assoc i, Nat.add_comm 1]⟩
  · rw [strcmp, left_byte, if_neg (by simp [nonzero]), if_pos rfl]
    exact rest.result

/-- On two strings the loop ends, reads neither past its terminator, and computes `strcmp`. -/
theorem strcmpFrom {i : Nat} {left right : List UInt8}
    (left_stored : Memory.Stored (charAt memory a) i (left ++ [0]))
    (right_stored : Memory.Stored (charAt memory b) i (right ++ [0]))
    (left_no_nul : 0 ∉ left) (right_no_nul : 0 ∉ right) :
    ∃ run, StrcmpFrom memory a b i left right run := by
  induction left generalizing right i with
  | nil =>
      have left_zero : charAt memory a i = 0 := left_stored.1
      refine StrcmpFrom.last (Or.inl left_zero) ?_
      cases right with
      | nil => simp [strcmp, right_stored.1]
      | cons target right => simp [strcmp, left_zero, right_stored.1]
  | cons byte left ih =>
      have left_byte : charAt memory a i = byte := left_stored.1
      have nonzero : byte ≠ 0 := fun zero => left_no_nul (by simp [zero])
      cases right with
      | nil =>
          have right_zero : charAt memory b i = 0 := right_stored.1
          exact StrcmpFrom.last (Or.inr (Or.inl right_zero)) (by simp [strcmp, right_zero])
      | cons target right =>
          have right_byte : charAt memory b i = target := right_stored.1
          by_cases same : byte = target
          · subst same
            obtain ⟨run, rest⟩ := ih left_stored.2 right_stored.2
              (fun member => left_no_nul (List.mem_cons_of_mem _ member))
              (fun member => right_no_nul (List.mem_cons_of_mem _ member))
            exact ⟨_, rest.next left_byte right_byte nonzero⟩
          · refine StrcmpFrom.last (Or.inr (Or.inr ?_)) ?_
            · rw [left_byte, right_byte]
              exact same
            · rw [strcmp, left_byte, right_byte, if_neg same, ite_self]

end Run

/-- `strcmp` decides equality: on any two strings it returns, reads neither past its terminator,
and what the caller sees is zero exactly for equal strings. -/
theorem strcmp_decides_equality {memory : Memory} {a b : Nat} {left right : List UInt8}
    (a_lt : a < wordSize) (b_lt : b < wordSize) (left_at : StringAt memory a left)
    (right_at : StringAt memory b right) :
    ∃ run, (∀ passes, left.length < passes → strcmpLoop memory passes a b = some run) ∧
      (∀ read ∈ run.readsLeft, WithinString a left read) ∧
      (∀ read ∈ run.readsRight, WithinString b right read) ∧
      (sint8 run.w0 = 0 ↔ left = right) := by
  obtain ⟨run, result⟩ :=
    strcmpFrom left_at.stored right_at.stored left_at.no_nul right_at.no_nul
  refine ⟨run, ?_, ?_, ?_, ?_⟩
  · intro passes enough
    have returned := result.returns passes enough
    rwa [Nat.add_zero, Nat.add_zero, Nat.mod_eq_of_lt a_lt, Nat.mod_eq_of_lt b_lt] at returned
  · intro read member
    obtain ⟨j, bound, position⟩ := result.readsLeft read member
    exact ⟨j, bound, by rwa [Nat.zero_add] at position⟩
  · intro read member
    obtain ⟨j, bound, position⟩ := result.readsRight read member
    exact ⟨j, bound, by rwa [Nat.zero_add] at position⟩
  · have bounds := strcmp_bounds (charAt memory a) right 0
    rw [sint8_eq_zero bounds.1 bounds.2 result.result]
    exact strcmp_eq_zero_iff left_at.stored left_at.no_nul right_at.no_nul

/-- Strings with bytes of the upper half at two addresses, the first a prefix of the second. -/
def prefixMemory : Memory := fun address =>
  if address = 0x1000 ∨ address = 0x2000 ∨ address = 0x2001 then 0xff else 0

/-- A string and a prefix of it differ. -/
theorem strcmp_decides_equality_prefix :
    StringAt prefixMemory 0x1000 [0xff] ∧ StringAt prefixMemory 0x2000 [0xff, 0xff] ∧
      ∃ run, (∀ passes, 1 < passes → strcmpLoop prefixMemory passes 0x1000 0x2000 = some run) ∧
        (∀ read ∈ run.readsLeft, WithinString 0x1000 [0xff] read) ∧
        (∀ read ∈ run.readsRight, WithinString 0x2000 [0xff, 0xff] read) ∧
        (sint8 run.w0 = 0 ↔ [(0xff : UInt8)] = [0xff, 0xff]) := by
  have left_at : StringAt prefixMemory 0x1000 [0xff] :=
    ⟨⟨by decide, by decide, trivial⟩, by decide⟩
  have right_at : StringAt prefixMemory 0x2000 [0xff, 0xff] :=
    ⟨⟨by decide, by decide, by decide, trivial⟩, by decide⟩
  exact ⟨left_at, right_at, strcmp_decides_equality (by decide) (by decide) left_at right_at⟩

end PellOs

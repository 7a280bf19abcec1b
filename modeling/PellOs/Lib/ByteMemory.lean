import Mathlib.Tactic

/-!
# Little-endian byte memory

A memory is a total function from addresses to bytes.  Words of any width are read and written in
little-endian order.  Every access touches only the bytes of its own range, so two accesses with
disjoint ranges commute and the only reasoning a client needs is the range arithmetic.
-/

/-- Byte contents of every address. -/
abbrev Memory := Nat → UInt8

namespace Memory

/-- Read `width` bytes from `address` as a little-endian number. -/
def read (memory : Memory) : Nat → Nat → Nat
  | _, 0 => 0
  | address, width + 1 => (memory address).toNat + 256 * memory.read (address + 1) width

/-- Overwrite `width` bytes from `address` with the little-endian digits of `value`. -/
@[irreducible] def write (memory : Memory) (address width value : Nat) : Memory := fun target =>
  if address ≤ target ∧ target < address + width then
    UInt8.ofNat (value / 256 ^ (target - address))
  else
    memory target

/-- Overwrite one byte. -/
@[irreducible] def writeByte (memory : Memory) (address : Nat) (byte : UInt8) : Memory :=
  fun target =>
    if target = address then byte else memory target

/-- Overwrite `count` bytes from `address` with one repeated byte. -/
@[irreducible] def fill (memory : Memory) (address count : Nat) (byte : UInt8) : Memory :=
  fun target =>
    if address ≤ target ∧ target < address + count then byte else memory target

/-- Copy `count` bytes from `source` to `address`, as a structure assignment does. -/
@[irreducible] def copy (memory : Memory) (address source count : Nat) : Memory := fun target =>
  if address ≤ target ∧ target < address + count then memory (source + (target - address))
  else memory target

/-- The `count` bytes stored from `address` on. -/
def bytes (memory : Memory) : Nat → Nat → List UInt8
  | _, 0 => []
  | address, count + 1 => memory address :: memory.bytes (address + 1) count

/-- Two memories hold the same bytes on the range of `count` addresses from `address`. -/
def AgreeOn (before after : Memory) (address count : Nat) : Prop :=
  ∀ target, address ≤ target → target < address + count → after target = before target

/-- The bytes of a list stand in memory from `address` on. -/
def Stored (memory : Memory) : Nat → List UInt8 → Prop
  | _, [] => True
  | address, byte :: rest => memory address = byte ∧ memory.Stored (address + 1) rest

/-- The `width` little-endian digits of a number. -/
def littleEndian : Nat → Nat → List UInt8
  | 0, _ => []
  | width + 1, value => UInt8.ofNat value :: littleEndian width (value / 256)

/-! ## Reads depend only on their own range -/

theorem read_congr {before after : Memory} {address width : Nat}
    (agree : AgreeOn before after address width) :
    after.read address width = before.read address width := by
  induction width generalizing address with
  | zero => rfl
  | succ width ih =>
      have tail : AgreeOn before after (address + 1) width := by
        intro target lower upper
        exact agree target (by omega) (by omega)
      simp only [read]
      rw [agree address (by omega) (by omega), ih tail]

theorem read_eq_read {left right : Memory} {address other width : Nat}
    (same : ∀ offset < width, left (address + offset) = right (other + offset)) :
    left.read address width = right.read other width := by
  induction width generalizing address other with
  | zero => rfl
  | succ width ih =>
      have head := same 0 (Nat.succ_pos width)
      rw [Nat.add_zero, Nat.add_zero] at head
      rw [read, read, head, ih]
      intro offset bound
      rw [Nat.add_assoc, Nat.add_assoc, Nat.add_comm 1]
      exact same (offset + 1) (Nat.succ_lt_succ bound)

theorem read_lt (memory : Memory) (address width : Nat) :
    memory.read address width < 256 ^ width := by
  induction width generalizing address with
  | zero => simp [read]
  | succ width ih =>
      have digit : (memory address).toNat < 256 := (memory address).toNat_lt
      have tail := ih (address + 1)
      simp only [read, pow_succ]
      omega

@[simp] theorem length_bytes (memory : Memory) (address count : Nat) :
    (memory.bytes address count).length = count := by
  induction count generalizing address with
  | zero => rfl
  | succ count ih => simp [bytes, ih]

namespace AgreeOn

theorem refl (memory : Memory) (address count : Nat) : AgreeOn memory memory address count :=
  fun _ _ _ => rfl

theorem trans {first second third : Memory} {address count : Nat}
    (left : AgreeOn first second address count) (right : AgreeOn second third address count) :
    AgreeOn first third address count :=
  fun target lower upper => (right target lower upper).trans (left target lower upper)

theorem mono {before after : Memory} {address count inner innerCount : Nat}
    (agree : AgreeOn before after address count) (lower : address ≤ inner)
    (upper : inner + innerCount ≤ address + count) :
    AgreeOn before after inner innerCount :=
  fun target low high => agree target (by omega) (by omega)

end AgreeOn

/-! ## Writes -/

theorem write_outside (memory : Memory) {address width value target : Nat}
    (outside : target < address ∨ address + width ≤ target) :
    memory.write address width value target = memory target := by
  unfold write
  rw [if_neg (by omega)]

theorem write_zero_inside (memory : Memory) {address width target : Nat}
    (lower : address ≤ target) (upper : target < address + width) :
    memory.write address width 0 target = 0 := by
  unfold write
  rw [if_pos ⟨lower, upper⟩, Nat.zero_div]
  rfl

theorem agreeOn_write (memory : Memory) {address width value inner count : Nat}
    (disjoint : inner + count ≤ address ∨ address + width ≤ inner) :
    AgreeOn memory (memory.write address width value) inner count := by
  intro target lower upper
  exact write_outside memory (by omega)

theorem read_write_disjoint (memory : Memory) {address width value inner innerWidth : Nat}
    (disjoint : inner + innerWidth ≤ address ∨ address + width ≤ inner) :
    (memory.write address width value).read inner innerWidth = memory.read inner innerWidth :=
  read_congr (agreeOn_write memory disjoint)

private theorem read_write_tail (memory : Memory) (address width value : Nat) :
    (memory.write address (width + 1) value).read (address + 1) width =
      (memory.write (address + 1) width (value / 256)).read (address + 1) width := by
  apply read_congr
  intro target lower upper
  unfold write
  rw [if_pos (by omega), if_pos (by omega)]
  have shifted : target - address = (target - (address + 1)) + 1 := by omega
  rw [shifted, pow_succ', Nat.div_div_eq_div_mul]

/-- A word read back from where it was written is the value reduced to the word's width. -/
theorem read_write_same (memory : Memory) (address width value : Nat) :
    (memory.write address width value).read address width = value % 256 ^ width := by
  induction width generalizing memory address value with
  | zero => simp [read, Nat.mod_one]
  | succ width ih =>
      have head : ((memory.write address (width + 1) value) address).toNat = value % 256 := by
        simp [write]
      rw [read, head, read_write_tail, ih, pow_succ']
      exact (Nat.mod_mul).symm

/-! ## Single bytes and fills -/

@[simp] theorem writeByte_same (memory : Memory) (address : Nat) (byte : UInt8) :
    memory.writeByte address byte address = byte := by
  simp [writeByte]

theorem writeByte_of_ne (memory : Memory) {address target : Nat} {byte : UInt8}
    (differ : target ≠ address) : memory.writeByte address byte target = memory target := by
  simp [writeByte, differ]

theorem agreeOn_writeByte (memory : Memory) {address inner count : Nat} {byte : UInt8}
    (outside : address < inner ∨ inner + count ≤ address) :
    AgreeOn memory (memory.writeByte address byte) inner count := by
  intro target lower upper
  unfold writeByte
  rw [if_neg (by omega)]

theorem fill_outside (memory : Memory) {address count target : Nat} {byte : UInt8}
    (outside : target < address ∨ address + count ≤ target) :
    memory.fill address count byte target = memory target := by
  unfold fill
  rw [if_neg (by omega)]

theorem agreeOn_fill (memory : Memory) {address count inner innerCount : Nat} {byte : UInt8}
    (disjoint : inner + innerCount ≤ address ∨ address + count ≤ inner) :
    AgreeOn memory (memory.fill address count byte) inner innerCount := by
  intro target lower upper
  exact fill_outside memory (by omega)

theorem fill_inside (memory : Memory) {address count target : Nat} {byte : UInt8}
    (lower : address ≤ target) (upper : target < address + count) :
    memory.fill address count byte target = byte := by
  unfold fill
  rw [if_pos ⟨lower, upper⟩]

theorem copy_outside (memory : Memory) {address source count target : Nat}
    (outside : target < address ∨ address + count ≤ target) :
    memory.copy address source count target = memory target := by
  unfold copy
  rw [if_neg (by omega)]

theorem copy_inside (memory : Memory) (address source : Nat) {count offset : Nat}
    (inside : offset < count) :
    memory.copy address source count (address + offset) = memory (source + offset) := by
  unfold copy
  rw [if_pos (by omega), Nat.add_sub_cancel_left]

theorem agreeOn_copy (memory : Memory) {address source count inner innerCount : Nat}
    (disjoint : inner + innerCount ≤ address ∨ address + count ≤ inner) :
    AgreeOn memory (memory.copy address source count) inner innerCount := by
  intro target lower upper
  exact copy_outside memory (by omega)

theorem copy_zero (memory : Memory) (address source : Nat) :
    memory.copy address source 0 = memory := by
  funext target
  exact copy_outside memory (by omega)

theorem copy_succ (memory : Memory) (address source count : Nat) :
    memory.copy address source (count + 1) =
      (memory.copy address source count).writeByte (address + count) (memory (source + count)) := by
  funext target
  unfold writeByte
  split_ifs with last
  · rw [last, copy_inside memory address source (Nat.lt_succ_self count)]
  · unfold copy
    split_ifs with inside shorter shorter
    · rfl
    · omega
    · omega
    · rfl

theorem agreeOn_of_read_eq {before after : Memory} {address width : Nat}
    (same : after.read address width = before.read address width) :
    AgreeOn before after address width := by
  induction width generalizing address with
  | zero => exact fun target lower upper => by omega
  | succ width ih =>
      have digit := (after address).toNat_lt
      have old_digit := (before address).toNat_lt
      simp only [read] at same
      intro target lower upper
      by_cases first : target = address
      · rw [first]
        apply UInt8.toNat.inj
        omega
      · exact @ih (address + 1) (by omega) target (by omega) (by omega)

/-- Storing a word changes nothing exactly when it stands there already. -/
theorem write_eq_self_iff (memory : Memory) {address width value : Nat}
    (value_lt : value < 256 ^ width) :
    memory.write address width value = memory ↔ memory.read address width = value := by
  have stored := memory.read_write_same address width value
  rw [Nat.mod_eq_of_lt value_lt] at stored
  constructor
  · intro same
    rwa [same] at stored
  · intro same
    have agree := agreeOn_of_read_eq (stored.trans same.symm)
    funext target
    by_cases inside : address ≤ target ∧ target < address + width
    · exact agree target inside.1 inside.2
    · exact memory.write_outside (by omega)

/-! ## Lists of bytes in memory -/

theorem stored_append (memory : Memory) (address : Nat) (front back : List UInt8) :
    memory.Stored address (front ++ back) ↔
      memory.Stored address front ∧ memory.Stored (address + front.length) back := by
  induction front generalizing address with
  | nil => simp [Stored]
  | cons byte front ih =>
      rw [List.cons_append, Stored, Stored, ih, List.length_cons, and_assoc,
        Nat.add_right_comm, Nat.add_assoc address]

theorem Stored.get {memory : Memory} {address : Nat} {bytes : List UInt8}
    (stored : memory.Stored address bytes) {index : Nat} {byte : UInt8}
    (entry : bytes[index]? = some byte) : memory (address + index) = byte := by
  induction bytes generalizing address index with
  | nil => simp at entry
  | cons first bytes ih =>
      cases index with
      | zero =>
          rw [List.getElem?_cons_zero, Option.some.injEq] at entry
          rw [Nat.add_zero, stored.1, entry]
      | succ index =>
          rw [List.getElem?_cons_succ] at entry
          rw [Nat.add_comm index, ← Nat.add_assoc]
          exact ih stored.2 entry

theorem stored_of_get {memory : Memory} {address : Nat} {bytes : List UInt8}
    (same : ∀ index byte, bytes[index]? = some byte → memory (address + index) = byte) :
    memory.Stored address bytes := by
  induction bytes generalizing address with
  | nil => trivial
  | cons first bytes ih =>
      refine ⟨same 0 first rfl, ih fun index byte entry => ?_⟩
      rw [Nat.add_assoc, Nat.add_comm 1]
      exact same (index + 1) byte (by rw [List.getElem?_cons_succ, entry])

theorem stored_iff_bytes (memory : Memory) (address : Nat) (bytes : List UInt8) :
    memory.Stored address bytes ↔ memory.bytes address bytes.length = bytes := by
  induction bytes generalizing address with
  | nil => simp [Stored, Memory.bytes]
  | cons byte rest ih => rw [Stored, List.length_cons, Memory.bytes, List.cons.injEq, ih]

@[simp] theorem length_littleEndian (width value : Nat) :
    (littleEndian width value).length = width := by
  induction width generalizing value with
  | zero => rfl
  | succ width ih => simp [littleEndian, ih]

theorem Stored.read_littleEndian {memory : Memory} {address width value : Nat}
    (stored : memory.Stored address (littleEndian width value)) :
    memory.read address width = value % 256 ^ width := by
  induction width generalizing address value with
  | zero => simp [read, Nat.mod_one]
  | succ width ih =>
      rw [read, stored.1, ih stored.2, pow_succ', UInt8.toNat_ofNat']
      exact (Nat.mod_mul).symm

theorem read_zero {memory : Memory} {address width : Nat}
    (zero : ∀ target, address ≤ target → target < address + width → memory target = 0) :
    memory.read address width = 0 := by
  induction width generalizing address with
  | zero => rfl
  | succ width ih =>
      rw [read, zero address (by omega) (by omega),
        ih fun target lower upper => zero target (by omega) (by omega)]
      rfl

end Memory

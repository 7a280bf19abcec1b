import Mathlib.Tactic

/-!
# Packed bitmaps

A bitmap is an array of bytes that holds eight bits in each, lowest bit first.  Setting and clearing
one bit with a mask changes that bit alone.
-/

namespace Bitmap

/-- Bit `position` of a byte. -/
def bit (byte : UInt8) (position : Nat) : Bool := byte.toBitVec.getLsbD position

/-- Bit `index` of an array of bytes. -/
def member (bytes : Nat → UInt8) (index : Nat) : Bool := bit (bytes (index / 8)) (index % 8)

/-- Set bit `index` of an array of bytes. -/
def insert (bytes : Nat → UInt8) (index : Nat) : Nat → UInt8 :=
  Function.update bytes (index / 8) (bytes (index / 8) ||| 1 <<< UInt8.ofNat (index % 8))

/-- Clear bit `index` of an array of bytes. -/
def erase (bytes : Nat → UInt8) (index : Nat) : Nat → UInt8 :=
  Function.update bytes (index / 8) (bytes (index / 8) &&& ~~~(1 <<< UInt8.ofNat (index % 8)))

/-! ## Masks -/

private theorem bit_mask {position other : Nat} (inside : position < 8) (bound : other < 8) :
    bit (1 <<< UInt8.ofNat position) other = decide (other = position) := by
  interval_cases position <;> interval_cases other <;> rfl

theorem bit_or_mask (byte : UInt8) {position other : Nat} (inside : position < 8)
    (bound : other < 8) :
    bit (byte ||| 1 <<< UInt8.ofNat position) other =
      (bit byte other || decide (other = position)) := by
  rw [← bit_mask inside bound]
  simp only [bit, UInt8.toBitVec_or, BitVec.getLsbD_or]

theorem bit_and_not_mask (byte : UInt8) {position other : Nat} (inside : position < 8)
    (bound : other < 8) :
    bit (byte &&& ~~~(1 <<< UInt8.ofNat position)) other =
      (bit byte other && !decide (other = position)) := by
  rw [← bit_mask inside bound]
  simp only [bit, UInt8.toBitVec_and, UInt8.toBitVec_not, BitVec.getLsbD_and, BitVec.getLsbD_not,
    bound, decide_true, Bool.true_and]

theorem bit_shiftRight_one (byte : UInt8) (position : Nat) :
    bit (byte >>> 1) position = bit byte (position + 1) := by
  simp only [bit, UInt8.toBitVec_shiftRight, BitVec.ushiftRight_eq', BitVec.getLsbD_ushiftRight]
  rw [Nat.add_comm]
  rfl

theorem and_one_eq_zero_iff (byte : UInt8) : byte &&& 1 = 0 ↔ bit byte 0 = false := by
  have table : ∀ bits : BitVec 8, bits &&& 1#8 = 0#8 ↔ bits.getLsbD 0 = false := by decide
  rw [← UInt8.toBitVec_inj]
  exact table byte.toBitVec

theorem eq_full_iff (byte : UInt8) : byte = 255 ↔ ∀ position < 8, bit byte position = true := by
  have table : ∀ bits : BitVec 8, bits = 255#8 ↔ ∀ position < 8, bits.getLsbD position = true := by
    decide
  rw [← UInt8.toBitVec_inj]
  exact table byte.toBitVec

theorem eq_of_bits {left right : UInt8}
    (same : ∀ position < 8, bit left position = bit right position) :
    left = right := by
  apply UInt8.toBitVec_inj.mp
  exact BitVec.eq_of_getLsbD_eq same

/-! ## Arrays of bytes -/

theorem member_insert (bytes : Nat → UInt8) (index other : Nat) :
    member (insert bytes index) other = (member bytes other || decide (other = index)) := by
  unfold member insert
  by_cases same : other / 8 = index / 8
  · rw [same, Function.update_self, bit_or_mask _ (Nat.mod_lt _ (by omega))
      (Nat.mod_lt _ (by omega))]
    congr 2
    exact propext ⟨fun low => by omega, fun equal => by rw [equal]⟩
  · rw [Function.update_of_ne same, decide_eq_false fun equal => same (by rw [equal]),
      Bool.or_false]

theorem member_erase (bytes : Nat → UInt8) (index other : Nat) :
    member (erase bytes index) other = (member bytes other && !decide (other = index)) := by
  unfold member erase
  by_cases same : other / 8 = index / 8
  · rw [same, Function.update_self,
      bit_and_not_mask _ (Nat.mod_lt _ (by omega)) (Nat.mod_lt _ (by omega))]
    congr 3
    exact propext ⟨fun low => by omega, fun equal => by rw [equal]⟩
  · rw [Function.update_of_ne same, decide_eq_false fun equal => same (by rw [equal]),
      Bool.not_false, Bool.and_true]

theorem erase_of_not_member {bytes : Nat → UInt8} {index : Nat}
    (clear : member bytes index = false) :
    erase bytes index = bytes := by
  apply Function.update_eq_self_iff.mpr
  apply eq_of_bits
  intro position bound
  rw [bit_and_not_mask _ (Nat.mod_lt _ (by omega)) bound]
  by_cases here : position = index % 8
  · rw [here]
    rw [member] at clear
    rw [clear, Bool.false_and]
  · rw [decide_eq_false here, Bool.not_false, Bool.and_true]

theorem byte_full_iff (bytes : Nat → UInt8) (position : Nat) :
    bytes position = 255 ↔
      ∀ index, 8 * position ≤ index → index < 8 * (position + 1) → member bytes index = true := by
  rw [eq_full_iff]
  constructor
  · intro full index lower upper
    have byte : index / 8 = position := by omega
    rw [member, byte]
    exact full (index % 8) (Nat.mod_lt _ (by omega))
  · intro members low bound
    have here := members (8 * position + low) (by omega) (by omega)
    have byte : (8 * position + low) / 8 = position := by omega
    have digit : (8 * position + low) % 8 = low := by omega
    rwa [member, byte, digit] at here

end Bitmap

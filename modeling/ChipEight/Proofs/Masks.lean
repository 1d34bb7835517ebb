import ChipEight.Sprite
import Mathlib.Data.Nat.Bitwise

/-!
Bits that a mask picks out of a byte. A mask with one bit set leaves that bit or nothing.
-/
namespace ChipEight

section Mask

variable {v mask : UInt8} {i : Nat}

theorem toNat_and_single (single : mask.toNat = 2 ^ i) :
    (v &&& mask).toNat = (v.toNat.testBit i).toNat * 2 ^ i := by
  rw [UInt8.toNat_and, single, Nat.and_two_pow]

theorem and_single_ne_zero (single : mask.toNat = 2 ^ i) :
    (v &&& mask != 0) = v.toNat.testBit i := by
  rw [Bool.eq_iff_iff, bne_iff_ne, ne_eq, ← UInt8.toNat_inj, toNat_and_single single]
  cases v.toNat.testBit i with
  | false => simp
  | true => simp

theorem and_single_eq_mask (single : mask.toNat = 2 ^ i) :
    (v &&& mask == mask) = v.toNat.testBit i := by
  have hpos : 0 < 2 ^ i := Nat.two_pow_pos i
  rw [Bool.eq_iff_iff, beq_iff_eq, ← UInt8.toNat_inj, toNat_and_single single, single]
  cases v.toNat.testBit i with
  | false => simpa using hpos.ne
  | true => simp

end Mask

/-- The leftmost pixel of a row is in the highest bit. -/
theorem Sprite.bit_eq (row : UInt8) {column : Nat} (h : column < 8) :
    bit row column = row.toNat.testBit (7 - column) := by
  have single : ∀ column < 8, ((0x80 : UInt8) >>> UInt8.ofNat column).toNat = 2 ^ (7 - column) := by
    decide
  exact and_single_ne_zero (single column h)

end ChipEight

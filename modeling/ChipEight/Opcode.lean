import ChipEight.Word

/-!
Instruction words and their operand fields. Read as four digits `T X Y N`, a word names its class
by `T`, two registers by `X` and `Y`, and literals by its last one, two or three digits.
-/
namespace ChipEight

abbrev Opcode := UInt16

/-- The number of registers. -/
abbrev registerCount : Nat := 16

/-- One of the registers `V0` to `VF`. -/
abbrev Register := Fin registerCount

namespace Opcode

/-- The instruction class `T`. -/
def family (w : Opcode) : Fin 16 := digit w 3

def x (w : Opcode) : Register := digit w 2

def y (w : Opcode) : Register := digit w 1

/-- The last digit, as a number. -/
def n (w : Opcode) : UInt8 := (w % 16).toUInt8

/-- The last two digits. -/
def nn (w : Opcode) : UInt8 := w.toUInt8

/-- The last three digits. -/
def nnn (w : Opcode) : UInt16 := w % 4096

/-- A word of high and low byte. -/
def ofBytes (high low : UInt8) : Opcode := high.toUInt16 * 256 + low.toUInt16

@[simp] theorem toNat_ofBytes (high low : UInt8) :
    (ofBytes high low).toNat = high.toNat * 256 + low.toNat := by
  have h := high.toNat_lt
  have l := low.toNat_lt
  simp only [ofBytes, UInt16.toNat_add, UInt16.toNat_mul, UInt8.toNat_toUInt16,
    UInt16.reduceToNat]
  omega

/-- A word determines its bytes. -/
theorem ofBytes_injective {a b c d : UInt8} (h : ofBytes a b = ofBytes c d) : a = c ∧ b = d := by
  have h := congrArg UInt16.toNat h
  simp only [toNat_ofBytes] at h
  have hb := b.toNat_lt
  have hd := d.toNat_lt
  constructor <;> apply UInt8.toNat_inj.mp <;> omega

@[simp] theorem toNat_n (w : Opcode) : (n w).toNat = w.toNat % 16 := by
  simp only [n, UInt16.toNat_toUInt8, UInt16.toNat_mod, UInt16.reduceToNat]
  omega

@[simp] theorem toNat_nn (w : Opcode) : (nn w).toNat = w.toNat % 256 := by
  simp [nn]

@[simp] theorem toNat_nnn (w : Opcode) : (nnn w).toNat = w.toNat % 4096 := by
  simp [nnn]

end Opcode

end ChipEight

import ChipEight.Proofs.Footprint
import ChipEight.Proofs.Masks

/-!
Operations on two registers, in numbers. The operands are read before anything is written and the
flag is written last: with `VF` as an operand the flag is still about its old value, and with `VF`
as the target the flag takes the place of the result.
-/
namespace ChipEight

namespace Combine

/-- What an operation makes of the numbers in `VX` and `VY`. -/
def value (op : Combine) (vx vy : Nat) : Int :=
  match op with
  | .copy => vy
  | .or => (vx ||| vy : Nat)
  | .and => (vx &&& vy : Nat)
  | .xor => (vx ^^^ vy : Nat)
  | .add => (vx + vy) % 256
  | .subtract => (vx - vy) % 256
  | .shiftRight => vx / 2
  | .subtractFrom => (vy - vx) % 256
  | .shiftLeft => 2 * vx % 256

/-- Whether an operation that has a flag sets it. At equality nothing is borrowed. -/
def Raises (op : Combine) (vx vy : Nat) : Prop :=
  match op with
  | .copy | .or | .and | .xor => False
  | .add => 255 < vx + vy
  | .subtract => vy ≤ vx
  | .shiftRight => vx % 2 = 1
  | .subtractFrom => vx ≤ vy
  | .shiftLeft => 128 ≤ vx

theorem result_eq (op : Combine) (vx vy : UInt8) :
    op.result vx vy = match op with
      | .copy => vy
      | .or => vx ||| vy
      | .and => vx &&& vy
      | .xor => vx ^^^ vy
      | .add => vx + vy
      | .subtract => vx - vy
      | .shiftRight => vx / 2
      | .subtractFrom => vy - vx
      | .shiftLeft => 2 * vx := by
  cases op with
  | shiftRight =>
    apply UInt8.toNat_inj.mp
    rw [UInt8.toNat_div]
    exact (UInt8.toNat_shiftRight vx 1).trans (Nat.shiftRight_eq_div_pow vx.toNat 1)
  | shiftLeft =>
    apply UInt8.toNat_inj.mp
    have hshift : (vx <<< 1).toNat = vx.toNat <<< 1 % 256 := UInt8.toNat_shiftLeft vx 1
    rw [UInt8.toNat_mul]
    exact hshift.trans (by rw [Nat.shiftLeft_eq, Nat.mul_comm]; rfl)
  | _ => rfl

theorem flag?_eq (op : Combine) (vx vy : UInt8) :
    op.flag? vx vy = match op with
      | .copy | .or | .and | .xor => none
      | .add => some (decide (255 < vx.toNat + vy.toNat))
      | .subtract => some (decide (vy ≤ vx))
      | .shiftRight => some (decide (vx % 2 = 1))
      | .subtractFrom => some (decide (vx ≤ vy))
      | .shiftLeft => some (decide (128 ≤ vx)) := by
  have hborrow : ∀ a b : UInt8, (! decide (a.toNat < b.toNat)) = decide (b ≤ a) := by
    intro a b
    rw [← decide_not, decide_eq_decide, Nat.not_lt, UInt8.le_iff_toNat_le]
  cases op with
  | copy | or | and | xor => rfl
  | add => rfl
  | subtract => exact congrArg some (hborrow vx vy)
  | subtractFrom => exact congrArg some (hborrow vy vx)
  | shiftRight =>
    have hlowest : (vx &&& 1 == 1) = vx.toNat.testBit 0 := and_single_eq_mask rfl
    refine congrArg some (hlowest.trans ?_)
    rw [Nat.testBit_zero, decide_eq_decide, ← UInt8.toNat_inj, UInt8.toNat_mod]
    rfl
  | shiftLeft =>
    have hhighest : (vx &&& 0x80 == 0x80) = vx.toNat.testBit 7 := and_single_eq_mask rfl
    have hbyte := vx.toNat_lt
    have hmask : (128 : UInt8).toNat = 128 := rfl
    refine congrArg some (hhighest.trans ?_)
    rw [Nat.testBit_eq_decide_div_mod_eq, decide_eq_decide, UInt8.le_iff_toNat_le, hmask]
    omega

theorem toNat_result (op : Combine) (vx vy : UInt8) :
    ((op.result vx vy).toNat : Int) = op.value vx.toNat vy.toNat := by
  have hx := vx.toNat_lt
  have hy := vy.toNat_lt
  rw [result_eq]
  cases op with
  | copy => rfl
  | or => exact congrArg Int.ofNat (UInt8.toNat_or vx vy)
  | and => exact congrArg Int.ofNat (UInt8.toNat_and vx vy)
  | xor => exact congrArg Int.ofNat (UInt8.toNat_xor vx vy)
  | add | shiftRight | shiftLeft =>
    simp only [value, UInt8.toNat_add, UInt8.toNat_div, UInt8.toNat_mul, UInt8.reduceToNat]
    omega
  | subtract | subtractFrom =>
    simp only [value, UInt8.toNat_sub]
    omega

theorem flag?_of_not_hasFlag {op : Combine} (h : ¬ op.HasFlag) (vx vy : UInt8) :
    op.flag? vx vy = none := by
  cases op with
  | copy | or | and | xor => rfl
  | add | subtract | shiftRight | subtractFrom | shiftLeft => exact absurd trivial h

theorem exists_flag? {op : Combine} (h : op.HasFlag) (vx vy : UInt8) :
    ∃ flag, op.flag? vx vy = some flag ∧ (flag = true ↔ op.Raises vx.toNat vy.toNat) := by
  rw [flag?_eq]
  cases op with
  | copy | or | and | xor => exact absurd h id
  | add => exact ⟨_, rfl, decide_eq_true_iff⟩
  | subtract | subtractFrom | shiftLeft =>
    exact ⟨_, rfl, decide_eq_true_iff.trans UInt8.le_iff_toNat_le⟩
  | shiftRight =>
    refine ⟨_, rfl, decide_eq_true_iff.trans ?_⟩
    rw [← UInt8.toNat_inj, UInt8.toNat_mod]
    rfl

end Combine

namespace Machine

variable {H : Type}

theorem combine_of_not_hasFlag (m : Machine H) {op : Combine} (h : ¬ op.HasFlag) (x y : Register) :
    m.combine op x y = m.writeReg x (op.result (m.reg x) (m.reg y)) := by
  unfold combine
  dsimp only
  rw [Combine.flag?_of_not_hasFlag h]

theorem combine_of_hasFlag (m : Machine H) {op : Combine} (h : op.HasFlag) (x y : Register) :
    ∃ flag, (flag = true ↔ op.Raises (m.reg x).toNat (m.reg y).toNat) ∧
      m.combine op x y = (m.writeReg x (op.result (m.reg x) (m.reg y))).writeFlag flag := by
  obtain ⟨flag, hflag, hraises⟩ := Combine.exists_flag? h (m.reg x) (m.reg y)
  refine ⟨flag, hraises, ?_⟩
  unfold combine
  dsimp only
  rw [hflag]

theorem reg_combine_flag (m : Machine H) {op : Combine} (h : op.HasFlag) (x y : Register) :
    let raised := op.Raises (m.reg x).toNat (m.reg y).toNat
    raised ∧ (m.combine op x y).reg flagRegister = 1 ∨
      ¬ raised ∧ (m.combine op x y).reg flagRegister = 0 := by
  intro raised
  obtain ⟨flag, hraises, hcombine⟩ := m.combine_of_hasFlag h x y
  rw [hcombine, reg_writeFlag]
  cases flag with
  | true => exact .inl ⟨hraises.mp rfl, rfl⟩
  | false => exact .inr ⟨fun h => Bool.false_ne_true (hraises.mpr h), rfl⟩

theorem reg_combine_target (m : Machine H) {op : Combine} {x : Register}
    (h : op.HasFlag → x ≠ flagRegister) (y : Register) :
    (m.combine op x y).reg x = op.result (m.reg x) (m.reg y) := by
  by_cases hop : op.HasFlag
  · obtain ⟨flag, -, hcombine⟩ := m.combine_of_hasFlag hop x y
    rw [hcombine, writeFlag, reg_writeReg_of_ne _ _ (h hop), reg_writeReg_self]
  · rw [m.combine_of_not_hasFlag hop, reg_writeReg_self]

variable [Host H]

/-- An operation on two registers, whichever they are. Those that have a flag leave it in `VF`, even
if `VF` is the target; any other target holds the value of the operation. Nothing else changes, but
that the next instruction comes. -/
theorem combine_in_numbers (m : Machine H) (op : Combine) (x y : Register) :
    let vx := (m.reg x).toNat
    let vy := (m.reg y).toNat
    let combined := m.execute (.combine op x y)
    (op.HasFlag →
      op.Raises vx vy ∧ combined.state.reg flagRegister = 1 ∨
        ¬ op.Raises vx vy ∧ combined.state.reg flagRegister = 0) ∧
      ((op.HasFlag → x ≠ flagRegister) →
        ((combined.state.reg x).toNat : Int) = op.value vx vy) ∧
      (∀ r, r ≠ x → (op.HasFlag → r ≠ flagRegister) → combined.state.reg r = m.reg r) ∧
      combined.result = .ok .idle ∧
      combined.state = { m with
        registers := combined.state.registers
        pc := (m.pc + 2) % 0x1000 } := by
  intro vx vy combined
  refine ⟨fun hop => m.reg_combine_flag hop x y, ?_, ?_, rfl, ?_⟩
  · intro htarget
    rw [← Combine.toNat_result, ← m.reg_combine_target htarget y]
    rfl
  · intro r hx hflag
    apply m.reg_combine_of_not_writes
    rintro (hr | ⟨hop, hr⟩)
    · exact hx hr
    · exact hflag hop hr
  · exact (congrArg Turn.state (m.execute_combine op x y)).trans (move_next _)

/-- `VF` is added to itself. The carry is that of the old values, and it replaces the sum. -/
theorem combine_in_numbers_of_the_flag_itself :
    let m : Machine Console :=
      { initial ⟨"CARRY", [0x8F, 0xF4], by decide⟩ Console.fresh RandomStream.zeros with
        registers := (Vector.replicate 16 7).set 15 0x90 (by decide) }
    let combined := m.execute (.combine .add 15 15)
    Combine.HasFlag .add ∧ combined.state.reg flagRegister = 1 ∧
      combined.state.reg 3 = 7 ∧ combined.state.pc = 0x202 := by
  intro m combined
  obtain ⟨hflag, -, hothers, -, hstate⟩ := m.combine_in_numbers .add 15 15
  have hone : combined.state.reg flagRegister = 1 := by
    rcases hflag trivial with ⟨-, hone⟩ | ⟨hnot, -⟩
    · exact hone
    · exact absurd (by decide : 255 < 0x90 + 0x90) hnot
  have hthree : combined.state.reg 3 = m.reg 3 := hothers 3 (by decide) fun _ => by decide
  exact ⟨trivial, hone, hthree, congrArg Machine.pc hstate⟩

end Machine

end ChipEight

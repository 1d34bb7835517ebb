import ChipEight.Memory

/-!
How an instruction moves the program counter. An instruction is two bytes long and addresses have
twelve bits: the sixteen bit sum wraps first and is then cut, which is the same as cutting once.
-/
namespace ChipEight

/-- Bytes per instruction. -/
abbrev instructionSize : Nat := 2

inductive Step where
  | stay
  | next
  /-- Passes over the following instruction. -/
  | skip
  | jump (target : UInt16)
  deriving DecidableEq, Repr

/-- A test instruction skips when its condition holds. -/
def Step.when (condition : Bool) : Step := if condition then .skip else .next

/-- The address that a step leads to. All but its twelve bits are masked out. -/
def Step.apply (pc : UInt16) (step : Step) : UInt16 :=
  let address := match step with
    | .stay => pc
    | .next => pc + .ofNat instructionSize
    | .skip => pc + .ofNat (2 * instructionSize)
    | .jump target => target
  address &&& .ofNat topAddress

@[simp] theorem Step.when_true : Step.when true = .skip := rfl
@[simp] theorem Step.when_false : Step.when false = .next := rfl

theorem and_topAddress (a : UInt16) : a &&& .ofNat topAddress = a % 4096 := by
  apply UInt16.toNat_inj.mp
  rw [UInt16.toNat_and, UInt16.toNat_mod]
  exact Nat.and_two_pow_sub_one_eq_mod a.toNat 12

@[simp] theorem Step.apply_stay (pc : UInt16) : Step.stay.apply pc = pc % 4096 := and_topAddress pc

@[simp] theorem Step.apply_next (pc : UInt16) : Step.next.apply pc = (pc + 2) % 4096 :=
  and_topAddress (pc + 2)

@[simp] theorem Step.apply_skip (pc : UInt16) : Step.skip.apply pc = (pc + 4) % 4096 :=
  and_topAddress (pc + 4)

@[simp] theorem Step.apply_jump (pc target : UInt16) :
    (Step.jump target).apply pc = target % 4096 := and_topAddress target

theorem Step.apply_lt (step : Step) (pc : UInt16) : (step.apply pc).toNat < 4096 := by
  unfold apply
  dsimp only
  rw [and_topAddress, UInt16.toNat_mod]
  exact Nat.mod_lt _ (by decide)

end ChipEight

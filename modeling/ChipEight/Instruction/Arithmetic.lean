import ChipEight.Instruction

/-!
What the operations on two registers compute. All results are cut to eight bits.
-/
namespace ChipEight.Combine

/-- The sum, and whether it has more than eight bits. -/
def overflowingAdd (a b : UInt8) : UInt8 × Bool :=
  (a + b, BitVec.uaddOverflow a.toBitVec b.toBitVec)

/-- The difference, and whether it is below zero. -/
def overflowingSub (a b : UInt8) : UInt8 × Bool :=
  (a - b, BitVec.usubOverflow a.toBitVec b.toBitVec)

/-- The new value of `VX`, and the flag of the operations that have one. -/
def compute (op : Combine) (vx vy : UInt8) : UInt8 × Option Bool :=
  match op with
  | .copy => (vy, none)
  | .or => (vx ||| vy, none)
  | .and => (vx &&& vy, none)
  | .xor => (vx ^^^ vy, none)
  | .add =>
    let (sum, carry) := overflowingAdd vx vy
    (sum, some carry)
  | .subtract =>
    let (difference, borrow) := overflowingSub vx vy
    (difference, some (! borrow))
  | .shiftRight =>
    let lowest : UInt8 := 1
    (vx >>> 1, some (vx &&& lowest == lowest))
  | .subtractFrom =>
    let (difference, borrow) := overflowingSub vy vx
    (difference, some (! borrow))
  | .shiftLeft =>
    let highest := (1 : UInt8) <<< 7
    (vx <<< 1, some (vx &&& highest == highest))

/-- The new value of `VX`. -/
def result (op : Combine) (vx vy : UInt8) : UInt8 := (op.compute vx vy).1

/-- The flag, for the operations that have one. -/
def flag? (op : Combine) (vx vy : UInt8) : Option Bool := (op.compute vx vy).2

end ChipEight.Combine

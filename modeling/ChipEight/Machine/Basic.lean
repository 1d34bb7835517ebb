import ChipEight.Countdown
import ChipEight.Host
import ChipEight.Program
import ChipEight.RandomStream
import ChipEight.Signal
import ChipEight.Step
import ChipEight.Turn

/-!
The state of a machine, and its state before the first instruction.
-/
namespace ChipEight

/-- Instructions per second of a machine at its ordinary speed. -/
def cpuRate : Nat := 500

/-- The register that takes flags, `VF`. -/
def flagRegister : Register := 15

/-- The number of return addresses that the stack holds. -/
def stackLimit : Nat := 16

abbrev Registers := Vector UInt8 registerCount

inductive Mode where
  | running
  /-- Repeats the instruction that waits for a key, for register `x`. -/
  | awaitingKey (x : Register)
  deriving DecidableEq, Repr

structure Machine (H : Type) where
  name : String
  /-- The last word fetched. -/
  opcode : Opcode
  memory : Memory
  registers : Registers
  index : UInt16
  pc : UInt16
  /-- The addresses of the calls under way, the innermost first. -/
  stack : List UInt16
  delay : Countdown
  sound : Countdown
  random : RandomStream
  run : Mode
  host : H

namespace Machine

variable {H : Type}

/-- The machine with a program loaded, at its first instruction. -/
def initial (program : Program) (host : H) (random : RandomStream) : Machine H where
  name := program.name
  opcode := 0
  memory := program.memory
  registers := Vector.replicate registerCount 0
  index := 0
  pc := programStart
  stack := []
  delay := Countdown.zero
  sound := Countdown.zero
  random := random
  run := .running
  host := host

def boot (program : Program) (host : H) (random : RandomStream) : Turn (Machine H) Unit :=
  ⟨initial program host random, (), [.loaded program.name program.image.length]⟩

/-- The value of `VX`. -/
def reg (m : Machine H) (x : Register) : UInt8 := m.registers[x]

def writeReg (m : Machine H) (x : Register) (v : UInt8) : Machine H :=
  { m with registers := m.registers.set x v }

def writeFlag (m : Machine H) (flag : Bool) : Machine H :=
  m.writeReg flagRegister (if flag then 1 else 0)

/-- The same machine at another host. -/
def mapHost {K : Type} (f : H → K) (m : Machine H) : Machine K where
  name := m.name
  opcode := m.opcode
  memory := m.memory
  registers := m.registers
  index := m.index
  pc := m.pc
  stack := m.stack
  delay := m.delay
  sound := m.sound
  random := m.random
  run := m.run
  host := f m.host

/-- Moves the program counter. -/
def move (m : Machine H) (step : Step) : Machine H := { m with pc := step.apply m.pc }

theorem move_next (m : Machine H) : m.move .next = { m with pc := (m.pc + 2) % 0x1000 } :=
  congrArg (fun pc => { m with pc := pc }) (Step.apply_next m.pc)

theorem reg_writeReg (m : Machine H) (x y : Register) (v : UInt8) :
    (m.writeReg x v).reg y = if x = y then v else m.reg y := by
  simp [reg, writeReg, Vector.getElem_set, Fin.ext_iff]

end Machine

end ChipEight

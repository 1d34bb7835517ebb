import ChipEight.Instruction.Decode
import ChipEight.Machine.Execute

/-!
The machine in time: the next instruction, the tick of both timers, and the way past an instruction
that can not be executed.
-/
namespace ChipEight

namespace Machine

variable {H : Type}

/-- Keeps the word at the program counter as the last one fetched. -/
def fetch (m : Machine H) : Machine H := { m with opcode := m.memory.fetch m.pc }

/-- One step down for both timers; says if the sound ended with it. -/
def countDown (m : Machine H) : Turn (Machine H) Bool :=
  let ended := m.sound.isRunning && ! m.sound.tick.isRunning
  ⟨{ m with delay := m.delay.tick, sound := m.sound.tick }, ended,
    if ended then [.soundEnded] else []⟩

/-- A tick of the clock, reported with the values before it. -/
def tick (m : Machine H) : Turn (Machine H) Bool :=
  m.countDown.after [.ticked m.delay.value m.sound.value]

/-- Passes over the instruction at the program counter. -/
def passOver (m : Machine H) : Machine H := move { m with run := .running } .next

theorem passOver_eq (m : Machine H) :
    m.passOver = { m with pc := (m.pc + 2) % 0x1000, run := .running } := move_next _

variable [Host H]

/-- Fetches, decodes and executes one instruction. -/
def cycle (m : Machine H) : Outcome H :=
  let m := m.fetch
  Turn.after [.fetched m.pc m.opcode] <|
    match Instruction.decode? m.opcode with
    | some instruction => m.execute instruction
    | none => m.refuse (.undecodable m.opcode m.pc)

end Machine

end ChipEight

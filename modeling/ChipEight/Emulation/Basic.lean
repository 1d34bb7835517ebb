import ChipEight.Cadence
import ChipEight.Machine.Cycle

/-!
A machine with a clock: instructions and timer ticks each have a frequency of their own, and a
policy settles what becomes of an instruction that fails.
-/
namespace ChipEight

inductive Policy where
  /-- The fault ends the run. -/
  | halt
  /-- The fault is reported and the instruction passed over. -/
  | skip
  deriving DecidableEq, Repr

structure Settings where
  /-- Instructions per second. -/
  cpuRate : Nat
  /-- Timer ticks per second. -/
  timerRate : Nat
  policy : Policy
  deriving DecidableEq, Repr

def Settings.ordinary : Settings := ⟨ChipEight.cpuRate, ChipEight.timerRate, .halt⟩

structure Emulation (H : Type) where
  machine : Machine H
  cpu : Cadence
  timer : Cadence
  settings : Settings

variable {H : Type}

/-- The instruction frequency is checked first. -/
def Emulation.ofMachine (machine : Machine H) (settings : Settings) :
    Except RateError (Emulation H) := do
  let cpu ← Cadence.ofHertz "cpu" settings.cpuRate
  let timer ← Cadence.ofHertz "timer" settings.timerRate
  pure ⟨machine, cpu, timer, settings⟩

/-- The next instruction, with the policy applied to a fault. -/
def Machine.attempt [Host H] (policy : Policy) (m : Machine H) : Outcome H :=
  let turn := m.cycle
  match turn.result with
  | .ok _ => turn
  | .error fault =>
    match policy with
    | .halt => ⟨turn.state, .error fault, turn.messages ++ [.halted turn.state.name fault]⟩
    | .skip => ⟨turn.state.passOver, .ok .idle, turn.messages ++ [.skipped fault]⟩

namespace Emulation

/-- One instruction, due or not. -/
def step [Host H] (e : Emulation H) : Turn (Emulation H) (Except Fault Signal) :=
  (e.machine.attempt e.settings.policy).within fun m => { e with machine := m }

/-- One timer tick, due or not. -/
def tick (e : Emulation H) : Turn (Emulation H) Bool :=
  e.machine.tick.within fun m => { e with machine := m }

end Emulation

end ChipEight

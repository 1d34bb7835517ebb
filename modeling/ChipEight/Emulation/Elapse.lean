import ChipEight.Emulation.Basic

/-!
What is due after some time. The timer ticks are spread over the instructions: after `k` of `c`
instructions, `k * t / c` of the `t` ticks have been applied. If no instruction is due, the ticks
still are.
-/
namespace ChipEight

/-- How far the due work has come. -/
structure Progress (H : Type) where
  machine : Machine H
  /-- The ticks applied so far. -/
  ticked : Nat
  strongest : Signal
  log : Array Message

namespace Progress

variable {H : Type}

def start (m : Machine H) : Progress H := ⟨m, 0, .idle, #[]⟩

def tickTimes : Nat → Progress H → Progress H
  | 0, p => p
  | n + 1, p =>
    let turn := p.machine.tick
    tickTimes n
      { p with machine := turn.state, ticked := p.ticked + 1, log := p.log ++ turn.messages }

/-- Ticks until `due` of them have been applied. -/
def tickUntil (due : Nat) (p : Progress H) : Progress H := p.tickTimes (due - p.ticked)

/-- The ticks that are due behind instruction `k` of `cycles`, if their product fits into 64 bits. -/
def dueBehind? (k ticks cycles : Nat) : Option Nat :=
  if k * ticks < countLimit then some (k * ticks / cycles) else none

/-- The last `left` of `cycles` instructions, each with the ticks due behind it. A fault ends them
at once; nothing comes of them if the ticks due can not be computed. -/
def rounds? [Host H] (policy : Policy) (cycles ticks : Nat) :
    Nat → Progress H → Option (Progress H × Option Fault)
  | 0, p => some (p, none)
  | left + 1, p =>
    let turn := p.machine.attempt policy
    let p := { p with machine := turn.state, log := p.log ++ turn.messages }
    match turn.result with
    | .error fault => some (p, some fault)
    | .ok signal =>
      match dueBehind? (cycles - left) ticks cycles with
      | none => none
      | some due =>
        rounds? policy cycles ticks left
          (tickUntil due { p with strongest := p.strongest.strongest signal })

/-- All instructions and ticks; without a fault the ticks that are left come last. -/
def complete? [Host H] (policy : Policy) (cycles ticks : Nat) (m : Machine H) :
    Option (Progress H × Option Fault) :=
  (rounds? policy cycles ticks cycles (start m)).map fun
    | (p, some fault) => (p, some fault)
    | (p, none) => (p.tickUntil ticks, none)

theorem dueBehind?_of_lt {k ticks cycles : Nat} (h : k * ticks < countLimit) :
    dueBehind? k ticks cycles = some (k * ticks / cycles) := if_pos h

end Progress

namespace Emulation

variable {H : Type}

/-- Runs what is due after `elapsed` and gives the strongest signal, or the fault that ended it.
Nothing comes of a time that is too long for the clock to count or for its ticks to be spread. -/
def elapse? [Host H] (e : Emulation H) (elapsed : Nanos) :
    Option (Turn (Emulation H) (Except Fault Signal)) := do
  let (cycles, cpu) ← e.cpu.elapse? elapsed
  let (ticks, timer) ← e.timer.elapse? elapsed
  let (p, fault?) ← Progress.complete? e.settings.policy cycles ticks e.machine
  let result := match fault? with
    | some fault => .error fault
    | none => .ok p.strongest
  pure ⟨{ e with machine := p.machine, cpu := cpu, timer := timer }, result, p.log.toList⟩

/-- The longest time that is made up for at once: four of the longer periods. -/
def longestLag (e : Emulation H) : Nanos := max e.cpu.period e.timer.period * 4

/-- The part of a time that is made up for. -/
def capLag (e : Emulation H) (elapsed : Nanos) : Turn (Emulation H) Nanos :=
  if e.longestLag < elapsed then ⟨e, e.longestLag, [.lagDropped (elapsed - e.longestLag)]⟩
  else ⟨e, elapsed, []⟩

/-- One frame of a run: what is due, but no more than is made up for at once. -/
def frame? [Host H] (e : Emulation H) (elapsed : Nanos) :
    Option (Turn (Emulation H) (Except Fault Signal)) :=
  let due := e.capLag elapsed
  (e.elapse? due.result).map fun turn => turn.after due.messages

end Emulation

end ChipEight

import ChipEight.Machine.Execute

/-!
Many steps in a row, as a caller makes them who steps by hand: how often each signal was given, and
the fault that ended them.
-/
namespace ChipEight

structure Tally where
  idle : Nat
  wait : Nat
  draw : Nat
  fault : Option Fault
  deriving DecidableEq, Repr

namespace Tally

def zero : Tally := ⟨0, 0, 0, none⟩

def count (t : Tally) : Signal → Tally
  | .idle => { t with idle := t.idle + 1 }
  | .wait => { t with wait := t.wait + 1 }
  | .draw => { t with draw := t.draw + 1 }

variable {S : Type}

/-- Up to `n` further steps. -/
def further (step : S → Turn S (Except Fault Signal)) :
    Nat → S → Tally → Array Message → Turn S Tally
  | 0, s, t, log => ⟨s, t, log.toList⟩
  | n + 1, s, t, log =>
    let turn := step s
    match turn.result with
    | .error fault => ⟨turn.state, { t with fault := some fault }, (log ++ turn.messages).toList⟩
    | .ok signal => Tally.further step n turn.state (t.count signal) (log ++ turn.messages)

/-- Up to `n` steps, ended by the first fault. -/
def ofSteps (step : S → Turn S (Except Fault Signal)) (n : Nat) (s : S) : Turn S Tally :=
  Tally.further step n s zero #[]

end Tally

end ChipEight

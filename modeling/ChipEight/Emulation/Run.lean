import ChipEight.Emulation.Elapse

/-!
A run: frame after frame, until the stop signal is set or a fault ends it. The stop signal is looked
at before each frame. After each frame the host sees the machine and the strongest signal of the
frame; it may change the machine, its own state and the stop signal.
-/
namespace ChipEight

/-- What the host makes of a frame. -/
structure Reply (S H : Type) where
  state : S
  machine : Machine H
  stop : Bool

inductive RunEnd where
  | stopped
  | halted (fault : Fault)
  /-- The clock gave no further time, or one too long for a frame. -/
  | outOfTime
  deriving DecidableEq, Repr

namespace Emulation

variable {S H : Type} [Host H]

/-- A run over the times that pass from frame to frame. -/
def frames (respond : S → Machine H → Signal → Reply S H) :
    List Nanos → Bool → Emulation H → S → Array Message → Turn (Emulation H × S) RunEnd
  | _, true, e, s, log => ⟨(e, s), .stopped, (log.push (.stopped e.machine.name)).toList⟩
  | [], false, e, s, log => ⟨(e, s), .outOfTime, log.toList⟩
  | elapsed :: rest, false, e, s, log =>
    match e.frame? elapsed with
    | none => ⟨(e, s), .outOfTime, log.toList⟩
    | some turn =>
      match turn.result with
      | .error fault => ⟨(turn.state, s), .halted fault, (log ++ turn.messages).toList⟩
      | .ok signal =>
        let reply := respond s turn.state.machine signal
        frames respond rest reply.stop { turn.state with machine := reply.machine } reply.state
          (log ++ turn.messages)

def run (respond : S → Machine H → Signal → Reply S H) (times : List Nanos) (stop : Bool)
    (e : Emulation H) (s : S) : Turn (Emulation H × S) RunEnd :=
  frames respond times stop e s #[.started e.machine.name e.settings.cpuRate]

end Emulation

end ChipEight

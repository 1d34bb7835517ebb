import ChipEight.Fault
import ChipEight.Nanos

/-!
The messages of the machine and of the clock that drives it, each with its level and its text.
-/
namespace ChipEight

/-- From the most severe on. -/
inductive Level where
  | error
  | warn
  | info
  | debug
  | trace
  deriving DecidableEq, Repr

def Level.rank : Level → Nat
  | .error => 0
  | .warn => 1
  | .info => 2
  | .debug => 3
  | .trace => 4

def Level.name : Level → String
  | .error => "ERROR"
  | .warn => "WARN"
  | .info => "INFO"
  | .debug => "DEBUG"
  | .trace => "TRACE"

inductive Message where
  | loaded (name : String) (length : Nat)
  | fetched (pc : UInt16) (opcode : Opcode)
  | returning (pc : UInt16)
  | routineRequested (routine : UInt16)
  | awaitingKey (x : Register)
  | soundEnded
  | ticked (delay sound : UInt8)
  | skipped (fault : Fault)
  | halted (name : String) (fault : Fault)
  | started (name : String) (hertz : Nat)
  | stopped (name : String)
  | lagDropped (lag : Nanos)
  deriving DecidableEq, Repr

namespace Message

def level : Message → Level
  | .halted _ _ => .error
  | .skipped _ => .warn
  | .loaded _ _ | .started _ _ | .stopped _ => .info
  | .fetched _ _ | .returning _ | .routineRequested _ | .lagDropped _ => .debug
  | .awaitingKey _ | .soundEnded | .ticked _ _ => .trace

def text : Message → String
  | .loaded name length => s!"loaded rom '{name}' with {length} bytes"
  | .fetched pc opcode => "pc " ++ hex4 pc ++ " opcode " ++ hex4 opcode
  | .returning pc => "return to " ++ hex4 pc
  | .routineRequested routine => "machine code routine at " ++ hex4 routine ++ " requested"
  | .awaitingKey x => "waiting for a key press into V" ++ String.singleton (hexDigit x)
  | .soundEnded => "sound timer ran out"
  | .ticked delay sound => s!"timer tick delay {delay.toNat} sound {sound.toNat}"
  | .skipped fault => "skipping the instruction: " ++ fault.message
  | .halted name fault => "halting '" ++ name ++ "': " ++ fault.message
  | .started name hertz => s!"running '{name}' at {hertz} hz"
  | .stopped name => s!"stopped '{name}'"
  | .lagDropped lag => "dropping " ++ lag.text ++ " of lag"

/-- Whether a log that goes down to `lowest` holds the message. -/
def isShown (lowest : Level) (m : Message) : Bool := m.level.rank ≤ lowest.rank

def line (m : Message) : String := m.level.name ++ " " ++ m.text

end Message

end ChipEight

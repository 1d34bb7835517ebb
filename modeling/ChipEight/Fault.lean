import ChipEight.Opcode

/-!
Why an instruction can fail. Every fault names the place of the instruction, and an instruction that
fails has changed nothing.
-/
namespace ChipEight

inductive StackFault where
  | full
  | empty
  deriving DecidableEq, Repr

def StackFault.message : StackFault → String
  | .full => "Stack is full!"
  | .empty => "Stack is empty!"

inductive Fault where
  | undecodable (opcode : Opcode) (pc : UInt16)
  /-- The word asks for a routine in the code of another processor. -/
  | routineCall (opcode : Opcode) (pc : UInt16)
  | stack (cause : StackFault) (pc : UInt16)
  deriving DecidableEq, Repr

def Fault.message : Fault → String
  | .undecodable opcode pc =>
    "An unsupported opcode was used " ++ hex4 opcode ++ " at " ++ hex4 pc ++ "."
  | .routineCall opcode pc =>
    "The RCA 1802 routine call " ++ hex4 opcode ++ " at " ++ hex4 pc ++ " can not be executed."
  | .stack cause pc => "Invalid stack state '" ++ cause.message ++ "' at " ++ hex4 pc ++ "."

end ChipEight

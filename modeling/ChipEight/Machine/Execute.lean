import ChipEight.Instruction.Arithmetic
import ChipEight.Machine.Basic
import ChipEight.Sprite

/-!
Execution of a decoded instruction. Each one reads what it needs before it writes, and a flag is
written after the result, so `VF` as the target of an operation ends up with the flag. The program
counter moves last; an instruction that fails moves nothing.
-/
namespace ChipEight

/-- What comes of an instruction: a signal to the host, or a fault. -/
abbrev Outcome (H : Type) := Turn (Machine H) (Except Fault Signal)

namespace Machine

variable {H : Type}

/-- The end of an instruction that succeeds without a message. -/
def proceed (m : Machine H) (step : Step) (signal : Signal) : Outcome H :=
  ⟨m.move step, .ok signal, []⟩

/-- The end of an instruction that fails. -/
def refuse (m : Machine H) (fault : Fault) : Outcome H := ⟨m, .error fault, []⟩

def call (m : Machine H) (target : UInt16) : Outcome H :=
  if m.stack.length < stackLimit then
    proceed { m with stack := m.pc :: m.stack } (.jump target) .idle
  else m.refuse (.stack .full m.pc)

/-- A return goes on behind the call, whose own address is on the stack. -/
def leave (m : Machine H) : Outcome H :=
  match m.stack with
  | [] => m.refuse (.stack .empty m.pc)
  | origin :: outer =>
    (proceed { m with stack := outer } (.jump (Step.next.apply origin)) .idle).after
      [.returning origin]

def combine (m : Machine H) (op : Combine) (x y : Register) : Machine H :=
  let vx := m.reg x
  let vy := m.reg y
  let m := m.writeReg x (op.result vx vy)
  match op.flag? vx vy with
  | none => m
  | some flag => m.writeFlag flag

/-- A random byte under a mask. -/
def randomize (m : Machine H) (x : Register) (mask : UInt8) : Machine H :=
  let (byte, random) := m.random.take
  writeReg { m with random := random } x (mask &&& byte)

/-- The cells under the set pixels of the sprite at `I`. Its corner wraps around the display. -/
def spriteCells (m : Machine H) (x y : Register) (height : UInt8) : List Cell :=
  Sprite.cells (fun row => m.memory.cell (m.index.toNat + row))
    ((m.reg x).toNat % screenWidth) ((m.reg y).toNat % screenHeight) height.toNat

/-- The hundreds, tens and units. -/
def decimalDigits (v : UInt8) : List UInt8 := [v / 100, v / 10 % 10, v % 10]

/-- The bytes of `V0` to `VX`. -/
def lowRegisters (m : Machine H) (x : Register) : List UInt8 := m.registers.toList.take (x.val + 1)

/-- `V0` to `VX` from memory at `I`. -/
def loadRegisters (m : Machine H) (x : Register) : Machine H :=
  { m with
    registers := Vector.ofFn fun i : Register =>
      if i.val ≤ x.val then m.memory.cell (m.index.toNat + i.val) else m.reg i }

variable [Host H]

def clear (m : Machine H) : Outcome H :=
  proceed { m with host := Host.mark (Host.wipe m.host) } .next .draw

def draw (m : Machine H) (x y : Register) (height : UInt8) : Outcome H :=
  let (host, collision) := Host.flipAll m.host (m.spriteCells x y height)
  (writeFlag { m with host := Host.mark host } collision).proceed .next .draw

/-- The key number is the low digit of `VX`. -/
def skipKey (m : Machine H) (test : KeyTest) (x : Register) : Outcome H :=
  let (down, host) := Host.readKey m.host ⟨(m.reg x).toNat % 16, Nat.mod_lt _ (by decide)⟩
  let holds := match test with
    | .down => down
    | .up => ! down
  proceed { m with host := host } (.when holds) .idle

/-- Without a key that is down the instruction stays in place. Only the first wait is reported. -/
def awaitKey (m : Machine H) (x : Register) : Outcome H :=
  match Host.firstPressed m.host (List.finRange 16) with
  | (some k, host) =>
    (writeReg { m with host := host, run := .running } x (UInt8.ofNat k.val)).proceed .next .idle
  | (none, host) =>
    (proceed { m with host := host, run := .awaitingKey x } .stay .wait).after
      (if m.run = .running then [.awaitingKey x] else [])

def transfer (m : Machine H) (op : Transfer) (x : Register) : Outcome H :=
  match op with
  | .readDelay => (m.writeReg x m.delay.value).proceed .next .idle
  | .awaitKey => m.awaitKey x
  | .writeDelay => proceed { m with delay := ⟨m.reg x⟩ } .next .idle
  | .writeSound => proceed { m with sound := ⟨m.reg x⟩ } .next .idle
  | .addToIndex => proceed { m with index := m.index + (m.reg x).toUInt16 } .next .idle
  | .pointAtGlyph => proceed { m with index := glyphAddress (m.reg x) } .next .idle
  | .storeDecimal =>
    proceed { m with memory := m.memory.write m.index.toNat (decimalDigits (m.reg x)) } .next .idle
  | .storeRegisters =>
    proceed { m with memory := m.memory.write m.index.toNat (m.lowRegisters x) } .next .idle
  | .loadRegisters => (m.loadRegisters x).proceed .next .idle

def execute (m : Machine H) : Instruction → Outcome H
  | .clear => m.clear
  | .leave => m.leave
  | .routine nnn => (m.refuse (.routineCall m.opcode m.pc)).after [.routineRequested nnn]
  | .jump nnn => m.proceed (.jump nnn) .idle
  | .call nnn => m.call nnn
  | .skipEqual x nn => m.proceed (.when (m.reg x == nn)) .idle
  | .skipUnequal x nn => m.proceed (.when (m.reg x != nn)) .idle
  | .skipSame x y => m.proceed (.when (m.reg x == m.reg y)) .idle
  | .load x nn => (m.writeReg x nn).proceed .next .idle
  | .increase x nn => (m.writeReg x (m.reg x + nn)).proceed .next .idle
  | .combine op x y => (m.combine op x y).proceed .next .idle
  | .skipDifferent x y => m.proceed (.when (m.reg x != m.reg y)) .idle
  | .pointAt nnn => proceed { m with index := nnn } .next .idle
  | .jumpBeyond nnn => m.proceed (.jump (nnn + (m.reg 0).toUInt16)) .idle
  | .random x mask => (m.randomize x mask).proceed .next .idle
  | .draw x y height => m.draw x y height
  | .skipKey test x => m.skipKey test x
  | .transfer op x => m.transfer op x

end Machine

end ChipEight

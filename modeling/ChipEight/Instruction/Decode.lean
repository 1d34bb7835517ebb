import ChipEight.Instruction

/-!
Decoding. The class digit of a word settles the shape of the instruction; the classes `8`, `E` and
`F` have a code of their own for the operation, and only a word with an unused code is refused.
-/
namespace ChipEight

def Combine.ofCode? : UInt8 → Option Combine
  | 0x0 => some .copy
  | 0x1 => some .or
  | 0x2 => some .and
  | 0x3 => some .xor
  | 0x4 => some .add
  | 0x5 => some .subtract
  | 0x6 => some .shiftRight
  | 0x7 => some .subtractFrom
  | 0xE => some .shiftLeft
  | _ => none

def KeyTest.ofCode? : UInt8 → Option KeyTest
  | 0x9E => some .down
  | 0xA1 => some .up
  | _ => none

def Transfer.ofCode? : UInt8 → Option Transfer
  | 0x07 => some .readDelay
  | 0x0A => some .awaitKey
  | 0x15 => some .writeDelay
  | 0x18 => some .writeSound
  | 0x1E => some .addToIndex
  | 0x29 => some .pointAtGlyph
  | 0x33 => some .storeDecimal
  | 0x55 => some .storeRegisters
  | 0x65 => some .loadRegisters
  | _ => none

/-- Class `0`: two words have a meaning here, and all others call a routine. -/
def Instruction.ofSystemWord (w : Opcode) : Instruction :=
  if w = 0x00E0 then .clear
  else if w = 0x00EE then .leave
  else .routine (Opcode.nnn w)

/-- The instruction that a word encodes, if its operation code is in use. -/
def Instruction.decode? (w : Opcode) : Option Instruction :=
  let x := Opcode.x w
  let y := Opcode.y w
  let n := Opcode.n w
  let nn := Opcode.nn w
  let nnn := Opcode.nnn w
  match (Opcode.family w).val with
  | 0x0 => some (.ofSystemWord w)
  | 0x1 => some (.jump nnn)
  | 0x2 => some (.call nnn)
  | 0x3 => some (.skipEqual x nn)
  | 0x4 => some (.skipUnequal x nn)
  | 0x5 => some (.skipSame x y)
  | 0x6 => some (.load x nn)
  | 0x7 => some (.increase x nn)
  | 0x8 => (Combine.ofCode? n).map fun op => .combine op x y
  | 0x9 => some (.skipDifferent x y)
  | 0xA => some (.pointAt nnn)
  | 0xB => some (.jumpBeyond nnn)
  | 0xC => some (.random x nn)
  | 0xD => some (.draw x y n)
  | 0xE => (KeyTest.ofCode? nn).map fun test => .skipKey test x
  | _ => (Transfer.ofCode? nn).map fun op => .transfer op x

/-- The refusal of a word whose operation code is not in use. -/
structure Undecodable where
  opcode : Opcode
  deriving DecidableEq, Repr

def Undecodable.message (e : Undecodable) : String :=
  "An unsupported opcode was used " ++ hex4 e.opcode ++ "."

def Instruction.decode (w : Opcode) : Except Undecodable Instruction :=
  match decode? w with
  | some instruction => .ok instruction
  | none => .error ⟨w⟩

end ChipEight

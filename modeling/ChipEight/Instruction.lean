import ChipEight.Opcode

/-!
Instructions. The shape of the word that encodes each one stands behind it; `X`, `Y` name registers,
`N`, `NN`, `NNN` literals, and `I` is the index register.
-/
namespace ChipEight

/-- Operations on two registers. Those with a flag leave it in `VF`. -/
inductive Combine where
  | copy          -- 8XY0
  | or            -- 8XY1
  | and           -- 8XY2
  | xor           -- 8XY3
  | add           -- 8XY4: the flag is the carry
  | subtract      -- 8XY5: VX - VY, and the flag says that there was no borrow
  | shiftRight    -- 8XY6: VX halved, and the flag is the bit that falls out
  | subtractFrom  -- 8XY7: VY - VX, and the flag says that there was no borrow
  | shiftLeft     -- 8XYE: VX doubled, and the flag is the bit that falls out
  deriving DecidableEq, Repr

/-- Conditions on the key that the low digit of `VX` names. -/
inductive KeyTest where
  | down  -- EX9E
  | up    -- EXA1
  deriving DecidableEq, Repr

/-- Moves between registers and the rest of the machine. -/
inductive Transfer where
  | readDelay       -- FX07
  | awaitKey        -- FX0A: VX becomes the lowest key that is down, or the instruction repeats
  | writeDelay      -- FX15
  | writeSound      -- FX18
  | addToIndex      -- FX1E: no flag
  | pointAtGlyph    -- FX29
  | storeDecimal    -- FX33: three decimal digits of VX to memory at I
  | storeRegisters  -- FX55: V0 to VX to memory at I
  | loadRegisters   -- FX65: V0 to VX from memory at I
  deriving DecidableEq, Repr

inductive Instruction where
  | clear                                      -- 00E0
  | leave                                      -- 00EE
  | routine (nnn : UInt16)                     -- 0NNN: code of another processor
  | jump (nnn : UInt16)                        -- 1NNN
  | call (nnn : UInt16)                        -- 2NNN
  | skipEqual (x : Register) (nn : UInt8)      -- 3XNN
  | skipUnequal (x : Register) (nn : UInt8)    -- 4XNN
  | skipSame (x y : Register)                  -- 5XYN, whatever N is
  | load (x : Register) (nn : UInt8)           -- 6XNN
  | increase (x : Register) (nn : UInt8)       -- 7XNN: no flag
  | combine (op : Combine) (x y : Register)    -- 8XYT
  | skipDifferent (x y : Register)             -- 9XYN, whatever N is
  | pointAt (nnn : UInt16)                     -- ANNN
  | jumpBeyond (nnn : UInt16)                  -- BNNN: to NNN + V0
  | random (x : Register) (nn : UInt8)         -- CXNN: a random byte under the mask NN
  | draw (x y : Register) (n : UInt8)          -- DXYN: N rows at I, to column VX and row VY
  | skipKey (test : KeyTest) (x : Register)    -- EXTT
  | transfer (op : Transfer) (x : Register)    -- FXTT
  deriving DecidableEq, Repr

end ChipEight

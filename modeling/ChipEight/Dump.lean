import ChipEight.Dump.Listing
import ChipEight.Host.Console
import ChipEight.Machine.Basic

/-!
The full state of a machine and its console as text, one section after the other.
-/
namespace ChipEight

namespace Dump

def pixelRow (row : Vector Bool screenWidth) : String :=
  String.ofList (row.toList.map fun lit => if lit then '#' else '.')

end Dump

namespace Machine

/-- The return addresses, the outermost first, with zeros in the unused places. -/
def stackCells {H : Type} (m : Machine H) : Vector UInt16 16 :=
  Vector.ofFn fun i : Fin 16 => (m.stack.reverse[i.val]?).getD 0

def dumpLines (m : Machine Console) : List String :=
  ["Chipset \x7b"]
    ++ Dump.titled "Program Name" [m.name]
    ++ Dump.titled "Opcode" [hex4 m.opcode]
    ++ Dump.titled "Program Counter" [hex4 m.pc]
    ++ Dump.titled "Index Register" [hex4 m.index]
    ++ Dump.titled "Delay Timer" [hex4 m.delay.value.toUInt16]
    ++ Dump.titled "Sound Timer" [hex4 m.sound.value.toUInt16]
    ++ Dump.titled "Memory" (m.memory.listing.map Row.text)
    ++ Dump.titled "Keyboard" (Dump.table Dump.flagsText m.host.keypad.flags)
    ++ Dump.titled "Stack" (Dump.table Dump.wordsText m.stackCells)
    ++ Dump.titled "Register" (Dump.table Dump.wordsText (m.registers.map UInt8.toUInt16))
    ++ Dump.titled "Screen" (m.host.screen.rows.toList.map Dump.pixelRow)
    ++ ["\x7d"]

def dump (m : Machine Console) : String := "\n".intercalate m.dumpLines

end Machine

end ChipEight

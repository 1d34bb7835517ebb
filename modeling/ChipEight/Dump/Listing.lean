import ChipEight.Dump.Layout
import ChipEight.Memory

/-!
The listing of memory, in lines of sixteen bytes read as eight words. Lines of zeros that follow
each other are one row, which names the first and the last address and shows no words between.
-/
namespace ChipEight

/-- A row of the listing. -/
inductive Row where
  | zeros (first last : Nat)
  | words (first : Nat) (line : Vector Opcode 8)
  deriving DecidableEq

namespace Row

def first : Row → Nat
  | .zeros first _ => first
  | .words first _ => first

/-- The last address of the row. -/
def last : Row → Nat
  | .zeros _ last => last
  | .words first _ => first + 15

def text : Row → String
  | .zeros first last =>
    Dump.span first last ++ " 0x0000                    ...                    0x0000"
  | .words first line => Dump.span first (first + 15) ++ Dump.wordsText line.toList

end Row

namespace Memory

/-- The words of a line. -/
def lineWords (m : Memory) (line : Nat) : Vector Opcode 8 :=
  Vector.ofFn fun i : Fin 8 =>
    Opcode.ofBytes (m.cell (16 * line + 2 * i.val)) (m.cell (16 * line + 2 * i.val + 1))

/-- The rows from a line on, given those from the next line on. -/
def addLine (m : Memory) (line : Nat) (below : List Row) : List Row :=
  let words := m.lineWords line
  if words.all (· == 0) then
    match below with
    | .zeros _ last :: rest => .zeros (16 * line) last :: rest
    | rows => .zeros (16 * line) (16 * line + 15) :: rows
  else .words (16 * line) words :: below

def listing (m : Memory) : List Row := (List.range 256).foldr m.addLine []

end Memory

end ChipEight

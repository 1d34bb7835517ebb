import ChipEight.Keypad
import ChipEight.Screen

/-!
The display and the keypad as the machine uses them: it asks for single pixels and keys, sets and
clears single pixels, clears the display, and marks it as changed. A question may leave a trace in
the host, so it hands the host back.
-/
namespace ChipEight

class Host (H : Type) where
  readCell : H → Cell → Bool × H
  light : H → Cell → H
  darken : H → Cell → H
  mark : H → H
  readKey : H → Key → Bool × H
  /-- Unless a host knows better, the cells are cleared one by one, row by row. -/
  wipe : H → H := fun h => Screen.cells.foldl darken h

namespace Host

variable {H : Type} [Host H]

/-- Turns a pixel over, and notes in the flag if it was set. -/
def flip (state : H × Bool) (c : Cell) : H × Bool :=
  let (lit, h) := readCell state.1 c
  if lit then (darken h c, true) else (light h c, state.2)

/-- Turns pixels over in order; the flag says if any of them was set. -/
def flipAll (h : H) (cells : List Cell) : H × Bool := cells.foldl flip (h, false)

/-- The first of some keys that is down. No key after it is asked for. -/
def firstPressed (h : H) : List Key → Option Key × H
  | [] => (none, h)
  | k :: rest =>
    let (down, h) := readKey h k
    if down then (some k, h) else firstPressed h rest

end Host

end ChipEight

import ChipEight.Host

/-!
The plain host: a display and a keypad, and nothing else.
-/
namespace ChipEight

structure Console where
  screen : Screen
  keypad : Keypad
  deriving DecidableEq

def Console.fresh : Console := ⟨Screen.blank, Keypad.released⟩

/-- The display is cleared as a whole. -/
instance : Host Console where
  readCell h c := (h.screen.get c, h)
  light h c := { h with screen := h.screen.put c true }
  darken h c := { h with screen := h.screen.put c false }
  mark h := { h with screen := h.screen.mark }
  readKey h k := (h.keypad.isDown k, h)
  wipe h := { h with screen := h.screen.wipe }

end ChipEight

import ChipEight.Host.Console

/-!
A host that writes down what the machine asks of it. It has no way of its own to clear the display.
-/
namespace ChipEight

inductive Call where
  | read (c : Cell)
  | light (c : Cell)
  | darken (c : Cell)
  | mark
  | key (k : Key)
  deriving DecidableEq, Repr

structure Recorder where
  console : Console
  /-- The latest call is the last. -/
  calls : Array Call

namespace Recorder

def fresh : Recorder := ⟨Console.fresh, #[]⟩

instance : Host Recorder where
  readCell h c := (h.console.screen.get c, { h with calls := h.calls.push (.read c) })
  light h c := ⟨Host.light h.console c, h.calls.push (.light c)⟩
  darken h c := ⟨Host.darken h.console c, h.calls.push (.darken c)⟩
  mark h := ⟨Host.mark h.console, h.calls.push .mark⟩
  readKey h k := (h.console.keypad.isDown k, { h with calls := h.calls.push (.key k) })

end Recorder

end ChipEight

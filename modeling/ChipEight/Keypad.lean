/-!
The keypad of sixteen keys and a record of the last change of a single key. Setting all keys at
once removes the record.
-/
namespace ChipEight

abbrev Key := Fin 16

def Key.ofNat? (k : Nat) : Option Key := if h : k < 16 then some ⟨k, h⟩ else none

theorem Key.ofNat?_val (k : Key) : Key.ofNat? k.val = some k := dif_pos k.isLt

structure KeyChange where
  key : Key
  before : Bool
  after : Bool
  deriving DecidableEq, Repr

structure Keypad where
  flags : Vector Bool 16
  lastChange : Option KeyChange
  deriving DecidableEq

namespace Keypad

/-- The keys as they lie on the pad, row by row. -/
def layout : List (List Key) :=
  [ [0x1, 0x2, 0x3, 0xC],
    [0x4, 0x5, 0x6, 0xD],
    [0x7, 0x8, 0x9, 0xE],
    [0xA, 0x0, 0xB, 0xF] ]

def released : Keypad := ⟨Vector.replicate 16 false, none⟩

def isDown (p : Keypad) (k : Key) : Bool := p.flags[k]

/-- A number that names no key is not pressed. -/
def pressed (p : Keypad) (k : Nat) : Bool := ((Key.ofNat? k).map p.isDown).getD false

def set (p : Keypad) (k : Key) (down : Bool) : Keypad :=
  ⟨p.flags.set k down, some ⟨k, p.isDown k, down⟩⟩

def toggle (p : Keypad) (k : Key) : Keypad := p.set k (! p.isDown k)

/-- One flag for every key, key zero first. -/
def flags? (flags : List Bool) : Option (Vector Bool 16) :=
  if h : flags.length = 16 then some ⟨flags.toArray, by simpa using h⟩ else none

def setAll (flags : Vector Bool 16) : Keypad := ⟨flags, none⟩

theorem flags?_toList (flags : Vector Bool 16) : flags? flags.toList = some flags :=
  dif_pos Vector.length_toList

theorem isDown_set (p : Keypad) (k j : Key) (down : Bool) :
    (p.set k down).isDown j = if k = j then down else p.isDown j := by
  simp [isDown, set, Vector.getElem_set, Fin.ext_iff]

@[simp] theorem isDown_released (k : Key) : released.isDown k = false := by
  simp [isDown, released]

@[simp] theorem pressed_val (p : Keypad) (k : Key) : p.pressed k.val = p.isDown k := by
  simp [pressed, Key.ofNat?]

end Keypad

end ChipEight

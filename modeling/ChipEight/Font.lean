import ChipEight.Memory

/-!
The built-in glyphs of the digits `0` to `F`. A glyph is five rows of eight pixels, of which the
left four are used.
-/
namespace ChipEight

/-- The address of the first glyph. -/
def fontAddress : Nat := 0

/-- Bytes per glyph. -/
def glyphHeight : Nat := 5

def font : List UInt8 :=
  [ 0xF0, 0x90, 0x90, 0x90, 0xF0,
    0x20, 0x60, 0x20, 0x20, 0x70,
    0xF0, 0x10, 0xF0, 0x80, 0xF0,
    0xF0, 0x10, 0xF0, 0x10, 0xF0,
    0x90, 0x90, 0xF0, 0x10, 0x10,
    0xF0, 0x80, 0xF0, 0x10, 0xF0,
    0xF0, 0x80, 0xF0, 0x90, 0xF0,
    0xF0, 0x10, 0x20, 0x40, 0x40,
    0xF0, 0x90, 0xF0, 0x90, 0xF0,
    0xF0, 0x90, 0xF0, 0x10, 0xF0,
    0xF0, 0x90, 0xF0, 0x90, 0x90,
    0xE0, 0x90, 0xE0, 0x90, 0xE0,
    0xF0, 0x80, 0x80, 0x80, 0xF0,
    0xE0, 0x90, 0x90, 0x90, 0xE0,
    0xF0, 0x80, 0xF0, 0x80, 0xF0,
    0xF0, 0x80, 0xF0, 0x80, 0x80 ]

theorem length_font : font.length = 16 * glyphHeight := rfl

/-- Where the glyph of a digit stands. -/
def glyphAddress (d : UInt8) : UInt16 := UInt16.ofNat (fontAddress + d.toNat * glyphHeight)

end ChipEight

import ChipEight.Screen

/-!
Sprites: rows of eight pixels, one byte each, the leftmost pixel in the highest bit. A sprite is cut
off at the right and at the lower edge of the display.
-/
namespace ChipEight

/-- Pixels per row of a sprite. -/
abbrev spriteWidth : Nat := 8

namespace Sprite

/-- Whether the pixel in a column of a row is set. -/
def bit (row : UInt8) (column : Nat) : Bool := row &&& ((0x80 : UInt8) >>> UInt8.ofNat column) != 0

/-- The cells under the set pixels of a row that begins at `(x, y)`. -/
def rowCells (row : UInt8) (x y : Nat) : List Cell :=
  (List.range spriteWidth).filterMap fun column =>
    if bit row column then Cell.ofNat? (x + column) y else none

/-- The cells under the set pixels of a sprite of `height` rows with its upper left corner at
`(x, y)`, row by row. -/
def cells (row : Nat → UInt8) (x y height : Nat) : List Cell :=
  (List.range height).flatMap fun r => rowCells (row r) x (y + r)

end Sprite

end ChipEight

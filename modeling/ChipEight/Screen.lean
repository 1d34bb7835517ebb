/-!
The display of 64 by 32 pixels, and the mark that it changed since it was last shown.
-/
namespace ChipEight

abbrev screenWidth : Nat := 64

abbrev screenHeight : Nat := 32

/-- A place on the display: `x` counts from the left, `y` from the top. -/
structure Cell where
  x : Fin screenWidth
  y : Fin screenHeight
  deriving DecidableEq, Repr

/-- The cell with these coordinates, if they are on the display. -/
def Cell.ofNat? (x y : Nat) : Option Cell :=
  if h : x < screenWidth ∧ y < screenHeight then some ⟨⟨x, h.1⟩, ⟨y, h.2⟩⟩ else none

theorem Cell.ofNat?_of_lt {x y : Nat} (hx : x < screenWidth) (hy : y < screenHeight) :
    Cell.ofNat? x y = some ⟨⟨x, hx⟩, ⟨y, hy⟩⟩ := dif_pos ⟨hx, hy⟩

theorem Cell.ofNat?_of_le {x y : Nat} (h : screenWidth ≤ x ∨ screenHeight ≤ y) :
    Cell.ofNat? x y = none :=
  dif_neg fun inside =>
    h.elim (Nat.not_le.mpr inside.1) (Nat.not_le.mpr inside.2)

theorem Cell.ofNat?_val (c : Cell) : Cell.ofNat? c.x c.y = some c := dif_pos ⟨c.x.isLt, c.y.isLt⟩

structure Screen where
  rows : Vector (Vector Bool screenWidth) screenHeight
  changed : Bool
  deriving DecidableEq

namespace Screen

/-- All cells, row by row from the top. -/
def cells : List Cell :=
  (List.finRange screenHeight).flatMap fun y => (List.finRange screenWidth).map fun x => ⟨x, y⟩

def blankRows : Vector (Vector Bool screenWidth) screenHeight :=
  Vector.replicate screenHeight (Vector.replicate screenWidth false)

def blank : Screen := ⟨blankRows, false⟩

def get (s : Screen) (c : Cell) : Bool := s.rows[c.y][c.x]

def put (s : Screen) (c : Cell) (lit : Bool) : Screen :=
  { s with rows := s.rows.set c.y (s.rows[c.y].set c.x lit) }

def wipe (s : Screen) : Screen := { s with rows := blankRows }

def mark (s : Screen) : Screen := { s with changed := true }

/-- Reads the mark and removes it. -/
def takeChanged (s : Screen) : Bool × Screen := (s.changed, { s with changed := false })

def isBlank (s : Screen) : Bool := s.rows.all fun row => row.all (! ·)

@[simp] theorem get_blank (c : Cell) : blank.get c = false := by
  simp [get, blank, blankRows]

@[simp] theorem get_wipe (s : Screen) (c : Cell) : s.wipe.get c = false := by
  simp [get, wipe, blankRows]

@[simp] theorem get_mark (s : Screen) (c : Cell) : s.mark.get c = s.get c := rfl

theorem get_put (s : Screen) (c d : Cell) (lit : Bool) :
    (s.put c lit).get d = if c = d then lit else s.get d := by
  obtain ⟨cx, cy⟩ := c
  obtain ⟨dx, dy⟩ := d
  simp only [get, put, Fin.getElem_fin, Vector.getElem_set, Cell.mk.injEq, Fin.ext_iff]
  by_cases hy : cy.val = dy.val
  · simp only [hy, if_true, Vector.getElem_set, and_true]
  · simp [hy]

@[simp] theorem changed_put (s : Screen) (c : Cell) (lit : Bool) :
    (s.put c lit).changed = s.changed := rfl

/-- The pixels and the mark determine the display. -/
theorem ext_get {s t : Screen} (pixels : ∀ c, s.get c = t.get c) (changed : s.changed = t.changed) :
    s = t := by
  obtain ⟨rows, mark⟩ := s
  obtain ⟨rows', mark'⟩ := t
  obtain rfl : mark = mark' := changed
  congr 1
  apply Vector.ext
  intro y hy
  apply Vector.ext
  intro x hx
  exact pixels ⟨⟨x, hx⟩, ⟨y, hy⟩⟩

theorem mem_cells (c : Cell) : c ∈ cells := by
  simp only [cells, List.mem_flatMap, List.mem_map]
  exact ⟨c.y, List.mem_finRange _, c.x, List.mem_finRange _, rfl⟩

end Screen

end ChipEight

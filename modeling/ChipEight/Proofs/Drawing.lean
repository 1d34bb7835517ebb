import ChipEight.Host.Console
import ChipEight.Proofs.Footprint
import ChipEight.Proofs.Masks

/-!
Drawing, pixel by pixel. A sprite turns over the cells under its set pixels, and each of them once:
what is on the display afterwards is the exclusive or of what was there and of the sprite, cut off
at the right and at the lower edge. The flag says if any pixel went out.
-/
namespace ChipEight

/-- A host whose display is a screen. Its keypad can be of any kind. -/
structure Host.Shows {H : Type} [Host H] (screen : H → Screen) : Prop where
  readCell : ∀ h c, (Host.readCell h c).1 = (screen h).get c
  screen_readCell : ∀ h c, screen (Host.readCell h c).2 = screen h
  light : ∀ h c, screen (Host.light h c) = (screen h).put c true
  darken : ∀ h c, screen (Host.darken h c) = (screen h).put c false
  mark : ∀ h : H, screen (Host.mark h) = (screen h).mark
  wipe : ∀ h : H, screen (Host.wipe h) = (screen h).wipe
  screen_readKey : ∀ h k, screen (Host.readKey h k).2 = screen h

theorem Console.shows : Host.Shows Console.screen := by
  constructor <;> intros <;> rfl

namespace Host.Shows

variable {H : Type} [Host H] {screen : H → Screen}

theorem screen_flip (shows : Host.Shows screen) (drawn : H × Bool) (c : Cell) :
    screen (flip drawn c).1 = (screen drawn.1).put c (! (screen drawn.1).get c) := by
  unfold flip
  dsimp only
  rw [shows.readCell]
  cases (screen drawn.1).get c with
  | true => exact (shows.darken _ c).trans (by rw [shows.screen_readCell]; rfl)
  | false => exact (shows.light _ c).trans (by rw [shows.screen_readCell]; rfl)

theorem collided_flip (shows : Host.Shows screen) (drawn : H × Bool) (c : Cell) :
    (flip drawn c).2 = (drawn.2 || (screen drawn.1).get c) := by
  unfold flip
  dsimp only
  rw [shows.readCell]
  cases (screen drawn.1).get c <;> simp

/-- Cells that are turned over once each. -/
theorem get_foldl_flip (shows : Host.Shows screen) {cells : List Cell} (once : cells.Nodup)
    (drawn : H × Bool) (c : Cell) :
    (screen (cells.foldl flip drawn).1).get c =
      ((screen drawn.1).get c ^^ decide (c ∈ cells)) := by
  induction cells generalizing drawn with
  | nil => simp
  | cons d rest ih =>
    obtain ⟨hnew, hrest⟩ := List.nodup_cons.mp once
    rw [List.foldl_cons, ih hrest, shows.screen_flip, Screen.get_put]
    by_cases hcd : d = c
    · subst hcd
      simp [hnew]
    · simp [hcd, Ne.symm hcd]

/-- No cell is turned over before it is asked for, so the flag is about the display as it was. -/
theorem collided_foldl_flip (shows : Host.Shows screen) {cells : List Cell} (once : cells.Nodup)
    (drawn : H × Bool) :
    (cells.foldl flip drawn).2 = true ↔
      drawn.2 = true ∨ ∃ c ∈ cells, (screen drawn.1).get c = true := by
  induction cells generalizing drawn with
  | nil => simp
  | cons d rest ih =>
    obtain ⟨hnew, hrest⟩ := List.nodup_cons.mp once
    have hsame : ∀ c ∈ rest, (screen (flip drawn d).1).get c = (screen drawn.1).get c := by
      intro c hc
      have hne : d ≠ c := fun hdc => hnew (hdc ▸ hc)
      rw [shows.screen_flip, Screen.get_put, if_neg hne]
    have hlater : (∃ c ∈ rest, (screen (flip drawn d).1).get c = true) ↔
        ∃ c ∈ rest, (screen drawn.1).get c = true := by
      apply exists_congr
      intro c
      apply and_congr_right
      intro hc
      rw [hsame c hc]
    rw [List.foldl_cons, ih hrest, hlater, shows.collided_flip]
    simp [or_assoc]

end Host.Shows

theorem Cell.ofNat?_eq_some_iff {x y : Nat} {c : Cell} :
    Cell.ofNat? x y = some c ↔ x = c.x.val ∧ y = c.y.val := by
  constructor
  · intro h
    unfold ofNat? at h
    split at h
    · cases h
      exact ⟨rfl, rfl⟩
    · cases h
  · rintro ⟨rfl, rfl⟩
    exact c.ofNat?_val

/-- Whether a cell comes before another one, row by row from the top. -/
def Cell.Before (c d : Cell) : Prop := c.y.val < d.y.val ∨ c.y.val = d.y.val ∧ c.x.val < d.x.val

theorem Cell.nodup_of_pairwise {cells : List Cell} (h : cells.Pairwise Cell.Before) :
    cells.Nodup := by
  refine List.Pairwise.imp ?_ h
  rintro c d hcd rfl
  unfold Before at hcd
  omega

namespace Sprite

theorem mem_rowCells {row : UInt8} {x y : Nat} {c : Cell} :
    c ∈ rowCells row x y ↔
      c.y.val = y ∧ x ≤ c.x.val ∧ c.x.val < x + 8 ∧
        row.toNat.testBit (7 - (c.x.val - x)) = true := by
  simp only [rowCells, List.mem_filterMap, List.mem_range, Option.ite_none_right_eq_some,
    Cell.ofNat?_eq_some_iff]
  constructor
  · rintro ⟨column, hcolumn : column < 8, hbit, hx, hy⟩
    have hless : c.x.val - x = column := by omega
    rw [bit_eq row hcolumn] at hbit
    rw [hless]
    exact ⟨hy.symm, by omega, by omega, hbit⟩
  · rintro ⟨hy, hleft, hright, hbit⟩
    have hcolumn : c.x.val - x < 8 := by omega
    rw [← bit_eq row hcolumn] at hbit
    exact ⟨c.x.val - x, hcolumn, hbit, by omega, hy.symm⟩

theorem mem_cells {row : Nat → UInt8} {x y height : Nat} {c : Cell} :
    c ∈ cells row x y height ↔
      (x ≤ c.x.val ∧ c.x.val < x + 8 ∧ y ≤ c.y.val ∧ c.y.val < y + height) ∧
        (row (c.y.val - y)).toNat.testBit (7 - (c.x.val - x)) = true := by
  simp only [cells, List.mem_flatMap, List.mem_range, mem_rowCells]
  constructor
  · rintro ⟨r, hr, hy, hleft, hright, hbit⟩
    have hless : c.y.val - y = r := by omega
    rw [hless]
    exact ⟨⟨hleft, hright, by omega, by omega⟩, hbit⟩
  · rintro ⟨⟨hleft, hright, htop, hbottom⟩, hbit⟩
    exact ⟨c.y.val - y, by omega, by omega, hleft, hright, hbit⟩

theorem pairwise_rowCells (row : UInt8) (x y : Nat) : (rowCells row x y).Pairwise Cell.Before := by
  unfold rowCells
  apply List.pairwise_filterMap.mpr
  refine List.Pairwise.imp ?_ List.pairwise_lt_range
  intro i j hij c hc d hd
  simp only [Option.ite_none_right_eq_some, Cell.ofNat?_eq_some_iff] at hc hd
  exact .inr ⟨by omega, by omega⟩

/-- The cells of a sprite come in the order of the display, row by row. -/
theorem pairwise_cells (row : Nat → UInt8) (x y height : Nat) :
    (cells row x y height).Pairwise Cell.Before := by
  unfold cells
  apply List.pairwise_flatMap.mpr
  refine ⟨fun r _ => pairwise_rowCells (row r) x (y + r), ?_⟩
  refine List.Pairwise.imp ?_ List.pairwise_lt_range
  intro i j hij c hc d hd
  have hci := (mem_rowCells.mp hc).1
  have hdj := (mem_rowCells.mp hd).1
  exact .inl (by omega)

theorem nodup_cells (row : Nat → UInt8) (x y height : Nat) : (cells row x y height).Nodup :=
  Cell.nodup_of_pairwise (pairwise_cells row x y height)

end Sprite

namespace Machine

variable {H : Type}

/-- Whether a sprite of `height` rows at `I`, with its corner where `VX` and `VY` say, has a set
pixel over a cell. Only the corner and the addresses wrap around. -/
def covers (m : Machine H) (x y : Register) (height : UInt8) (c : Cell) : Bool :=
  let left := (m.reg x).toNat % 64
  let top := (m.reg y).toNat % 32
  let row := m.memory.cell ((m.index.toNat + (c.y.val - top)) % 4096)
  decide (left ≤ c.x.val ∧ c.x.val < left + 8 ∧ top ≤ c.y.val ∧ c.y.val < top + height.toNat) &&
    row.toNat.testBit (7 - (c.x.val - left))

theorem mem_spriteCells {m : Machine H} {x y : Register} {height : UInt8} {c : Cell} :
    c ∈ m.spriteCells x y height ↔ m.covers x y height c = true := by
  unfold spriteCells covers
  dsimp only
  rw [Sprite.mem_cells, Bool.and_eq_true, decide_eq_true_iff,
    m.memory.cell_congr (Nat.mod_mod _ 4096)]

theorem decide_mem_spriteCells (m : Machine H) (x y : Register) (height : UInt8) (c : Cell) :
    decide (c ∈ m.spriteCells x y height) = m.covers x y height c := by
  rw [Bool.eq_iff_iff, decide_eq_true_iff, mem_spriteCells]

theorem nodup_spriteCells (m : Machine H) (x y : Register) (height : UInt8) :
    (m.spriteCells x y height).Nodup := Sprite.nodup_cells _ _ _ _

variable [Host H] {screen : H → Screen}

theorem host_execute_draw (m : Machine H) (x y : Register) (height : UInt8) :
    (m.execute (.draw x y height)).state.host =
      Host.mark (Host.flipAll m.host (m.spriteCells x y height)).1 := rfl

theorem get_execute_draw (shows : Host.Shows screen) (m : Machine H) (x y : Register)
    (height : UInt8) (c : Cell) :
    (screen (m.execute (.draw x y height)).state.host).get c =
      ((screen m.host).get c ^^ m.covers x y height c) := by
  have hflip := shows.get_foldl_flip (m.nodup_spriteCells x y height) (m.host, false) c
  rw [decide_mem_spriteCells] at hflip
  rw [host_execute_draw, shows.mark, Screen.get_mark]
  exact hflip

theorem collided_execute_draw (shows : Host.Shows screen) (m : Machine H) (x y : Register)
    (height : UInt8) :
    (Host.flipAll m.host (m.spriteCells x y height)).2 = true ↔
      ∃ c, (screen m.host).get c = true ∧ m.covers x y height c = true := by
  have hflip := shows.collided_foldl_flip (m.nodup_spriteCells x y height) (m.host, false)
  unfold Host.flipAll
  rw [hflip]
  simp [mem_spriteCells, and_comm]

theorem changed_execute_draw (shows : Host.Shows screen) (m : Machine H) (x y : Register)
    (height : UInt8) :
    (screen (m.execute (.draw x y height)).state.host).changed = true := by
  rw [host_execute_draw, shows.mark]
  rfl

theorem flag_execute_draw (m : Machine H) (x y : Register) (height : UInt8) :
    (m.execute (.draw x y height)).state.reg flagRegister =
      if (Host.flipAll m.host (m.spriteCells x y height)).2 then 1 else 0 :=
  reg_writeFlag _ _

theorem reg_execute_draw (m : Machine H) (x y : Register) (height : UInt8) {r : Register}
    (h : r ≠ flagRegister) : (m.execute (.draw x y height)).state.reg r = m.reg r :=
  reg_writeReg_of_ne _ _ h

/-- A sprite is drawn by the exclusive or, and `VF` tells if a pixel went out. Beyond that the
display is marked, the surroundings are asked to redraw it, and the next instruction comes. -/
theorem draw_pixelwise (shows : Host.Shows screen) (m : Machine H) (x y : Register)
    (height : UInt8) :
    let before := screen m.host
    let drawn := m.execute (.draw x y height)
    let after := screen drawn.state.host
    (∀ c, after.get c = (before.get c ^^ m.covers x y height c)) ∧
      ((∃ c, before.get c = true ∧ after.get c = false) ∧ drawn.state.reg flagRegister = 1 ∨
        (¬ ∃ c, before.get c = true ∧ after.get c = false) ∧ drawn.state.reg flagRegister = 0) ∧
      after.changed = true ∧ drawn.result = .ok .draw ∧
      drawn.state.pc = (m.pc + 2) % 0x1000 ∧ drawn.state.index = m.index ∧
      drawn.state.memory = m.memory ∧
      (∀ r, r ≠ flagRegister → drawn.state.reg r = m.reg r) ∧
      drawn.state.stack = m.stack ∧ drawn.state.delay = m.delay ∧
      drawn.state.sound = m.sound := by
  intro before drawn after
  have hget : ∀ c, after.get c = (before.get c ^^ m.covers x y height c) :=
    m.get_execute_draw shows x y height
  have hout : (∃ c, before.get c = true ∧ after.get c = false) ↔
      (Host.flipAll m.host (m.spriteCells x y height)).2 = true := by
    rw [m.collided_execute_draw shows]
    apply exists_congr
    intro c
    apply and_congr_right
    intro hlit
    rw [hget, hlit]
    simp
  refine ⟨hget, ?_, m.changed_execute_draw shows x y height, rfl,
    Step.apply_next m.pc, rfl, rfl, fun r hr => m.reg_execute_draw x y height hr, rfl, rfl, rfl⟩
  rw [hout, m.flag_execute_draw]
  cases (Host.flipAll m.host (m.spriteCells x y height)).2 <;> simp

/-- The second row of the sprite is the first byte of memory, on the last row of the display. Half
of it is cut off, and its leftmost pixel goes out. -/
theorem draw_pixelwise_in_the_corner :
    let m : Machine Console :=
      { initial ⟨"CORNER", [], by decide⟩
          ⟨Screen.blank.put ⟨62, 31⟩ true, Keypad.released⟩ RandomStream.zeros with
        registers := (Vector.replicate 16 30).set 15 126
        index := 0xFFFF }
    let drawn := m.execute (.draw 15 1 5)
    Host.Shows Console.screen ∧ drawn.state.host.screen.get ⟨62, 31⟩ = false ∧
      drawn.state.host.screen.get ⟨63, 31⟩ = true ∧ drawn.state.host.screen.get ⟨0, 31⟩ = false ∧
      drawn.state.host.screen.get ⟨62, 0⟩ = false ∧ drawn.state.reg 15 = 1 := by
  intro m drawn
  obtain ⟨hget, hflag, -⟩ := m.draw_pixelwise Console.shows 15 1 5
  have hout : drawn.state.host.screen.get ⟨62, 31⟩ = false :=
    (hget ⟨62, 31⟩).trans (by decide +kernel)
  have hone : drawn.state.reg 15 = 1 := by
    rcases hflag with ⟨-, hone⟩ | ⟨hnone, -⟩
    · exact hone
    · exact absurd ⟨⟨62, 31⟩, by decide +kernel, hout⟩ hnone
  exact ⟨Console.shows, hout, (hget ⟨63, 31⟩).trans (by decide +kernel),
    (hget ⟨0, 31⟩).trans (by decide +kernel), (hget ⟨62, 0⟩).trans (by decide +kernel), hone⟩

end Machine

end ChipEight

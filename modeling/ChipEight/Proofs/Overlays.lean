import ChipEight.Proofs.Drawing

/-!
Sprites drawn one over the other. A cell ends up turned over exactly if an odd number of them have a
set pixel there, so the order of the draws does not matter and a sprite that is drawn twice leaves
no trace.
-/
namespace ChipEight

/-- A sprite and its place: where it stands in memory, the coordinates of its corner, its height. -/
structure Stamp where
  index : UInt16
  left : UInt8
  top : UInt8
  height : UInt8

namespace Stamp

def cells (memory : Memory) (s : Stamp) : List Cell :=
  Sprite.cells (fun row => memory.cell (s.index.toNat + row)) (s.left.toNat % 64)
    (s.top.toNat % 32) s.height.toNat

/-- How many of the stamps have a set pixel over a cell. -/
def layers (memory : Memory) (stamps : List Stamp) (c : Cell) : Nat :=
  stamps.countP fun s => decide (c ∈ s.cells memory)

theorem layers_perm (memory : Memory) {first second : List Stamp} (h : first.Perm second)
    (c : Cell) : layers memory first c = layers memory second c := h.countP_eq _

theorem layers_append (memory : Memory) (first second : List Stamp) (c : Cell) :
    layers memory (first ++ second) c = layers memory first c + layers memory second c :=
  List.countP_append

theorem layers_cons (memory : Memory) (s : Stamp) (stamps : List Stamp) (c : Cell) :
    layers memory (s :: stamps) c =
      layers memory stamps c + if c ∈ s.cells memory then 1 else 0 := by
  unfold layers
  rw [List.countP_cons]
  simp

theorem odd_layers_cons (memory : Memory) (s : Stamp) (stamps : List Stamp) (c : Cell) :
    decide (layers memory (s :: stamps) c % 2 = 1) =
      (decide (c ∈ s.cells memory) ^^ decide (layers memory stamps c % 2 = 1)) := by
  rw [layers_cons]
  by_cases hcell : c ∈ s.cells memory
  · rcases Nat.mod_two_eq_zero_or_one (layers memory stamps c) with heven | hodd
    · simp [hcell, Nat.add_mod, heven]
    · simp [hcell, Nat.add_mod, hodd]
  · simp [hcell]

/-- Of two equal stamps, none is left. -/
theorem layers_without_pair (memory : Memory) (before between after : List Stamp) (s : Stamp)
    (c : Cell) :
    layers memory (before ++ s :: (between ++ s :: after)) c % 2 =
      layers memory (before ++ (between ++ after)) c % 2 := by
  simp only [layers_append, layers_cons]
  omega

end Stamp

namespace Machine

variable {H : Type}

/-- The machine with the address of a stamp in `I` and its corner in `V0` and `V1`. -/
def poise (m : Machine H) (s : Stamp) : Machine H :=
  { (m.writeReg 0 s.left).writeReg 1 s.top with index := s.index }

theorem memory_poise (m : Machine H) (s : Stamp) : (m.poise s).memory = m.memory := rfl

theorem host_poise (m : Machine H) (s : Stamp) : (m.poise s).host = m.host := rfl

theorem index_poise (m : Machine H) (s : Stamp) : (m.poise s).index = s.index := rfl

theorem reg_zero_poise (m : Machine H) (s : Stamp) : (m.poise s).reg 0 = s.left := by
  change ((m.writeReg 0 s.left).writeReg 1 s.top).reg 0 = s.left
  simp [reg_writeReg]

theorem reg_one_poise (m : Machine H) (s : Stamp) : (m.poise s).reg 1 = s.top := by
  change ((m.writeReg 0 s.left).writeReg 1 s.top).reg 1 = s.top
  simp [reg_writeReg]

variable [Host H]

/-- Draws of some stamps, one after the other, by the registers `x` and `y`. Before each of them the
machine may change in any way that leaves its memory and its pixels alone, to get at the address and
the corner. -/
inductive Stamped (screen : H → Screen) : Machine H → List Stamp → Machine H → Prop where
  | nil {m : Machine H} : Stamped screen m [] m
  | cons {m poised last : Machine H} {x y : Register} {stamp : Stamp} {stamps : List Stamp}
      (memory : poised.memory = m.memory)
      (pixels : ∀ c, (screen poised.host).get c = (screen m.host).get c)
      (index : poised.index = stamp.index) (left : poised.reg x = stamp.left)
      (top : poised.reg y = stamp.top)
      (later : Stamped screen (poised.execute (.draw x y stamp.height)).state stamps last) :
      Stamped screen m (stamp :: stamps) last

variable {screen : H → Screen}

/-- From every machine on any stamps can be drawn. -/
theorem exists_stamped (stamps : List Stamp) (m : Machine H) :
    ∃ last, Stamped screen m stamps last := by
  induction stamps generalizing m with
  | nil => exact ⟨m, .nil⟩
  | cons stamp stamps ih =>
    obtain ⟨last, hlast⟩ := ih ((m.poise stamp).execute (.draw 0 1 stamp.height)).state
    exact ⟨last, .cons (m.memory_poise stamp) (fun c => by rw [host_poise]) (m.index_poise stamp)
      (m.reg_zero_poise stamp) (m.reg_one_poise stamp) hlast⟩

theorem get_execute_draw_stamp (shows : Host.Shows screen) {m : Machine H} {x y : Register}
    {stamp : Stamp} (index : m.index = stamp.index) (left : m.reg x = stamp.left)
    (top : m.reg y = stamp.top) (c : Cell) :
    (screen (m.execute (.draw x y stamp.height)).state.host).get c =
      ((screen m.host).get c ^^ decide (c ∈ stamp.cells m.memory)) := by
  have hcells : m.spriteCells x y stamp.height = stamp.cells m.memory := by
    unfold spriteCells Stamp.cells
    rw [index, left, top]
  rw [m.get_execute_draw shows, ← hcells, decide_mem_spriteCells]

/-- The cells under an odd number of set pixels are turned over. -/
theorem get_of_stamped (shows : Host.Shows screen) {m last : Machine H} {stamps : List Stamp}
    (h : Stamped screen m stamps last) (c : Cell) :
    (screen last.host).get c =
      ((screen m.host).get c ^^ decide (Stamp.layers m.memory stamps c % 2 = 1)) := by
  induction h with
  | nil => simp [Stamp.layers]
  | @cons m poised last x y stamp stamps memory pixels index left top later ih =>
    -- All stamps are cut out of the same memory: neither the drawing nor what happens in between
    -- writes to it.
    have hkept : (poised.execute (.draw x y stamp.height)).state.memory = m.memory := memory
    rw [ih, get_execute_draw_stamp shows index left top, hkept, memory, pixels,
      Stamp.odd_layers_cons, Bool.xor_assoc]

theorem covers_execute_draw (m : Machine H) {x y : Register} (hx : x ≠ flagRegister)
    (hy : y ≠ flagRegister) (height : UInt8) (c : Cell) :
    (m.execute (.draw x y height)).state.covers x y height c = m.covers x y height c := by
  unfold covers
  rw [m.reg_execute_draw x y height hx, m.reg_execute_draw x y height hy]
  rfl

/-- Draws can change places, and two equal draws undo each other. If an instruction that draws is
executed twice in a row, the second time turns off what the first time turned on, and `VF` says if
that was anything. -/
theorem draws_commute_and_cancel (shows : Host.Shows screen) (m : Machine H) :
    (∀ stamps, ∃ last, Stamped screen m stamps last) ∧
      (∀ first second last other, first.Perm second →
        Stamped screen m first last → Stamped screen m second other →
          ∀ c, (screen last.host).get c = (screen other.host).get c) ∧
      (∀ before between after stamp last other,
        Stamped screen m (before ++ stamp :: (between ++ stamp :: after)) last →
          Stamped screen m (before ++ (between ++ after)) other →
            ∀ c, (screen last.host).get c = (screen other.host).get c) ∧
      ∀ x y height, x ≠ flagRegister → y ≠ flagRegister →
        let once := (m.execute (.draw x y height)).state
        let twice := (once.execute (.draw x y height)).state
        let lights := ∃ c, (screen m.host).get c = false ∧ (screen once.host).get c = true
        (∀ c, (screen twice.host).get c = (screen m.host).get c) ∧
          (twice.reg flagRegister = 1 ↔ lights) ∧ (twice.reg flagRegister = 0 ↔ ¬ lights) := by
  refine ⟨fun stamps => exists_stamped stamps m, ?_, ?_, ?_⟩
  · intro first second last other hperm hfirst hsecond c
    rw [get_of_stamped shows hfirst, get_of_stamped shows hsecond, Stamp.layers_perm _ hperm]
  · intro before between after stamp last other hwith hwithout c
    rw [get_of_stamped shows hwith, get_of_stamped shows hwithout, Stamp.layers_without_pair]
  · intro x y height hx hy once twice lights
    have honce : ∀ c, (screen once.host).get c =
        ((screen m.host).get c ^^ m.covers x y height c) := m.get_execute_draw shows x y height
    have htwice : ∀ c, (screen twice.host).get c =
        ((screen once.host).get c ^^ m.covers x y height c) := by
      intro c
      rw [once.get_execute_draw shows, m.covers_execute_draw hx hy]
    have hlights : (Host.flipAll once.host (once.spriteCells x y height)).2 = true ↔ lights := by
      rw [once.collided_execute_draw shows]
      apply exists_congr
      intro c
      rw [m.covers_execute_draw hx hy, honce]
      cases (screen m.host).get c <;> cases m.covers x y height c <;> simp
    refine ⟨?_, ?_⟩
    · intro c
      rw [htwice, honce, Bool.xor_assoc, Bool.xor_self, Bool.xor_false]
    · rw [← hlights, once.flag_execute_draw]
      cases (Host.flipAll once.host (once.spriteCells x y height)).2 <;> simp

/-- Both sprites are cut off at the lower right corner, and they overlap there. -/
theorem draws_commute_and_cancel_in_the_corner :
    let m : Machine Console :=
      { initial ⟨"OVERLAY", [], by decide⟩
          ⟨Screen.blank.put ⟨62, 31⟩ true, Keypad.released⟩ RandomStream.zeros with
        registers := (Vector.replicate 16 62).set 1 30 }
    let zero : Stamp := ⟨0, 62, 30, 5⟩
    let four : Stamp := ⟨20, 60, 29, 5⟩
    let twice := ((m.execute (.draw 0 1 5)).state.execute (.draw 0 1 5)).state
    Host.Shows Console.screen ∧ [zero, four].Perm [four, zero] ∧
      (∃ last other, Stamped Console.screen m [zero, four] last ∧
        Stamped Console.screen m [four, zero] other ∧
        ∀ c, last.host.screen.get c = other.host.screen.get c) ∧
      (∃ last other, Stamped Console.screen m [zero, four, zero] last ∧
        Stamped Console.screen m [four] other ∧
        ∀ c, last.host.screen.get c = other.host.screen.get c) ∧
      (∀ c, twice.host.screen.get c = m.host.screen.get c) ∧ twice.reg flagRegister = 1 := by
  intro m zero four twice
  obtain ⟨hall, hcommute, hcancel, htwice⟩ := m.draws_commute_and_cancel Console.shows
  have hperm : [zero, four].Perm [four, zero] := .swap four zero []
  obtain ⟨first, hfirst⟩ := hall [zero, four]
  obtain ⟨second, hsecond⟩ := hall [four, zero]
  obtain ⟨third, hthird⟩ := hall [zero, four, zero]
  obtain ⟨fourth, hfourth⟩ := hall [four]
  obtain ⟨hpixels, hflag, -⟩ := htwice 0 1 5 (by decide) (by decide)
  refine ⟨Console.shows, hperm, ⟨first, second, hfirst, hsecond, ?_⟩,
    ⟨third, fourth, hthird, hfourth, ?_⟩, hpixels, hflag.mpr ⟨⟨62, 30⟩, ?_⟩⟩
  · exact hcommute _ _ _ _ hperm hfirst hsecond
  · exact hcancel [] [four] [] zero _ _ hthird hfourth
  · exact ⟨by decide +kernel, by decide +kernel⟩

end Machine

end ChipEight

import ChipEight.Dump.Listing

/-!
The listing cuts memory into rows: each line that is not all zero is a row of its own, and each
longest run of lines that are is one row. The first addresses and the words of the rows, with the
last addresses of the runs, leave no byte open.
-/
namespace ChipEight

/-- The row is of addresses that there are. -/
def Row.InMemory (row : Row) : Prop := row.first ≤ row.last ∧ row.last < memorySize

namespace Memory

variable {m : Memory}

def ZeroLine (m : Memory) (line : Nat) : Prop := m.lineWords line = Vector.replicate 8 0

/-- The rows stand for all of memory from a line on, one after the other. -/
def Lists (m : Memory) : Nat → List Row → Prop
  | line, [] => line = 256
  | line, .words first words :: rest =>
    first = 16 * line ∧ words = m.lineWords line ∧ ¬ m.ZeroLine line ∧ m.Lists (line + 1) rest
  | line, .zeros first last :: rest =>
    ∃ next, line < next ∧ first = 16 * line ∧ last + 1 = 16 * next ∧
      (∀ l, line ≤ l → l < next → m.ZeroLine l) ∧ (next < 256 → ¬ m.ZeroLine next) ∧
      m.Lists next rest

theorem all_lineWords_iff {line : Nat} :
    (m.lineWords line).all (· == 0) = true ↔ m.ZeroLine line := by
  simp only [Vector.all_eq_true, beq_iff_eq, ZeroLine]
  constructor
  · intro h
    apply Vector.ext
    intro i hi
    rw [h i hi, Vector.getElem_replicate]
  · intro h i hi
    rw [h, Vector.getElem_replicate]

theorem addLine_of_not_zeroLine {line : Nat} (h : ¬ m.ZeroLine line) (below : List Row) :
    m.addLine line below = .words (16 * line) (m.lineWords line) :: below :=
  if_neg (mt all_lineWords_iff.mp h)

/-- A line of zeros begins a run or makes the run below it longer, so runs stay longest ones. -/
theorem lists_addLine {line : Nat} {below : List Row} (h : m.Lists (line + 1) below) :
    m.Lists line (m.addLine line below) := by
  by_cases hzero : m.ZeroLine line
  · have first : ∀ l, line ≤ l → l < line + 1 → m.ZeroLine l := by
      intro l hle hlt
      rwa [show l = line by omega]
    simp only [addLine, all_lineWords_iff.mpr hzero, if_true]
    match below, h with
    | [], (hend : line + 1 = 256) =>
      exact ⟨line + 1, by omega, rfl, by omega, first, fun h => absurd hend (Nat.ne_of_lt h), hend⟩
    | .words .. :: _, ⟨hfirst, hwords, hnot, hrest⟩ =>
      exact ⟨line + 1, by omega, rfl, by omega, first, fun _ => hnot, hfirst, hwords, hnot, hrest⟩
    | .zeros .. :: _, ⟨next, hless, _, hlast, hrun, hnot, hrest⟩ =>
      refine ⟨next, by omega, rfl, hlast, ?_, hnot, hrest⟩
      intro l hle hlt
      by_cases hl : l < line + 1
      · exact first l hle hl
      · exact hrun l (by omega) hlt
  · rw [addLine_of_not_zeroLine hzero]
    exact ⟨rfl, rfl, hzero, h⟩

theorem lists_foldr (m : Memory) {line count : Nat} (h : line + count = 256) :
    m.Lists line ((List.range' line count).foldr m.addLine []) := by
  induction count generalizing line with
  | zero => simpa [Lists] using h
  | succ count ih => exact lists_addLine (ih (by omega))

theorem lists_listing (m : Memory) : m.Lists 0 m.listing := by
  rw [listing, List.range_eq_range']
  exact m.lists_foldr rfl

theorem listing_ne_nil (m : Memory) : m.listing ≠ [] := by
  intro h
  have listed := m.lists_listing
  rw [h] at listed
  cases listed

theorem Lists.le {line : Nat} {rows : List Row} (h : m.Lists line rows) : line ≤ 256 := by
  induction rows generalizing line with
  | nil => exact Nat.le_of_eq h
  | cons row rest ih =>
    cases row with
    | words => exact Nat.le_of_succ_le (ih h.2.2.2)
    | zeros =>
      obtain ⟨next, hless, _, _, _, _, hrest⟩ := h
      exact Nat.le_trans (Nat.le_of_lt hless) (ih hrest)

theorem Lists.inMemory {line : Nat} {rows : List Row} (h : m.Lists line rows) :
    ∀ row ∈ rows, row.InMemory := by
  induction rows generalizing line with
  | nil => simp
  | cons row rest ih =>
    rw [List.forall_mem_cons]
    cases row with
    | words =>
      obtain ⟨hfirst, _, _, hrest⟩ := h
      have := hrest.le
      exact ⟨by simp only [Row.InMemory, Row.first, Row.last, memorySize]; omega, ih hrest⟩
    | zeros =>
      obtain ⟨next, hless, hfirst, hlast, _, _, hrest⟩ := h
      have := hrest.le
      exact ⟨by simp only [Row.InMemory, Row.first, Row.last, memorySize]; omega, ih hrest⟩

/-- The end of a run is where the next row begins, so the rows fix where each of them begins. -/
theorem Lists.lineWords_eq {m' : Memory} {line : Nat} {rows : List Row} (h : m.Lists line rows)
    (h' : m'.Lists line rows) : ∀ l, line ≤ l → l < 256 → m.lineWords l = m'.lineWords l := by
  induction rows generalizing line with
  | nil =>
    simp only [Lists] at h
    intro l
    omega
  | cons row rest ih =>
    intro l hle hlt
    cases row with
    | words first words =>
      obtain ⟨_, hwords, _, hrest⟩ := h
      obtain ⟨_, hwords', _, hrest'⟩ := h'
      by_cases hl : l = line
      · rw [hl, ← hwords, hwords']
      · exact ih hrest hrest' l (by omega) hlt
    | zeros first last =>
      obtain ⟨next, _, _, hlast, hrun, _, hrest⟩ := h
      obtain ⟨next', _, _, hlast', hrun', _, hrest'⟩ := h'
      obtain rfl : next = next' := by omega
      by_cases hl : l < next
      · rw [hrun l hle hl, hrun' l hle hl]
      · exact ih hrest hrest' l (by omega) hlt

theorem getElem_lineWords (m : Memory) (line i : Nat) (h : i < 8) :
    (m.lineWords line)[i] =
      Opcode.ofBytes (m.cell (16 * line + 2 * i)) (m.cell (16 * line + 2 * i + 1)) := by
  simp [lineWords]

theorem cell_val (m : Memory) (a : Nat) (h : a < 4096) : m.cell a = m[a] := by
  simp [cell, Address.wrap, Nat.mod_eq_of_lt h]

/-- A byte is the high or the low one of a word in the line of its address. -/
theorem eq_of_lineWords {m' : Memory} (h : ∀ l < 256, m.lineWords l = m'.lineWords l) : m = m' := by
  apply Vector.ext
  intro a (ha : a < 4096)
  have hi : a % 16 / 2 < 8 := by omega
  have hword := congrArg (fun words : Vector Opcode 8 => words[a % 16 / 2]) (h (a / 16) (by omega))
  simp only [getElem_lineWords] at hword
  obtain ⟨high, low⟩ := Opcode.ofBytes_injective hword
  rw [← cell_val m a ha, ← cell_val m' a ha]
  by_cases heven : a % 2 = 0
  · rwa [show 16 * (a / 16) + 2 * (a % 16 / 2) = a by omega] at high
  · rwa [show 16 * (a / 16) + 2 * (a % 16 / 2) + 1 = a by omega] at low

theorem listing_inj {m m' : Memory} : m.listing = m'.listing ↔ m = m' := by
  refine ⟨fun h => ?_, congrArg listing⟩
  have listed := m.lists_listing
  rw [h] at listed
  exact eq_of_lineWords fun l hl => listed.lineWords_eq m'.lists_listing l (Nat.zero_le l) hl

end Memory

end ChipEight

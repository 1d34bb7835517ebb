import ChipEight.Proofs.Legibility
import Mathlib.Data.List.Chain

/-!
The rows of the listing share memory out: each address is in one of them, in order. A row is folded
exactly if there is nothing but zeros in it, and what is folded is a run of lines from end to end,
so two folded rows never meet.
-/
namespace ChipEight

namespace Row

/-- A row of zeros, which shows no words. -/
def Folded : Row → Prop
  | .zeros .. => True
  | .words .. => False

def addresses (row : Row) : List Nat := List.range' row.first (row.last + 1 - row.first)

end Row

namespace Memory

variable {m : Memory}

/-- There are only zeros from the first address to the last. -/
def AllZero (m : Memory) (first last : Nat) : Prop := ∀ a, first ≤ a → a ≤ last → m.cell a = 0

/-- The words of a line that begins at an address. -/
def wordsFrom (m : Memory) (first : Nat) : List Opcode :=
  (List.range 8).map fun i => Opcode.ofBytes (m.cell (first + 2 * i)) (m.cell (first + 2 * i + 1))

theorem toList_lineWords (m : Memory) (line : Nat) :
    (m.lineWords line).toList = m.wordsFrom (16 * line) := by
  apply List.ext_getElem
  · simp [wordsFrom]
  · intro i hi _
    rw [Vector.length_toList] at hi
    simp [wordsFrom, getElem_lineWords m line i hi]

theorem zeroLine_iff {line : Nat} : m.ZeroLine line ↔ m.AllZero (16 * line) (16 * line + 15) := by
  constructor
  · intro hzero a hfirst hlast
    have hi : (a - 16 * line) / 2 < 8 := by omega
    have hword : (m.lineWords line)[(a - 16 * line) / 2] = Opcode.ofBytes 0 0 := by
      rw [hzero, Vector.getElem_replicate]
      rfl
    rw [getElem_lineWords] at hword
    obtain ⟨high, low⟩ := Opcode.ofBytes_injective hword
    by_cases heven : a % 2 = 0
    · rwa [show 16 * line + 2 * ((a - 16 * line) / 2) = a by omega] at high
    · rwa [show 16 * line + 2 * ((a - 16 * line) / 2) + 1 = a by omega] at low
  · intro hzero
    apply Vector.ext
    intro i hi
    rw [getElem_lineWords, hzero _ (by omega) (by omega), hzero _ (by omega) (by omega),
      Vector.getElem_replicate]
    rfl

/-- What the first of the rows takes, and where the others begin. -/
theorem Lists.cons {line : Nat} {row : Row} {rest : List Row} (h : m.Lists line (row :: rest)) :
    ∃ next, line < next ∧ row.first = 16 * line ∧ row.last + 1 = 16 * next ∧ m.Lists next rest ∧
      (row.Folded → m.ZeroLine line ∧ (next < 256 → ¬ m.ZeroLine next)) := by
  cases row with
  | words first words =>
    obtain ⟨rfl, -, -, hrest⟩ := h
    exact ⟨line + 1, Nat.lt_succ_self line, rfl, rfl, hrest, False.elim⟩
  | zeros first last =>
    obtain ⟨next, hless, hfirst, hlast, hrun, hnot, hrest⟩ := h
    exact ⟨next, hless, hfirst, hlast, hrest, fun _ => ⟨hrun line (Nat.le_refl line) hless, hnot⟩⟩

theorem Lists.of_mem_head? {line : Nat} {rows : List Row} (h : m.Lists line rows) {row : Row}
    (hrow : row ∈ rows.head?) :
    line < 256 ∧ row.first = 16 * line ∧ (row.Folded → m.ZeroLine line) := by
  cases rows with
  | nil => cases hrow
  | cons top rest =>
    cases hrow
    obtain ⟨next, hless, hfirst, -, hrest, hfolded⟩ := h.cons
    exact ⟨Nat.lt_of_lt_of_le hless hrest.le, hfirst, fun hrow => (hfolded hrow).1⟩

theorem Lists.isChain {line : Nat} {rows : List Row} (h : m.Lists line rows) :
    rows.IsChain fun above below =>
      below.first = above.last + 1 ∧ ¬ (above.Folded ∧ below.Folded) := by
  induction rows generalizing line with
  | nil => exact .nil
  | cons above rest ih =>
    obtain ⟨next, -, -, hlast, hrest, hfolded⟩ := h.cons
    rw [List.isChain_cons]
    refine ⟨fun below hbelow => ?_, ih hrest⟩
    obtain ⟨hinside, hfirst, hzero⟩ := hrest.of_mem_head? hbelow
    refine ⟨hfirst.trans hlast.symm, ?_⟩
    rintro ⟨habove, hbelow⟩
    exact (hfolded habove).2 hinside (hzero hbelow)

theorem Lists.flatMap_addresses {line : Nat} {rows : List Row} (h : m.Lists line rows) :
    rows.flatMap Row.addresses = List.range' (16 * line) (4096 - 16 * line) := by
  induction rows generalizing line with
  | nil =>
    simp only [Lists] at h
    rw [h]
    rfl
  | cons row rest ih =>
    obtain ⟨next, hless, hfirst, hlast, hrest, -⟩ := h.cons
    have hle := hrest.le
    have hnext : 16 * line + (16 * next - 16 * line) = 16 * next := by omega
    have hall : 4096 - 16 * line = (16 * next - 16 * line) + (4096 - 16 * next) := by omega
    rw [List.flatMap_cons, ih hrest, Row.addresses, hfirst, hlast, hall, ← List.range'_append_1,
      hnext]

theorem Lists.last_of_mem_getLast? {line : Nat} {rows : List Row} (h : m.Lists line rows)
    {row : Row} (hrow : row ∈ rows.getLast?) : row.last = 0xFFF := by
  induction rows generalizing line with
  | nil => cases hrow
  | cons top rest ih =>
    obtain ⟨next, -, -, hlast, hrest, -⟩ := h.cons
    cases rest with
    | nil =>
      obtain rfl : top = row := Option.some.inj hrow
      simp only [Lists] at hrest
      omega
    | cons second rest => exact ih hrest hrow

/-- Each row is a line that is not all zero, or a run of lines of zeros that no line of zeros
touches from outside, but perhaps one above the first of the rows. -/
theorem Lists.of_mem {line : Nat} {rows : List Row} (h : m.Lists line rows) {row : Row}
    (hrow : row ∈ rows) :
    (∃ l, row = .words (16 * l) (m.lineWords l) ∧ ¬ m.ZeroLine l) ∨
    ∃ start next last, row = .zeros (16 * start) last ∧ last + 1 = 16 * next ∧ start < next ∧
      next ≤ 256 ∧ (∀ l, start ≤ l → l < next → m.ZeroLine l) ∧
      (start = line ∨ ∃ l, start = l + 1 ∧ ¬ m.ZeroLine l) ∧ (next < 256 → ¬ m.ZeroLine next) := by
  induction rows generalizing line with
  | nil => cases hrow
  | cons top rest ih =>
    cases top with
    | words first words =>
      obtain ⟨rfl, rfl, hnot, hrest⟩ := h
      rcases List.mem_cons.mp hrow with rfl | hbelow
      · exact .inl ⟨line, rfl, hnot⟩
      · refine (ih hrest hbelow).imp id ?_
        rintro ⟨start, next, last, hrow, hlast, hless, hle, hrun, habove, hend⟩
        refine ⟨start, next, last, hrow, hlast, hless, hle, hrun, .inr ?_, hend⟩
        exact habove.elim (fun hstart => ⟨line, hstart, hnot⟩) id
    | zeros first last =>
      obtain ⟨between, hless, rfl, hlast, hrun, hnot, hrest⟩ := h
      rcases List.mem_cons.mp hrow with rfl | hbelow
      · exact .inr ⟨line, between, last, rfl, hlast, hless, hrest.le, hrun, .inl rfl, hnot⟩
      · refine (ih hrest hbelow).imp id ?_
        rintro ⟨start, next, last, hrow, hlast, hsome, hle, hzero, habove, hend⟩
        refine ⟨start, next, last, hrow, hlast, hsome, hle, hzero, .inr ?_, hend⟩
        -- the run would not have ended where another one begins
        rcases habove with rfl | habove
        · exact absurd (hzero start (Nat.le_refl start) hsome) (hnot (by omega))
        · exact habove

/-- What is folded is zero from end to end, and the lines next to it are not. -/
theorem of_folded {row : Row} (hrow : row ∈ m.listing) (hfolded : row.Folded) :
    m.AllZero row.first row.last ∧ 16 ∣ row.first ∧ 16 ∣ row.last + 1 ∧
      (row.first = 0 ∨ ¬ m.AllZero (row.first - 16) (row.first - 1)) ∧
      (row.last = 0xFFF ∨ ¬ m.AllZero (row.last + 1) (row.last + 16)) := by
  rcases m.lists_listing.of_mem hrow with
    ⟨l, rfl, -⟩ | ⟨start, next, last, rfl, hlast, hless, hle, hzero, habove, hbelow⟩
  · exact absurd hfolded id
  · simp only [Row.first, Row.last]
    refine ⟨?_, ⟨start, rfl⟩, ⟨next, hlast⟩, ?_, ?_⟩
    · intro a hfirst hend
      have hline := zeroLine_iff.mp (hzero (a / 16) (by omega) (by omega))
      exact hline a (by omega) (by omega)
    · rcases habove with rfl | ⟨l, rfl, hnot⟩
      · exact .inl rfl
      · refine .inr fun hclear => hnot (zeroLine_iff.mpr ?_)
        rwa [show 16 * (l + 1) - 16 = 16 * l by omega,
          show 16 * (l + 1) - 1 = 16 * l + 15 by omega] at hclear
    · rcases Nat.lt_or_eq_of_le hle with hinside | rfl
      · refine .inr fun hclear => hbelow hinside (zeroLine_iff.mpr ?_)
        rwa [show last + 16 = 16 * next + 15 by omega, hlast] at hclear
      · exact .inl (by omega)

theorem of_not_folded {row : Row} (hrow : row ∈ m.listing) (hshown : ¬ row.Folded) :
    row.last = row.first + 15 ∧ ¬ m.AllZero row.first row.last ∧
      row.content = Dump.wordsText (m.wordsFrom row.first) := by
  rcases m.lists_listing.of_mem hrow with ⟨l, rfl, hnot⟩ | ⟨start, next, last, rfl, -⟩
  · refine ⟨rfl, mt zeroLine_iff.mpr hnot, ?_⟩
    rw [Row.content, toList_lineWords]
    rfl
  · exact absurd trivial hshown

theorem folded_iff {row : Row} (hrow : row ∈ m.listing) :
    row.Folded ↔ m.AllZero row.first row.last :=
  ⟨fun hfolded => (of_folded hrow hfolded).1,
    fun hzero => by_contra fun hshown => (of_not_folded hrow hshown).2.1 hzero⟩

/-- The rows of any memory take its addresses in order, each once: the first begins at the first
address, each begins where the one above it ends, and the last ends with memory. A row is folded
exactly if there are only zeros in it; it is then a longest run of lines of zeros, and shows no
words. Any other row is one line, has a byte that is not zero, and shows its eight words. -/
theorem listing_shares_memory_out (m : Memory) :
    m.listing.flatMap Row.addresses = List.range 4096 ∧
      m.listing.head?.map Row.first = some 0 ∧
      m.listing.getLast?.map Row.last = some 0xFFF ∧
      m.listing.IsChain (fun above below =>
        below.first = above.last + 1 ∧ ¬ (above.Folded ∧ below.Folded)) ∧
      (∀ row ∈ m.listing, row.Folded ↔ m.AllZero row.first row.last) ∧
      (∀ row ∈ m.listing, row.Folded →
        16 ∣ row.first ∧ 16 ∣ row.last + 1 ∧
          (row.first = 0 ∨ ¬ m.AllZero (row.first - 16) (row.first - 1)) ∧
          (row.last = 0xFFF ∨ ¬ m.AllZero (row.last + 1) (row.last + 16)) ∧
          row.text = Dump.span row.first row.last ++
            " 0x0000                    ...                    0x0000") ∧
      ∀ row ∈ m.listing, ¬ row.Folded →
        row.last = row.first + 15 ∧
          (∃ a, row.first ≤ a ∧ a ≤ row.last ∧ m.cell a ≠ 0) ∧
          row.text = Dump.span row.first row.last ++ Dump.wordsText (m.wordsFrom row.first) := by
  have listed := m.lists_listing
  refine ⟨?_, ?_, ?_, listed.isChain, fun row hrow => folded_iff hrow, ?_, ?_⟩
  · rw [listed.flatMap_addresses, List.range_eq_range']
  · rw [List.head?_eq_some_head m.listing_ne_nil, Option.map_some]
    exact congrArg some (listed.of_mem_head? (List.head?_eq_some_head m.listing_ne_nil)).2.1
  · rw [List.getLast?_eq_some_getLast m.listing_ne_nil, Option.map_some]
    exact congrArg some
      (listed.last_of_mem_getLast? (List.getLast?_eq_some_getLast m.listing_ne_nil))
  · intro row hrow hfolded
    obtain ⟨-, hfirst, hlast, habove, hbelow⟩ := of_folded hrow hfolded
    refine ⟨hfirst, hlast, habove, hbelow, ?_⟩
    rw [Row.text_eq]
    cases row with
    | zeros => rfl
    | words => exact absurd hfolded id
  · intro row hrow hshown
    obtain ⟨hlength, hsome, hcontent⟩ := of_not_folded hrow hshown
    refine ⟨hlength, ?_, by rw [Row.text_eq, hcontent]⟩
    simpa only [AllZero, not_forall, exists_prop] using hsome

/-- A byte that is not zero has a row that shows its line. -/
theorem listing_shares_memory_out_around_a_byte :
    let m := blank.setCell 0x205 0x07
    ∃ row ∈ m.listing, row.first ≤ 0x205 ∧ 0x205 ≤ row.last ∧ ¬ row.Folded ∧
      row.text = Dump.span row.first row.last ++ Dump.wordsText (m.wordsFrom row.first) := by
  intro m
  obtain ⟨haddresses, -, -, -, hfolded, -, hshown⟩ := listing_shares_memory_out m
  have hmem : 0x205 ∈ m.listing.flatMap Row.addresses := by
    rw [haddresses, List.mem_range]
    decide
  obtain ⟨row, hrow, haddress⟩ := List.mem_flatMap.mp hmem
  rw [Row.addresses, List.mem_range'_1] at haddress
  have hfirst : row.first ≤ 0x205 := haddress.1
  have hlast : 0x205 ≤ row.last := by omega
  have hnot : ¬ row.Folded := by
    intro hfold
    have hzero := (hfolded row hrow).mp hfold 0x205 hfirst hlast
    rw [cell_setCell, if_pos rfl] at hzero
    exact absurd hzero (by decide)
  exact ⟨row, hrow, hfirst, hlast, hnot, (hshown row hrow hnot).2.2⟩

end Memory

end ChipEight

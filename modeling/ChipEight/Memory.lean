import ChipEight.Opcode

/-!
The memory of 4096 bytes. Every address is cut to twelve bits, so a block that runs past the end
goes on at address zero.
-/
namespace ChipEight

/-- Bytes of memory. -/
abbrev memorySize : Nat := 4096

/-- All twelve address bits. -/
abbrev topAddress : Nat := 0x0FFF

abbrev Address := Fin memorySize

def Address.wrap (a : Nat) : Address := ⟨a % memorySize, Nat.mod_lt _ (by decide)⟩

abbrev Memory := Vector UInt8 memorySize

namespace Memory

def blank : Memory := Vector.replicate memorySize 0

/-- The byte at an address of any size. -/
def cell (m : Memory) (a : Nat) : UInt8 := m[Address.wrap a]

def setCell (m : Memory) (a : Nat) (b : UInt8) : Memory :=
  m.set (Address.wrap a).val b (Address.wrap a).isLt

/-- Writes a block of bytes from address `a` on. -/
def write (m : Memory) (a : Nat) : List UInt8 → Memory
  | [] => m
  | b :: rest => (m.setCell a b).write (a + 1) rest

/-- The bytes from address `a` on. -/
def block (m : Memory) (a length : Nat) : List UInt8 :=
  (List.range length).map fun o => m.cell (a + o)

/-- The two bytes from `pointer` on, the high one first. -/
def fetch (m : Memory) (pointer : UInt16) : Opcode :=
  Opcode.ofBytes (m.cell pointer.toNat) (m.cell (pointer.toNat + 1))

@[simp] theorem cell_blank (a : Nat) : blank.cell a = 0 := by
  simp [cell, blank]

theorem cell_congr (m : Memory) {a b : Nat} (h : a % 4096 = b % 4096) : m.cell a = m.cell b := by
  simp [cell, Address.wrap, h]

theorem setCell_congr (m : Memory) {a b : Nat} (h : a % 4096 = b % 4096) (v : UInt8) :
    m.setCell a v = m.setCell b v := by
  simp [setCell, Address.wrap, h]

theorem write_congr (m : Memory) {a b : Nat} (h : a % 4096 = b % 4096) (bytes : List UInt8) :
    m.write a bytes = m.write b bytes := by
  induction bytes generalizing m a b with
  | nil => rfl
  | cons v rest ih =>
    rw [write, write, setCell_congr m h v]
    apply ih
    omega

theorem cell_setCell (m : Memory) (a c : Nat) (b : UInt8) :
    (m.setCell a b).cell c = if a % 4096 = c % 4096 then b else m.cell c := by
  simp [cell, setCell, Address.wrap, Vector.getElem_set]

/-- A block that does not reach a cell leaves it alone. -/
theorem cell_write_of_ne (m : Memory) (a c : Nat) (bytes : List UInt8)
    (h : ∀ o < bytes.length, (a + o) % 4096 ≠ c % 4096) : (m.write a bytes).cell c = m.cell c := by
  induction bytes generalizing m a with
  | nil => rfl
  | cons b rest ih =>
    have first := h 0 (by simp)
    rw [write, ih, cell_setCell, if_neg (by simpa using first)]
    intro o ho
    have later := h (o + 1) (by simpa using ho)
    rwa [show a + 1 + o = a + (o + 1) by omega]

/-- A block no longer than memory is found where it was written. -/
theorem cell_write (m : Memory) (a : Nat) (bytes : List UInt8) (fits : bytes.length ≤ 4096)
    (o : Nat) (ho : o < bytes.length) : (m.write a bytes).cell (a + o) = bytes[o] := by
  induction bytes generalizing m a o with
  | nil => simp at ho
  | cons b rest ih =>
    simp only [List.length_cons] at fits ho
    rw [write]
    cases o with
    | zero =>
      rw [cell_write_of_ne, cell_setCell]
      · simp
      · intro o ho
        omega
    | succ o =>
      have := ih (m.setCell a b) (a + 1) (by omega) o (by omega)
      rw [show a + (o + 1) = a + 1 + o by omega, this]
      simp

@[simp] theorem length_block (m : Memory) (a length : Nat) : (m.block a length).length = length := by
  simp [block]

theorem block_write (m : Memory) (a : Nat) (bytes : List UInt8) (fits : bytes.length ≤ 4096) :
    (m.write a bytes).block a bytes.length = bytes := by
  apply List.ext_getElem
  · simp
  · intro o _ ho
    simpa [block] using cell_write m a bytes fits o ho

theorem toNat_fetch (m : Memory) (pointer : UInt16) :
    (m.fetch pointer).toNat =
      (m.cell pointer.toNat).toNat * 256 + (m.cell (pointer.toNat + 1)).toNat := by
  simp [fetch]

end Memory

end ChipEight

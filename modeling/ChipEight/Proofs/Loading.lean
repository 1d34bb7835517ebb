import ChipEight.Proofs.Bounds

/-!
Programs loaded into memory. The font, the gap above it, the program and the rest share memory out
without overlap: the longest program ends with the last cell, and no block wraps around.
-/
namespace ChipEight

namespace Program

theorem ofBytes_eq_ok_iff {name : String} {image : List UInt8} {program : Program} :
    ofBytes name image = .ok program ↔ program.name = name ∧ program.image = image := by
  by_cases hfits : image.length ≤ 3584
  · rw [ofBytes_of_le hfits, Except.ok.injEq]
    constructor
    · rintro rfl
      exact ⟨rfl, rfl⟩
    · rintro ⟨rfl, rfl⟩
      rfl
  · rw [ofBytes_of_gt (Nat.lt_of_not_le hfits)]
    constructor
    · rintro ⟨⟩
    · rintro ⟨-, rfl⟩
      exact absurd program.length_le hfits

theorem exists_ofBytes_eq_ok_iff (name : String) (image : List UInt8) :
    (∃ program, ofBytes name image = .ok program) ↔ image.length ≤ 3584 := by
  constructor
  · rintro ⟨program, hprogram⟩
    rw [← (ofBytes_eq_ok_iff.mp hprogram).2]
    exact program.length_le
  · intro hfits
    exact ⟨_, ofBytes_of_le hfits⟩

/-- Below the start of the program memory is that of a machine without one. -/
theorem cell_memory_of_lt (p : Program) {a : Nat} (h : a < 0x200) :
    p.memory.cell a = (Memory.blank.write fontAddress font).cell a := by
  apply Memory.cell_write_of_ne
  intro o ho
  have hlength : p.image.length ≤ 3584 := p.length_le
  change (512 + o) % 4096 ≠ a % 4096
  omega

theorem getElem?_font (p : Program) {a : Nat} (h : a < 80) : font[a]? = some (p.memory.cell a) := by
  have hfont : a < font.length := h
  have hcell := Memory.cell_write Memory.blank fontAddress font (by decide) a hfont
  rw [show fontAddress + a = a from Nat.zero_add a] at hcell
  rw [p.cell_memory_of_lt (by omega), hcell, List.getElem?_eq_getElem hfont]

theorem cell_image (p : Program) {o : Nat} (h : o < p.image.length) :
    p.memory.cell (0x200 + o) = p.image[o] :=
  Memory.cell_write _ _ _ (Nat.le_trans p.length_le (by decide)) o h

theorem cell_memory_eq_zero (p : Program) {a : Nat} (inside : a < 4096) (hfont : 80 ≤ a)
    (himage : a < 0x200 ∨ 0x200 + p.image.length ≤ a) : p.memory.cell a = 0 := by
  have hblank : (Memory.blank.write fontAddress font).cell a = 0 := by
    rw [Memory.cell_write_of_ne, Memory.cell_blank]
    intro o ho
    have ho : o < 80 := ho
    change (0 + o) % 4096 ≠ a % 4096
    omega
  rw [← hblank]
  apply Memory.cell_write_of_ne
  intro o ho
  have hlength : p.image.length ≤ 3584 := p.length_le
  change (512 + o) % 4096 ≠ a % 4096
  omega

theorem toNat_fetch_image (p : Program) {k : Nat} (h : 2 * k + 1 < p.image.length) :
    (p.memory.fetch (UInt16.ofNat (0x200 + 2 * k))).toNat =
      p.image[2 * k].toNat * 256 + p.image[2 * k + 1].toNat := by
  have hlength : p.image.length ≤ 3584 := p.length_le
  have hpointer : (UInt16.ofNat (0x200 + 2 * k)).toNat = 0x200 + 2 * k := by
    rw [UInt16.toNat_ofNat']
    exact Nat.mod_eq_of_lt (by omega)
  rw [Memory.toNat_fetch, hpointer, cell_image, Nat.add_assoc, cell_image]

/-- Behind the last cell comes the first byte of the font. -/
theorem toNat_fetch_end (p : Program) :
    (p.memory.fetch 0xFFF).toNat = (p.memory.cell 0xFFF).toNat * 256 + 0xF0 := by
  have hfont : font[0]? = some (p.memory.cell 0) := p.getElem?_font (by decide)
  have hfirst : p.memory.cell 0 = 0xF0 := (Option.some.inj hfont).symm
  have hwrap : p.memory.cell (0xFFF + 1) = p.memory.cell 0 := Memory.cell_congr _ (by decide)
  rw [Memory.toNat_fetch]
  change _ * 256 + (p.memory.cell (0xFFF + 1)).toNat = _
  rw [hwrap, hfirst]
  rfl

end Program

namespace Machine

variable {H : Type}

/-- A program is refused by its length alone. Any other is loaded without an overrun, and every cell
is settled: the font, the program, and zero elsewhere. The words of the program are fetched as they
stand in it, and the last cell of memory makes a word with the first byte of the font. -/
theorem boot_shares_memory_out (name : String) (image : List UInt8) (host : H) (console : Console)
    (random : RandomStream) :
    ((∃ program, Program.ofBytes name image = .ok program) ↔ image.length ≤ 3584) ∧
      (¬ image.length ≤ 3584 →
        Program.ofBytes name image = .error (.doesNotFit image.length 3584)) ∧
      ∀ program, Program.ofBytes name image = .ok program →
        Guarded.boot program console random = .ok (boot program console random).state ∧
          let memory := (boot program host random).state.memory
          (∀ a < 80, font[a]? = some (memory.cell a)) ∧
            (∀ a, 0x200 ≤ a → a < 0x200 + image.length →
              image[a - 0x200]? = some (memory.cell a)) ∧
            (∀ a < 4096, 80 ≤ a → (a < 0x200 ∨ 0x200 + image.length ≤ a) → memory.cell a = 0) ∧
            (∀ k (h : 2 * k + 1 < image.length),
              (memory.fetch (UInt16.ofNat (0x200 + 2 * k))).toNat =
                image[2 * k].toNat * 256 + image[2 * k + 1].toNat) ∧
            (memory.fetch 0xFFF).toNat = (memory.cell 0xFFF).toNat * 256 + 0xF0 := by
  refine ⟨Program.exists_ofBytes_eq_ok_iff name image,
    fun hlong => Program.ofBytes_of_gt (Nat.lt_of_not_le hlong), ?_⟩
  intro program hprogram
  obtain ⟨-, rfl⟩ := Program.ofBytes_eq_ok_iff.mp hprogram
  refine ⟨Guarded.boot_eq program console random, fun a ha => program.getElem?_font ha, ?_,
    fun a ha hfont himage => program.cell_memory_eq_zero ha hfont himage,
    fun k hk => program.toNat_fetch_image hk, program.toNat_fetch_end⟩
  intro a hstart hend
  have hinside : a - 0x200 < program.image.length := by omega
  have hcell := program.cell_image hinside
  rw [Nat.add_sub_cancel' hstart] at hcell
  rw [List.getElem?_eq_getElem hinside, ← hcell]
  rfl

/-- The longest program fills memory up to the last cell, and one byte more is refused. -/
theorem boot_shares_memory_out_to_the_last_cell :
    let image : List UInt8 := List.replicate 3584 0xAB
    let full : Program := ⟨"FULL", image, Nat.le_of_eq List.length_replicate⟩
    let memory := (boot full Console.fresh RandomStream.zeros).state.memory
    Program.ofBytes "OVERFLOW" (0xAB :: image) = .error (.doesNotFit 3585 3584) ∧
      memory.cell 0xFFF = 0xAB ∧ (memory.fetch 0xFFE).toNat = 0xABAB ∧
      (memory.fetch 0xFFF).toNat = 0xABF0 := by
  intro image full memory
  have hlength : image.length = 3584 := List.length_replicate
  obtain ⟨-, hrefused, -⟩ := boot_shares_memory_out "OVERFLOW" (0xAB :: image) Console.fresh
    Console.fresh RandomStream.zeros
  obtain ⟨-, -, hloaded⟩ := boot_shares_memory_out "FULL" image Console.fresh Console.fresh
    RandomStream.zeros
  obtain ⟨-, -, himage, -, hwords, hend⟩ := hloaded _ (Program.ofBytes_of_le (Nat.le_of_eq hlength))
  have hlast : memory.cell 0xFFF = 0xAB := by
    have hcell := himage 0xFFF (by decide) (by omega)
    rw [List.getElem?_replicate_of_lt (by decide)] at hcell
    exact (Option.some.inj hcell).symm
  have hlong : (0xAB :: image).length = 3585 := congrArg (· + 1) hlength
  refine ⟨?_, hlast, ?_, ?_⟩
  · rw [hrefused (by omega), hlong]
  · have hword := hwords 1791 (by omega)
    rw [List.getElem_replicate, List.getElem_replicate] at hword
    exact hword
  · rw [hend]
    change (memory.cell 0xFFF).toNat * 256 + 0xF0 = 0xABF0
    rw [hlast]
    rfl

end Machine

end ChipEight

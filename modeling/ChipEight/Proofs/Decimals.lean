import ChipEight.Proofs.Saving

/-!
A register written to memory in decimal. Its three digits stand in three cells from `I` on, wherever
these run past the end of memory, and loading three registers takes the digits from the same cells.
-/
namespace ChipEight

namespace Machine

@[simp] theorem length_decimalDigits (v : UInt8) : (decimalDigits v).length = 3 := rfl

theorem le_nine_of_mem_decimalDigits {v d : UInt8} (h : d ∈ decimalDigits v) : d ≤ 9 := by
  have hv := v.toNat_lt
  rw [UInt8.le_iff_toNat_le]
  simp only [decimalDigits, List.mem_cons, List.not_mem_nil, or_false] at h
  rcases h with rfl | rfl | rfl <;>
    simp only [UInt8.toNat_div, UInt8.toNat_mod, UInt8.reduceToNat] <;> omega

theorem toNat_eq_decimalDigits (v : UInt8) :
    100 * (v / 100).toNat + 10 * (v / 10 % 10).toNat + (v % 10).toNat = v.toNat := by
  simp only [UInt8.toNat_div, UInt8.toNat_mod, UInt8.reduceToNat]
  omega

variable {H : Type} [Host H]

theorem state_execute_storeDecimal (m : Machine H) (x : Register) :
    (m.execute (.transfer .storeDecimal x)).state = { m with
      memory := m.memory.write m.index.toNat (decimalDigits (m.reg x))
      pc := (m.pc + 2) % 4096 } := move_next _

theorem cell_execute_storeDecimal (m : Machine H) (x : Register) {o : Nat}
    (h : o < (decimalDigits (m.reg x)).length) :
    (m.execute (.transfer .storeDecimal x)).state.memory.cell (m.index.toNat + o) =
      (decimalDigits (m.reg x))[o] := by
  rw [state_execute_storeDecimal]
  exact Memory.cell_write _ _ _ (by simp) o h

/-- The digits are loaded from the cells that they were written to. -/
theorem reg_loaded_of_storeDecimal (m : Machine H) {x r : Register}
    (h : r.val < (decimalDigits (m.reg x)).length) :
    ((m.execute (.transfer .storeDecimal x)).state.execute
      (.transfer .loadRegisters 2)).state.reg r = (decimalDigits (m.reg x))[r.val] := by
  have hlow : r.val ≤ (2 : Register).val := Nat.le_of_lt_succ h
  rw [reg_execute_loadRegisters, if_pos hlow]
  exact m.cell_execute_storeDecimal x h

/-- A register in decimal. Its hundreds, tens and units go to the three cells from `I` on, and no
other cell, no register and not `I` changes. If three registers are loaded next, they hold the three
digits, and the others what they held before. -/
theorem decimal_digits_come_back (m : Machine H) (x : Register) :
    let stored := m.execute (.transfer .storeDecimal x)
    let loaded := stored.state.execute (.transfer .loadRegisters 2)
    ∃ hundreds tens units : UInt8,
      (hundreds ≤ 9 ∧ tens ≤ 9 ∧ units ≤ 9 ∧
        100 * hundreds.toNat + 10 * tens.toNat + units.toNat = (m.reg x).toNat) ∧
      (stored.state.memory.cell (m.index.toNat % 4096) = hundreds ∧
        stored.state.memory.cell ((m.index.toNat + 1) % 4096) = tens ∧
        stored.state.memory.cell ((m.index.toNat + 2) % 4096) = units) ∧
      (∀ a < 4096, (∀ o < 3, (m.index.toNat + o) % 4096 ≠ a) →
        stored.state.memory.cell a = m.memory.cell a) ∧
      stored.state.registers = m.registers ∧ stored.state.index = m.index ∧
      (loaded.state.reg 0 = hundreds ∧ loaded.state.reg 1 = tens ∧ loaded.state.reg 2 = units) ∧
      (∀ r, 2 < r → loaded.state.reg r = m.reg r) ∧
      stored.result = .ok .idle ∧ loaded.result = .ok .idle := by
  intro stored loaded
  have hdigit : ∀ d ∈ decimalDigits (m.reg x), d ≤ 9 := fun _ => le_nine_of_mem_decimalDigits
  have hcell : ∀ o (h : o < (decimalDigits (m.reg x)).length),
      stored.state.memory.cell ((m.index.toNat + o) % 4096) = (decimalDigits (m.reg x))[o] := by
    intro o h
    rw [Memory.cell_congr _ (Nat.mod_mod _ 4096)]
    exact m.cell_execute_storeDecimal x h
  have hloaded : ∀ (r : Register) (h : r.val < (decimalDigits (m.reg x)).length),
      loaded.state.reg r = (decimalDigits (m.reg x))[r.val] :=
    fun r h => m.reg_loaded_of_storeDecimal h
  simp only [decimalDigits, List.forall_mem_cons] at hdigit
  obtain ⟨hhundreds, htens, hunits, -⟩ := hdigit
  have h0 : 0 < 3 := by decide
  have h1 : 1 < 3 := by decide
  have h2 : 2 < 3 := by decide
  refine ⟨m.reg x / 100, m.reg x / 10 % 10, m.reg x % 10,
    ⟨hhundreds, htens, hunits, toNat_eq_decimalDigits _⟩,
    ⟨hcell 0 h0, hcell 1 h1, hcell 2 h2⟩, ?_, rfl, rfl,
    ⟨hloaded 0 h0, hloaded 1 h1, hloaded 2 h2⟩, ?_, rfl, rfl⟩
  · intro a ha hother
    change (m.memory.write _ (decimalDigits (m.reg x))).cell a = m.memory.cell a
    apply Memory.cell_write_of_ne
    rwa [Nat.mod_eq_of_lt ha]
  · intro r hr
    exact (stored.state.reg_execute_loadRegisters 2 r).trans (if_neg (Nat.not_le_of_lt hr))

/-- Two hundred and forty-six across the end of memory, with `I` past it. -/
theorem decimal_digits_come_back_across_the_end :
    let m : Machine Console :=
      { initial ⟨"DECIMAL", [0xF5, 0x33, 0xF2, 0x65], by decide⟩ Console.fresh RandomStream.zeros with
        registers := Vector.replicate 16 246
        index := 0xFFFF }
    let stored := (m.execute (.transfer .storeDecimal 5)).state
    let loaded := (stored.execute (.transfer .loadRegisters 2)).state
    (stored.memory.cell 0xFFF = 2 ∧ stored.memory.cell 0 = 4 ∧ stored.memory.cell 1 = 6) ∧
      stored.memory.cell 2 = m.memory.cell 2 ∧
      (loaded.reg 0 = 2 ∧ loaded.reg 1 = 4 ∧ loaded.reg 2 = 6) ∧ loaded.reg 3 = 246 := by
  intro m stored loaded
  obtain ⟨hundreds, tens, units, ⟨hh, ht, hu, hsum⟩, hcells, hothers, -, -, hlow, hhigh, -⟩ :=
    m.decimal_digits_come_back 5
  have hvalue : (m.reg 5).toNat = 246 := by decide
  have hindex : m.index.toNat = 0xFFFF := rfl
  rw [UInt8.le_iff_toNat_le] at hh ht hu
  simp only [UInt8.reduceToNat] at hh ht hu
  obtain rfl : hundreds = 2 := UInt8.toNat_inj.mp (by simp only [UInt8.reduceToNat]; omega)
  obtain rfl : tens = 4 := UInt8.toNat_inj.mp (by simp only [UInt8.reduceToNat]; omega)
  obtain rfl : units = 6 := UInt8.toNat_inj.mp (by simp only [UInt8.reduceToNat] at hsum ⊢; omega)
  simp only [hindex, Nat.reduceAdd, Nat.reduceMod] at hcells
  exact ⟨hcells, hothers 2 (by decide) (by decide), hlow, hhigh 3 (by decide)⟩

end Machine

end ChipEight

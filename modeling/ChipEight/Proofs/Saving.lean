import ChipEight.Proofs.Footprint

/-!
Registers saved to memory and taken back. The same cells are written and read, one for each
register, wherever the block runs past the end of memory: what was saved comes back from whatever
machine still has those cells, and what was loaded is in memory already.
-/
namespace ChipEight

namespace Memory

/-- A byte written back where it stands changes nothing. -/
theorem setCell_cell (m : Memory) (a : Nat) : m.setCell a (m.cell a) = m := by
  simp [setCell, cell]

theorem block_succ (m : Memory) (a length : Nat) :
    m.block a (length + 1) = m.cell a :: m.block (a + 1) length := by
  simp [block, List.range_succ_eq_map, Nat.add_assoc, Nat.add_comm 1]

theorem write_block (m : Memory) (a length : Nat) : m.write a (m.block a length) = m := by
  induction length generalizing a with
  | zero => rfl
  | succ length ih => rw [block_succ, write, setCell_cell, ih]

end Memory

namespace Machine

variable {H : Type}

theorem getElem_lowRegisters (m : Machine H) {x r : Register}
    (h : r.val < (m.lowRegisters x).length) : (m.lowRegisters x)[r.val] = m.reg r := by
  simp [lowRegisters, reg]

theorem lowRegisters_loadRegisters (m : Machine H) (x : Register) :
    (m.loadRegisters x).lowRegisters x = m.memory.block m.index.toNat (x.val + 1) := by
  apply List.ext_getElem
  · rw [length_lowRegisters, Memory.length_block]
  · intro o ho hblock
    rw [length_lowRegisters] at ho
    let r : Register := ⟨o, Nat.lt_of_lt_of_le ho x.isLt⟩
    have hr : r.val ≤ x.val := Nat.le_of_lt_succ ho
    rw [getElem_lowRegisters (r := r), reg_loadRegisters, if_pos hr]
    simp [Memory.block, r]

/-- Each of the saved registers stands in a cell of its own. -/
theorem cell_write_lowRegisters (m : Machine H) {x r : Register} (h : r ≤ x) :
    (m.memory.write m.index.toNat (m.lowRegisters x)).cell (m.index.toNat + r.val) = m.reg r := by
  have hlength := m.length_lowRegisters x
  have hx : x.val < 16 := x.isLt
  have hr : r.val < (m.lowRegisters x).length := by
    rw [hlength]
    exact Nat.lt_succ_of_le h
  rw [Memory.cell_write _ _ _ (by omega) _ hr, getElem_lowRegisters]

variable [Host H]

theorem memory_execute_storeRegisters (m : Machine H) (x : Register) :
    (m.execute (.transfer .storeRegisters x)).state.memory =
      m.memory.write m.index.toNat (m.lowRegisters x) := rfl

theorem index_execute_storeRegisters (m : Machine H) (x : Register) :
    (m.execute (.transfer .storeRegisters x)).state.index = m.index := rfl

theorem state_execute_loadRegisters (m : Machine H) (x : Register) :
    (m.execute (.transfer .loadRegisters x)).state = { m with
      registers := (m.loadRegisters x).registers
      pc := (m.pc + 2) % 4096 } :=
  (congrArg Turn.state (m.transfer_loadRegisters x)).trans (move_next _)

theorem memory_execute_loadRegisters (m : Machine H) (x : Register) :
    (m.execute (.transfer .loadRegisters x)).state.memory = m.memory := by
  rw [state_execute_loadRegisters]

theorem index_execute_loadRegisters (m : Machine H) (x : Register) :
    (m.execute (.transfer .loadRegisters x)).state.index = m.index := by
  rw [state_execute_loadRegisters]

theorem reg_execute_loadRegisters (m : Machine H) (x r : Register) :
    (m.execute (.transfer .loadRegisters x)).state.reg r =
      if r.val ≤ x.val then m.memory.cell (m.index.toNat + r.val) else m.reg r := by
  rw [state_execute_loadRegisters]
  exact m.reg_loadRegisters x r

theorem memory_saved_of_loaded (m : Machine H) (x : Register) :
    ((m.execute (.transfer .loadRegisters x)).state.execute
      (.transfer .storeRegisters x)).state.memory = m.memory := by
  rw [memory_execute_storeRegisters, state_execute_loadRegisters]
  change m.memory.write m.index.toNat ((m.loadRegisters x).lowRegisters x) = m.memory
  rw [lowRegisters_loadRegisters, Memory.write_block]

/-- Saving `V0` to `VX` writes to one cell for each of them and to no other. From a machine that
still has those cells, loading takes the same registers back, however else it came by its state; and
to save what has just been loaded changes nothing. -/
theorem saved_registers_come_back (m : Machine H) (x : Register) :
    let saved := (m.execute (.transfer .storeRegisters x)).state
    let loaded := (m.execute (.transfer .loadRegisters x)).state
    (∀ r ≤ x, saved.memory.cell ((m.index.toNat + r.val) % 4096) = m.reg r) ∧
      (∀ a < 4096, (∀ r ≤ x, (m.index.toNat + r.val) % 4096 ≠ a) →
        saved.memory.cell a = m.memory.cell a) ∧
      (∀ later : Machine H, later.index.toNat % 4096 = saved.index.toNat % 4096 →
        (∀ r ≤ x, later.memory.cell ((m.index.toNat + r.val) % 4096) =
          saved.memory.cell ((m.index.toNat + r.val) % 4096)) →
        let restored := (later.execute (.transfer .loadRegisters x)).state
        (∀ r ≤ x, restored.reg r = m.reg r) ∧ (∀ r, x < r → restored.reg r = later.reg r) ∧
          restored.memory = later.memory ∧ restored.index = later.index) ∧
      (loaded.execute (.transfer .storeRegisters x)).state.memory = m.memory ∧
      saved.index = m.index ∧ loaded.index = m.index := by
  intro saved loaded
  have hsaved : ∀ r ≤ x, saved.memory.cell ((m.index.toNat + r.val) % 4096) = m.reg r := by
    intro r hr
    rw [Memory.cell_congr _ (Nat.mod_mod _ 4096), m.memory_execute_storeRegisters]
    exact m.cell_write_lowRegisters hr
  refine ⟨hsaved, ?_, ?_, m.memory_saved_of_loaded x, m.index_execute_storeRegisters x,
    m.index_execute_loadRegisters x⟩
  · intro a ha hother
    rw [m.memory_execute_storeRegisters]
    apply Memory.cell_write_of_ne
    intro o ho
    rw [length_lowRegisters] at ho
    rw [Nat.mod_eq_of_lt ha]
    exact hother ⟨o, Nat.lt_of_lt_of_le ho x.isLt⟩ (Nat.le_of_lt_succ ho)
  · intro later hindex hcells restored
    have hreg := later.reg_execute_loadRegisters x
    refine ⟨?_, ?_, later.memory_execute_loadRegisters x, later.index_execute_loadRegisters x⟩
    · intro r hr
      have hle : r.val ≤ x.val := hr
      have hplace : (later.index.toNat + r.val) % 4096 =
          (m.index.toNat + r.val) % 4096 % 4096 := by
        rw [m.index_execute_storeRegisters] at hindex
        omega
      rw [hreg, if_pos hle, Memory.cell_congr _ hplace, hcells r hr, hsaved r hr]
    · intro r hr
      rw [hreg, if_neg (Nat.not_le_of_lt hr)]

/-- Four registers are saved across the end of memory. Then `V1` and `V3` change and `I` moves on by
the size of memory, and the four come back. -/
theorem saved_registers_come_back_across_the_end :
    let m : Machine Console :=
      { initial ⟨"SAVE", [], by decide⟩ Console.fresh RandomStream.zeros with
        registers := Vector.ofFn fun r => UInt8.ofNat (r.val + 1)
        index := 0x0FFE }
    let saved := (m.execute (.transfer .storeRegisters 3)).state
    let later := { (saved.execute (.load 1 0x55)).state.writeReg 3 0x77 with index := 0x1FFE }
    let restored := (later.execute (.transfer .loadRegisters 3)).state
    later.index.toNat % 4096 = saved.index.toNat % 4096 ∧
      (∀ r ≤ (3 : Register), later.memory.cell ((m.index.toNat + r.val) % 4096) =
        saved.memory.cell ((m.index.toNat + r.val) % 4096)) ∧
      saved.memory.cell 1 = 4 ∧ later.reg 1 = 0x55 ∧
      ∀ r ≤ (3 : Register), restored.reg r = m.reg r := by
  intro m saved later restored
  obtain ⟨hsaved, -, hback, -⟩ := m.saved_registers_come_back 3
  have hindex : later.index.toNat % 4096 = saved.index.toNat % 4096 := by decide
  have hcells : ∀ r ≤ (3 : Register), later.memory.cell ((m.index.toNat + r.val) % 4096) =
      saved.memory.cell ((m.index.toNat + r.val) % 4096) := fun _ _ => rfl
  have hplace : (m.index.toNat + 3) % 4096 = 1 := by decide
  have hone : saved.memory.cell 1 = 4 := hplace ▸ hsaved 3 (Fin.le_refl 3)
  exact ⟨hindex, hcells, hone, by decide, (hback later hindex hcells).1⟩

end Machine

end ChipEight

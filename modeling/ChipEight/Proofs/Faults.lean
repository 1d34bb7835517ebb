import ChipEight.Host.Console
import ChipEight.Proofs.Effects

/-!
Faults are exact and atomic: the word at the program counter and the depth of the stack settle
whether the next instruction fails, and with which fault. Of a machine whose instruction failed
nothing has changed but the last word fetched.
-/
namespace ChipEight

namespace Machine

variable {H : Type}

/-- The faults of the instruction at the program counter. -/
inductive Refuses (m : Machine H) : Fault → Prop where
  | routine (family : m.word.family = 0x0) (clear : m.word ≠ 0x00E0) (leave : m.word ≠ 0x00EE) :
    Refuses m (.routineCall m.word m.pc)
  | unused (h : m.word.Unused) : Refuses m (.undecodable m.word m.pc)
  | full (family : m.word.family = 0x2) (depth : m.stack.length = stackLimit) :
    Refuses m (.stack .full m.pc)
  | empty (leave : m.word = 0x00EE) (depth : m.stack = []) : Refuses m (.stack .empty m.pc)

variable [Host H]

theorem refuses_of_error {m : Machine H} (depth : m.stack.length ≤ stackLimit) {fault : Fault}
    (h : m.cycle.result = .error fault) : m.Refuses fault := by
  rcases m.word_cases with hunused | ⟨i, hi⟩
  · rw [cycle_of_unused hunused] at h
    cases h
    exact .unused hunused
  · rw [cycle_of_encodes hi, Turn.result_after] at h
    rcases fault_cases h with ⟨address, rfl, rfl⟩ | ⟨address, rfl, hfull, rfl⟩ | ⟨rfl, hempty, rfl⟩
    · rcases hi with ⟨hfamily, hclear, hleave, -⟩
      exact .routine hfamily hclear hleave
    · exact .full hi.1 (Nat.le_antisymm depth hfull)
    · exact .empty hi hempty

theorem error_of_refuses {m : Machine H} {fault : Fault} (h : m.Refuses fault) :
    m.cycle.result = .error fault := by
  cases h with
  | routine family clear leave =>
    have hi : m.word.Encodes (.routine m.word.nnn) := ⟨family, clear, leave, rfl⟩
    rw [cycle_of_encodes hi]
    rfl
  | unused h =>
    rw [cycle_of_unused h]
    rfl
  | full family depth =>
    have hi : m.word.Encodes (.call m.word.nnn) := ⟨family, rfl⟩
    have hfull : ¬ m.fetch.stack.length < stackLimit := by
      change ¬ m.stack.length < stackLimit
      omega
    rw [cycle_of_encodes hi, Turn.result_after, result_execute]
    exact if_neg hfull
  | empty leave depth =>
    have hi : m.word.Encodes .leave := leave
    rw [cycle_of_encodes hi, Turn.result_after, result_execute]
    exact if_pos depth

theorem state_cycle_of_error {m : Machine H} {fault : Fault} (h : m.cycle.result = .error fault) :
    m.cycle.state = m.fetch := by
  rcases m.cycle_cases with ⟨fault', -, hstate⟩ | ⟨i, signal, m', step, -, -, hok, -⟩
  · exact hstate
  · rw [hok] at h
    cases h

/-- The next instruction fails exactly for the reasons above, with the fault named there, and then
the machine is as before but for the last word fetched. -/
theorem cycle_error_iff (m : Machine H) (depth : m.stack.length ≤ stackLimit) (fault : Fault) :
    (m.cycle.result = .error fault ↔ m.Refuses fault) ∧
      (m.cycle.result = .error fault → m.cycle.state = { m with opcode := m.memory.fetch m.pc }) :=
  ⟨⟨refuses_of_error depth, error_of_refuses⟩, state_cycle_of_error⟩

/-- A program that calls itself fails sixteen calls deep. -/
theorem cycle_error_sixteen_deep :
    let m : Machine Console :=
      { Machine.initial ⟨"DEEP", [0x22, 0x00], by decide⟩ Console.fresh RandomStream.zeros with
        stack := List.replicate 16 0x200 }
    m.stack.length ≤ stackLimit ∧ m.Refuses (.stack .full 0x200) ∧
      m.cycle.result = .error (.stack .full 0x200) ∧
      m.cycle.state = { m with opcode := 0x2200 } := by
  intro m
  have hdepth : m.stack.length ≤ stackLimit := by decide
  have hword : m.memory.fetch m.pc = 0x2200 := by decide +kernel
  have hfamily : m.word.family = 0x2 := by
    unfold word
    rw [hword]
    decide
  have hfull : m.Refuses (.stack .full 0x200) := .full hfamily (by decide)
  have h := cycle_error_iff m hdepth (.stack .full 0x200)
  rw [hword] at h
  exact ⟨hdepth, hfull, h.1.mpr hfull, h.2 (h.1.mpr hfull)⟩

end Machine

end ChipEight

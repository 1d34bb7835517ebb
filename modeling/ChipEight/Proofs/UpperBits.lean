import ChipEight.Host.Recorder
import ChipEight.Proofs.Guises
import ChipEight.Proofs.Sessions

/-!
The upper four bits of `I` are out of sight. `I` serves for nothing but addresses, and these have
twelve bits: what an instruction answers, what it asks of the host and what it leaves behind depends
on the lower twelve bits of `I` only, and so do the lower twelve bits that it leaves in `I`.
-/
namespace ChipEight

namespace Machine

variable {H : Type}

/-- Two machines that differ in the upper four bits of `I` at most. -/
structure LooksLike (m m' : Machine H) : Prop where
  rest : m' = { m with index := m'.index }
  index : m.index.toNat % 4096 = m'.index.toNat % 4096

def withIndex (m : Machine H) (i : UInt16) : Machine H := { m with index := i }

theorem looksLike_withIndex {m : Machine H} {i : UInt16}
    (h : m.index.toNat % 4096 = i.toNat % 4096) : m.LooksLike (m.withIndex i) := ⟨rfl, h⟩

theorem LooksLike.exists_index {m m' : Machine H} (h : m.LooksLike m') :
    ∃ i, m' = m.withIndex i ∧ m.index.toNat % 4096 = i.toNat % 4096 :=
  ⟨m'.index, h.rest, h.index⟩

theorem toNat_add_mod {a b : UInt16} (h : a.toNat % 4096 = b.toNat % 4096) (v : UInt16) :
    (a + v).toNat % 4096 = (b + v).toNat % 4096 := by
  simp only [UInt16.toNat_add]
  omega

variable [Host H]

theorem execute_withIndex {m : Machine H} {i : UInt16}
    (h : i.toNat % 4096 = m.index.toNat % 4096) {instruction : Instruction}
    (keeps : ¬ instruction.SetsIndex) :
    (m.withIndex i).execute instruction = (m.execute instruction).within (·.withIndex i) := by
  let guise : Guise H H := ⟨fun _ => i, id, id, id⟩
  have hunnoticed : Unnoticed guise m.index instruction :=
    ⟨h, fun sets => absurd sets keeps, fun _ => ⟨rfl, rfl⟩, Host.View.same⟩
  exact execute_inGuise hunnoticed

theorem index_execute {m : Machine H} {instruction : Instruction}
    (keeps : ¬ instruction.SetsIndex) : (m.execute instruction).state.index = m.index := by
  have hself : m.execute instruction = (m.execute instruction).within (·.withIndex m.index) :=
    execute_withIndex rfl keeps
  rw [hself]
  rfl

theorem matches_execute {m : Machine H} {i : UInt16}
    (h : m.index.toNat % 4096 = i.toNat % 4096) (instruction : Instruction) :
    (m.execute instruction).Matches LooksLike ((m.withIndex i).execute instruction) := by
  by_cases keeps : instruction.SetsIndex
  · cases instruction with
    | pointAt address => exact ⟨looksLike_withIndex rfl, rfl, rfl⟩
    | transfer op x =>
      cases op with
      | pointAtGlyph => exact ⟨looksLike_withIndex rfl, rfl, rfl⟩
      | addToIndex => exact ⟨looksLike_withIndex (toNat_add_mod h _), rfl, rfl⟩
      | _ => cases keeps
    | _ => cases keeps
  · rw [execute_withIndex h.symm keeps]
    apply Turn.matches_within
    apply looksLike_withIndex
    rw [index_execute keeps]
    exact h

theorem matches_cycle {m m' : Machine H} (h : m.LooksLike m') :
    m.cycle.Matches LooksLike m'.cycle := by
  obtain ⟨i, rfl, hlow⟩ := h.exists_index
  have hword : (m.withIndex i).word = m.word := rfl
  rcases m.word_cases with hunused | ⟨instruction, hi⟩
  · rw [cycle_of_unused hunused, cycle_of_unused (hword ▸ hunused)]
    exact ⟨looksLike_withIndex hlow, rfl, rfl⟩
  · have hexecute := matches_execute (m := m.fetch) hlow instruction
    rw [cycle_of_encodes hi, cycle_of_encodes (hword ▸ hi)]
    exact hexecute.after _

theorem lockstep_looksLike :
    Session.Lockstep (fun m m' : Machine H => m.LooksLike m') heed heed := by
  intro m m' h action
  cases action with
  | cycle => exact (matches_cycle h).map Answer.outcome
  | countDown | passOver | host =>
    obtain ⟨i, rfl, hlow⟩ := h.exists_index
    exact ⟨looksLike_withIndex hlow, rfl, rfl⟩

/-- From two machines that differ in the upper bits of `I` at most, every history is answered in the
same way and sends the same messages, and leaves two such machines again. Their hosts are the same,
and so are the calls that a host writes down. -/
theorem upper_bits_unobservable {m m' : Machine H} (h : m.LooksLike m')
    (actions : List (Action H)) :
    Session.transcript heed m actions = Session.transcript heed m' actions ∧
      (m.perform actions).LooksLike (m'.perform actions) := by
  have hsession := lockstep_looksLike.session h actions
  rw [final_heed, final_heed] at hsession
  exact hsession

/-- The sprite is drawn and the digits are stored across the end of memory; then `I` passes sixteen
bits on one of the machines only. -/
theorem upper_bits_unobservable_past_the_end :
    let m : Machine Recorder :=
      initial ⟨"WRAP", [0x60, 0xFE, 0xF0, 0x1E, 0xD0, 0x05, 0xF0, 0x33, 0xF0, 0x1E, 0xF2, 0x55],
        by decide⟩ Recorder.fresh RandomStream.zeros
    let low := m.withIndex 0x0F01
    let high := m.withIndex 0xFF01
    let actions : List (Action Recorder) := List.replicate 6 .cycle ++ [.countDown, .host Host.mark]
    low.LooksLike high ∧
      Session.transcript heed low actions = Session.transcript heed high actions ∧
      (low.perform actions).LooksLike (high.perform actions) ∧
      (low.perform actions).host.calls.size = 6 ∧
      (low.perform actions).index ≠ (high.perform actions).index := by
  intro m low high actions
  have hlike : low.LooksLike high := ⟨rfl, by decide⟩
  have h := upper_bits_unobservable hlike actions
  refine ⟨hlike, h.1, h.2, ?_, ?_⟩
  · decide +kernel
  · decide +kernel

end Machine

end ChipEight

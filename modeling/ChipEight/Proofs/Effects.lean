import ChipEight.Machine.Cycle
import ChipEight.Proofs.Decoding

/-!
What an instruction comes to. It is refused on the spot, and then nothing has changed, or it has an
effect on some parts of the machine and ends with a move of the program counter.
-/
namespace ChipEight

theorem ok_of_toOption {E A : Type} {result : Except E A} {a : A} (h : result.toOption = some a) :
    result = .ok a := by
  cases result with
  | error e => cases h
  | ok b =>
    cases h
    rfl

namespace Machine

variable {H : Type}

@[simp] theorem result_proceed (m : Machine H) (step : Step) (signal : Signal) :
    (m.proceed step signal).result = .ok signal := rfl

theorem combine_eq (m : Machine H) (op : Combine) (x y : Register) :
    m.combine op x y = { m with registers := (m.combine op x y).registers } := by
  unfold combine
  dsimp only
  split <;> rfl

theorem loadRegisters_eq (m : Machine H) (x : Register) :
    m.loadRegisters x = { m with registers := (m.loadRegisters x).registers } := rfl

def word (m : Machine H) : Opcode := m.memory.fetch m.pc

theorem word_cases (m : Machine H) : m.word.Unused ∨ ∃ i, m.word.Encodes i := by
  cases h : Instruction.decode? m.word with
  | none => exact .inl (Instruction.decode?_eq_none_iff.mp h)
  | some i => exact .inr ⟨i, Instruction.encodes_of_decode? h⟩

variable [Host H]

theorem execute_combine (m : Machine H) (op : Combine) (x y : Register) :
    m.execute (.combine op x y) =
      proceed { m with registers := (m.combine op x y).registers } .next .idle :=
  congrArg (proceed · .next .idle) (m.combine_eq op x y)

theorem transfer_loadRegisters (m : Machine H) (x : Register) :
    m.transfer .loadRegisters x =
      proceed { m with registers := (m.loadRegisters x).registers } .next .idle :=
  congrArg (proceed · .next .idle) (m.loadRegisters_eq x)

theorem draw_eq (m : Machine H) (x y : Register) (height : UInt8) :
    ∃ host collision, m.draw x y height =
      (writeFlag { m with host := host } collision).proceed .next .draw := by
  unfold draw
  cases Host.flipAll m.host (m.spriteCells x y height) with
  | mk host collision => exact ⟨Host.mark host, collision, rfl⟩

/-- Whether the machine, asking for one key after the other, finds none that is down. -/
def KeysUp (m : Machine H) : Prop := (Host.firstPressed m.host (List.finRange 16)).1 = none

instance (m : Machine H) : Decidable m.KeysUp :=
  inferInstanceAs (Decidable ((Host.firstPressed m.host (List.finRange 16)).1 = none))

theorem awaitKey_cases (m : Machine H) (x : Register) :
    (∃ host messages, m.KeysUp ∧ m.awaitKey x =
      (proceed { m with host := host, run := .awaitingKey x } .stay .wait).after messages) ∨
    (∃ host v, ¬ m.KeysUp ∧ m.awaitKey x =
      (writeReg { m with host := host, run := .running } x v).proceed .next .idle) := by
  unfold KeysUp awaitKey
  cases Host.firstPressed m.host (List.finRange 16) with
  | mk found host =>
    cases found with
    | none => exact .inl ⟨host, _, rfl, rfl⟩
    | some k => exact .inr ⟨host, _, by simp, rfl⟩

/-- What each instruction answers. Three of them can fail, and one can wait. -/
theorem result_execute (m : Machine H) (i : Instruction) :
    (m.execute i).result = match i with
      | .routine _ => .error (.routineCall m.opcode m.pc)
      | .call _ =>
        if m.stack.length < stackLimit then .ok .idle else .error (.stack .full m.pc)
      | .leave => if m.stack = [] then .error (.stack .empty m.pc) else .ok .idle
      | .clear | .draw _ _ _ => .ok .draw
      | .transfer .awaitKey _ => if m.KeysUp then .ok .wait else .ok .idle
      | _ => .ok .idle := by
  cases i with
  | call address =>
    dsimp only [execute, call]
    split <;> rfl
  | leave =>
    dsimp only [execute, leave]
    cases m.stack <;> rfl
  | transfer op x =>
    cases op with
    | awaitKey =>
      rcases m.awaitKey_cases x with ⟨host, messages, hup, h⟩ | ⟨host, v, hdown, h⟩
      · simp [execute, transfer, h, hup]
      · simp [execute, transfer, h, hdown]
    | _ => rfl
  | _ => rfl

theorem fault_cases {m : Machine H} {i : Instruction} {fault : Fault}
    (h : (m.execute i).result = .error fault) :
    (∃ address, i = .routine address ∧ fault = .routineCall m.opcode m.pc) ∨
    (∃ address, i = .call address ∧ stackLimit ≤ m.stack.length ∧ fault = .stack .full m.pc) ∨
    (i = .leave ∧ m.stack = [] ∧ fault = .stack .empty m.pc) := by
  rw [result_execute] at h
  cases i with
  | routine address =>
    cases h
    exact .inl ⟨address, rfl, rfl⟩
  | call address =>
    dsimp only at h
    by_cases hroom : m.stack.length < stackLimit
    · rw [if_pos hroom] at h
      cases h
    · rw [if_neg hroom] at h
      cases h
      exact .inr (.inl ⟨address, rfl, Nat.le_of_not_lt hroom, rfl⟩)
  | leave =>
    dsimp only at h
    by_cases hempty : m.stack = []
    · rw [if_pos hempty] at h
      cases h
      exact .inr (.inr ⟨rfl, hempty, rfl⟩)
    · rw [if_neg hempty] at h
      cases h
  | transfer op x =>
    cases op with
    | awaitKey =>
      dsimp only at h
      split at h <;> cases h
    | _ => cases h
  | _ => cases h

/-- `m'` is what an instruction makes of `m` before the program counter moves. -/
structure Effect (i : Instruction) (m m' : Machine H) : Prop where
  opcode : m'.opcode = m.opcode
  pc : m'.pc = m.pc
  /-- A call puts its own address on the stack, and a return takes one off. -/
  stack : m'.stack = match i with
    | .call _ => m.pc :: m.stack
    | .leave => m.stack.tail
    | _ => m.stack
  /-- Only the wait for a key touches the run state. -/
  run : m'.run = match i with
    | .transfer .awaitKey x => if m.KeysUp then .awaitingKey x else .running
    | _ => m.run

theorem execute_cases (m : Machine H) (i : Instruction) :
    (∃ fault messages, m.execute i = (m.refuse fault).after messages) ∨
    (∃ m' step signal messages,
      m.execute i = (proceed m' step signal).after messages ∧ Effect i m m') := by
  cases i with
  | routine address => exact .inl ⟨_, _, rfl⟩
  | call address =>
    dsimp only [execute, call]
    split
    · exact .inr ⟨_, _, _, [], rfl, by constructor <;> rfl⟩
    · exact .inl ⟨_, [], rfl⟩
  | leave =>
    dsimp only [execute, leave]
    cases h : m.stack with
    | nil => exact .inl ⟨_, [], rfl⟩
    | cons origin outer => exact .inr ⟨_, _, _, _, rfl, by constructor <;> simp [h]⟩
  | combine op x y => exact .inr ⟨_, _, _, [], m.execute_combine op x y, by constructor <;> rfl⟩
  | draw x y height =>
    rcases m.draw_eq x y height with ⟨host, collision, h⟩
    exact .inr ⟨_, _, _, [], h, by constructor <;> rfl⟩
  | transfer op x =>
    cases op with
    | awaitKey =>
      rcases m.awaitKey_cases x with ⟨host, messages, hup, h⟩ | ⟨host, v, hdown, h⟩
      · exact .inr ⟨_, _, _, _, h, by constructor <;> simp [hup]⟩
      · exact .inr ⟨_, _, _, [], h, by constructor <;> simp [hdown, writeReg]⟩
    | loadRegisters =>
      exact .inr ⟨_, _, _, [], m.transfer_loadRegisters x, by constructor <;> rfl⟩
    | _ => exact .inr ⟨_, _, _, [], rfl, by constructor <;> rfl⟩
  | _ => exact .inr ⟨_, _, _, [], rfl, by constructor <;> rfl⟩

/-- An instruction that fails has changed nothing. -/
theorem state_execute_of_error {m : Machine H} {i : Instruction} {fault : Fault}
    (h : (m.execute i).result = .error fault) : (m.execute i).state = m := by
  rcases m.execute_cases i with ⟨fault', messages, hi⟩ | ⟨m', step, signal, messages, hi, -⟩
  · rw [hi]
    rfl
  · rw [hi] at h
    cases h

theorem state_execute_of_ok {m : Machine H} {i : Instruction} {signal : Signal}
    (h : (m.execute i).result = .ok signal) :
    ∃ m' step, (m.execute i).state = m'.move step ∧ Effect i m m' := by
  rcases m.execute_cases i with ⟨fault, messages, hi⟩ | ⟨m', step, signal', messages, hi, heffect⟩
  · rw [hi] at h
    cases h
  · rw [hi]
    exact ⟨m', step, rfl, heffect⟩

theorem cycle_of_unused {m : Machine H} (h : m.word.Unused) :
    m.cycle =
      (m.fetch.refuse (.undecodable m.word m.pc)).after [.fetched m.pc m.word] := by
  have hnone : Instruction.decode? m.fetch.opcode = none := Instruction.decode?_eq_none_iff.mpr h
  unfold cycle
  dsimp only
  rw [hnone]
  rfl

theorem cycle_of_encodes {m : Machine H} {i : Instruction} (h : m.word.Encodes i) :
    m.cycle = (m.fetch.execute i).after [.fetched m.pc m.word] := by
  have hsome : Instruction.decode? m.fetch.opcode = some i := Instruction.decode?_of_encodes h
  unfold cycle
  dsimp only
  rw [hsome]
  rfl

/-- A cycle that fails is a fetch, and any other has the effect of the word that was fetched. -/
theorem cycle_cases (m : Machine H) :
    (∃ fault, m.cycle.result = .error fault ∧ m.cycle.state = m.fetch) ∨
    (∃ i signal m' step, m.word.Encodes i ∧ (m.fetch.execute i).result = .ok signal ∧
      m.cycle.result = .ok signal ∧ m.cycle.state = m'.move step ∧ Effect i m.fetch m') := by
  rcases m.word_cases with hunused | ⟨i, hi⟩
  · rw [cycle_of_unused hunused]
    exact .inl ⟨_, rfl, rfl⟩
  · rw [cycle_of_encodes hi, Turn.state_after, Turn.result_after]
    cases hresult : (m.fetch.execute i).result with
    | error fault => exact .inl ⟨fault, rfl, state_execute_of_error hresult⟩
    | ok signal =>
      rcases state_execute_of_ok hresult with ⟨m', step, hstate, heffect⟩
      exact .inr ⟨i, signal, m', step, hi, hresult, rfl, hstate, heffect⟩

end Machine

end ChipEight

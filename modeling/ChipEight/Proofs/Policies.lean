import ChipEight.Host.Console
import ChipEight.Proofs.Faults
import ChipEight.Proofs.Messages

/-!
The two policies, step by step. Up to the first fault they can not be told apart. There the one
stops with the fault, and the other goes on behind the instruction with a machine that is otherwise
the same; each reports the fault once.
-/
namespace ChipEight

namespace Machine

variable {H : Type} [Host H]

/-- Whether the next instruction fails. -/
def fails (m : Machine H) : Bool :=
  match m.cycle.result with
  | .error _ => true
  | .ok _ => false

theorem fails_of_error {m : Machine H} {fault : Fault} (h : m.cycle.result = .error fault) :
    m.fails = true := by
  unfold fails
  rw [h]

theorem fails_of_ok {m : Machine H} {signal : Signal} (h : m.cycle.result = .ok signal) :
    m.fails = false := by
  unfold fails
  rw [h]

theorem ok_of_not_fails {m : Machine H} (h : m.fails = false) :
    ∃ signal, m.cycle.result = .ok signal := by
  cases hresult : m.cycle.result with
  | error fault =>
    rw [fails_of_error hresult] at h
    cases h
  | ok signal => exact ⟨signal, rfl⟩

theorem attempt_of_ok {m : Machine H} {signal : Signal} (h : m.cycle.result = .ok signal)
    (policy : Policy) : m.attempt policy = m.cycle := by
  unfold attempt
  dsimp only
  rw [h]

theorem attempt_halt_of_error {m : Machine H} {fault : Fault} (h : m.cycle.result = .error fault) :
    m.attempt .halt = ⟨m.fetch, .error fault, m.cycle.messages ++ [.halted m.name fault]⟩ := by
  unfold attempt
  dsimp only
  rw [h]
  dsimp only
  rw [state_cycle_of_error h]
  rfl

theorem attempt_skip_of_error {m : Machine H} {fault : Fault} (h : m.cycle.result = .error fault) :
    m.attempt .skip = ⟨m.fetch.passOver, .ok .idle, m.cycle.messages ++ [.skipped fault]⟩ := by
  unfold attempt
  dsimp only
  rw [h]
  dsimp only
  rw [state_cycle_of_error h]

theorem result_attempt_skip (m : Machine H) : ∃ signal, (m.attempt .skip).result = .ok signal := by
  cases h : m.cycle.result with
  | error fault =>
    rw [attempt_skip_of_error h]
    exact ⟨.idle, rfl⟩
  | ok signal =>
    rw [attempt_of_ok h]
    exact ⟨signal, h⟩

theorem sentAt_attempt_halt {m : Machine H} {fault : Fault} (h : m.cycle.result = .error fault) :
    (m.attempt .halt).sentAt .error = [.halted m.name fault] ∧
      (m.attempt .halt).sentAt .warn = [] := by
  rw [attempt_halt_of_error h, sentAt_cycle_append m _ _ _ (by decide) (by decide),
    sentAt_cycle_append m _ _ _ (by decide) (by decide)]
  exact ⟨rfl, rfl⟩

theorem sentAt_attempt_skip {m : Machine H} {fault : Fault} (h : m.cycle.result = .error fault) :
    (m.attempt .skip).sentAt .warn = [.skipped fault] ∧
      (m.attempt .skip).sentAt .error = [] := by
  rw [attempt_skip_of_error h, sentAt_cycle_append m _ _ _ (by decide) (by decide),
    sentAt_cycle_append m _ _ _ (by decide) (by decide)]
  exact ⟨rfl, rfl⟩

/-- A warning is sent exactly by an attempt that passes over a fault. -/
theorem length_sentAt_attempt_skip (m : Machine H) :
    ((m.attempt .skip).sentAt .warn).length = if m.fails then 1 else 0 := by
  cases h : m.cycle.result with
  | error fault =>
    rw [(sentAt_attempt_skip h).1, fails_of_error h]
    rfl
  | ok signal =>
    rw [attempt_of_ok h, sentAt_cycle m (by decide) (by decide), fails_of_ok h]
    rfl

end Machine

namespace Emulation

variable {H : Type}

def withPolicy (e : Emulation H) (policy : Policy) : Emulation H :=
  { e with settings := { e.settings with policy := policy } }

variable [Host H]

/-- The emulation after some steps, whatever came of them. -/
def afterSteps (e : Emulation H) : Nat → Emulation H
  | 0 => e
  | n + 1 => (e.afterSteps n).step.state

/-- The messages of one level in the first `n` steps. -/
def sentWithin (e : Emulation H) (n : Nat) (level : Level) : List Message :=
  (List.range n).flatMap fun k => (e.afterSteps k).step.sentAt level

/-- How many of the first `n` instructions fail. -/
def failuresWithin (e : Emulation H) (n : Nat) : Nat :=
  (List.range n).countP fun k => (e.afterSteps k).machine.fails

/-- The next step ends with the fault. Only the fetch of the instruction has taken place. -/
structure Halts (e : Emulation H) (fault : Fault) : Prop where
  result : e.step.result = .error fault
  state : e.step.state = { e with machine := { e.machine with opcode := e.machine.word } }
  errors : e.step.sentAt .error = [.halted e.machine.name fault]
  warnings : e.step.sentAt .warn = []

/-- The next step reports the fault and goes on behind the instruction. -/
structure PassesOver (e : Emulation H) (fault : Fault) : Prop where
  result : e.step.result = .ok .idle
  state : e.step.state =
    { e with
      machine :=
        { e.machine with
          opcode := e.machine.word
          pc := (e.machine.pc + 2) % 0x1000
          run := .running } }
  warnings : e.step.sentAt .warn = [.skipped fault]
  text : (e.step.sentAt .warn).map Message.text = ["skipping the instruction: " ++ fault.message]
  errors : e.step.sentAt .error = []

theorem step_eq (e : Emulation H) :
    e.step = (e.machine.attempt e.settings.policy).within fun m => { e with machine := m } := rfl

theorem settings_afterSteps (e : Emulation H) (n : Nat) :
    (e.afterSteps n).settings = e.settings := by
  induction n with
  | zero => rfl
  | succ n ih => exact ih

/-- A step after the first ones is an attempt under the same policy. -/
theorem step_afterSteps (e : Emulation H) (policy : Policy) (n : Nat) :
    ((e.withPolicy policy).afterSteps n).step =
      (((e.withPolicy policy).afterSteps n).machine.attempt policy).within fun m =>
        { (e.withPolicy policy).afterSteps n with machine := m } := by
  have hpolicy : ((e.withPolicy policy).afterSteps n).settings.policy = policy := by
    rw [settings_afterSteps]
    rfl
  rw [step_eq, hpolicy]

theorem machine_afterSteps_eq (e : Emulation H) {n : Nat}
    (fine : ∀ k < n, ((e.withPolicy .halt).afterSteps k).machine.fails = false) :
    ((e.withPolicy .halt).afterSteps n).machine = ((e.withPolicy .skip).afterSteps n).machine := by
  induction n with
  | zero => rfl
  | succ n ih =>
    have hsame := ih fun k hk => fine k (Nat.lt_succ_of_lt hk)
    rcases Machine.ok_of_not_fails (fine n (Nat.lt_succ_self n)) with ⟨signal, hok⟩
    unfold afterSteps
    rw [step_afterSteps, step_afterSteps, ← hsame, Machine.attempt_of_ok hok,
      Machine.attempt_of_ok hok]
    rfl

theorem result_step_eq (e : Emulation H) {n : Nat}
    (fine : ∀ k < n, ((e.withPolicy .halt).afterSteps k).machine.fails = false) {k : Nat}
    (hk : k < n) :
    ((e.withPolicy .halt).afterSteps k).step.result =
      ((e.withPolicy .skip).afterSteps k).step.result := by
  have hsame := e.machine_afterSteps_eq fun j hj => fine j (Nat.lt_trans hj hk)
  rcases Machine.ok_of_not_fails (fine k hk) with ⟨signal, hok⟩
  rw [step_afterSteps, step_afterSteps, ← hsame, Machine.attempt_of_ok hok,
    Machine.attempt_of_ok hok]
  rfl

theorem halts_of_error (e : Emulation H) {n : Nat} {fault : Fault}
    (h : ((e.withPolicy .halt).afterSteps n).machine.cycle.result = .error fault) :
    ((e.withPolicy .halt).afterSteps n).Halts fault := by
  have hsent := Machine.sentAt_attempt_halt h
  have hstep := e.step_afterSteps .halt n
  constructor
  · rw [hstep, Machine.attempt_halt_of_error h]
    rfl
  · rw [hstep, Machine.attempt_halt_of_error h]
    rfl
  · rw [hstep]
    exact hsent.1
  · rw [hstep]
    exact hsent.2

theorem passesOver_of_error (e : Emulation H) {n : Nat} {fault : Fault}
    (h : ((e.withPolicy .skip).afterSteps n).machine.cycle.result = .error fault) :
    ((e.withPolicy .skip).afterSteps n).PassesOver fault := by
  have hsent := Machine.sentAt_attempt_skip h
  have hstep := e.step_afterSteps .skip n
  constructor
  · rw [hstep, Machine.attempt_skip_of_error h]
    rfl
  · rw [hstep, Machine.attempt_skip_of_error h, Machine.passOver_eq]
    rfl
  · rw [hstep]
    exact hsent.1
  · rw [hstep, Turn.sentAt_within, hsent.1]
    rfl
  · rw [hstep]
    exact hsent.2

theorem result_step_skip (e : Emulation H) (n : Nat) :
    ∃ signal, ((e.withPolicy .skip).afterSteps n).step.result = .ok signal := by
  rw [step_afterSteps]
  exact Machine.result_attempt_skip _

theorem length_sentWithin_skip (e : Emulation H) (n : Nat) :
    ((e.withPolicy .skip).sentWithin n .warn).length = (e.withPolicy .skip).failuresWithin n := by
  induction n with
  | zero => rfl
  | succ n ih =>
    have hlast : (((e.withPolicy .skip).afterSteps n).step.sentAt .warn).length =
        if ((e.withPolicy .skip).afterSteps n).machine.fails then 1 else 0 := by
      rw [step_afterSteps]
      exact Machine.length_sentAt_attempt_skip _
    unfold sentWithin failuresWithin at ih ⊢
    rw [List.range_succ, List.flatMap_append, List.countP_append, List.length_append, ih,
      List.flatMap_singleton, hlast, List.countP_singleton]

/-- Up to the first fault both policies give the same results and the same machines. From there the
one halts and the other passes over, does so at every later fault, and warns of each. -/
theorem skip_goes_on_where_halt_stops (e : Emulation H) :
    (∀ n, (∀ k < n, ((e.withPolicy .halt).afterSteps k).machine.fails = false) →
      (∀ k ≤ n, ((e.withPolicy .halt).afterSteps k).machine =
        ((e.withPolicy .skip).afterSteps k).machine) ∧
      (∀ k < n, ((e.withPolicy .halt).afterSteps k).step.result =
        ((e.withPolicy .skip).afterSteps k).step.result) ∧
      ∀ fault, ((e.withPolicy .halt).afterSteps n).machine.cycle.result = .error fault →
        ((e.withPolicy .halt).afterSteps n).Halts fault ∧
        ((e.withPolicy .skip).afterSteps n).PassesOver fault) ∧
    ∀ n, (∃ signal, ((e.withPolicy .skip).afterSteps n).step.result = .ok signal) ∧
      ((e.withPolicy .skip).sentWithin n .warn).length = (e.withPolicy .skip).failuresWithin n := by
  refine ⟨?_, fun n => ⟨e.result_step_skip n, e.length_sentWithin_skip n⟩⟩
  intro n fine
  refine ⟨?_, fun k hk => e.result_step_eq fine hk, ?_⟩
  · intro k hk
    exact e.machine_afterSteps_eq fun j hj => fine j (Nat.lt_of_lt_of_le hj hk)
  · intro fault herror
    refine ⟨e.halts_of_error herror, e.passesOver_of_error ?_⟩
    rw [← e.machine_afterSteps_eq fine]
    exact herror

/-- The second word of the program has an operation code that is not in use. -/
theorem skip_goes_on_behind_second_word :
    let e : Emulation Console :=
      ⟨Machine.initial ⟨"SKIP", [0x60, 0x07, 0x81, 0x28, 0x00, 0xEE], by decide⟩ Console.fresh
          RandomStream.zeros,
        ⟨2000000, 0, by decide, by decide⟩, ⟨16666666, 0, by decide, by decide⟩,
        Settings.ordinary⟩
    (∀ k < 1, ((e.withPolicy .halt).afterSteps k).machine.fails = false) ∧
      ((e.withPolicy .halt).afterSteps 1).Halts (.undecodable 0x8128 0x202) ∧
      ((e.withPolicy .skip).afterSteps 1).PassesOver (.undecodable 0x8128 0x202) ∧
      ((e.withPolicy .skip).sentWithin 3 .warn).length = 2 := by
  intro e
  have hfine : ∀ k < 1, ((e.withPolicy .halt).afterSteps k).machine.fails = false := by
    decide +kernel
  have hword : ((e.withPolicy .halt).afterSteps 1).machine.word = 0x8128 := by decide +kernel
  have hpc : ((e.withPolicy .halt).afterSteps 1).machine.pc = 0x202 := by decide +kernel
  have hfailures : (e.withPolicy .skip).failuresWithin 3 = 2 := by decide +kernel
  have hunused : Opcode.Unused 0x8128 := Instruction.decode?_eq_none_iff.mp (by decide)
  have herror := Machine.error_of_refuses (.unused (hword ▸ hunused))
  rw [hword, hpc] at herror
  have h := e.skip_goes_on_where_halt_stops
  have hfirst := (h.1 1 hfine).2.2 _ herror
  exact ⟨hfine, hfirst.1, hfirst.2, (h.2 3).2.trans hfailures⟩

end Emulation

end ChipEight

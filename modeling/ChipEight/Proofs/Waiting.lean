import ChipEight.Proofs.Guarded
import ChipEight.Proofs.History

/-!
The states that a machine can reach. Addresses stay within twelve bits and the stack within its
limit. A machine that waits for a key has the instruction that waits at its program counter, and so
a cycle ends in waiting exactly if it asks the surroundings to wait.
-/
namespace ChipEight

/-- The field `X` of the word that waits is the number of its register. -/
theorem xField_awaitKey : ∀ x : Register, Guarded.xField (Opcode.awaitKey x) = x.val := by decide

namespace Machine

variable {H : Type}

structure Sound (m : Machine H) : Prop where
  pc_lt : m.pc.toNat < 4096
  depth_le : m.stack.length ≤ stackLimit
  stack_lt : ∀ origin ∈ m.stack, origin.toNat < 4096
  waiting : ∀ x, m.run = .awaitingKey x → m.opcode = Opcode.awaitKey x ∧ m.word = Opcode.awaitKey x

theorem sound_initial (program : Program) (host : H) (random : RandomStream) :
    (initial program host random).Sound where
  pc_lt := by change (0x200 : UInt16).toNat < 4096; decide
  depth_le := Nat.zero_le _
  stack_lt := by intro origin h; cases h
  waiting := by intro x h; cases h

theorem move_stay {m : Machine H} (h : m.pc.toNat < 4096) : m.move .stay = m := by
  have hpc : m.pc % 4096 = m.pc := by
    apply UInt16.toNat_inj.mp
    rw [UInt16.toNat_mod]
    exact Nat.mod_eq_of_lt h
  unfold move
  rw [Step.apply_stay, hpc]

theorem run_eq_running {m : Machine H} (h : m.Sound) (hword : ∀ x, m.word ≠ Opcode.awaitKey x) :
    m.run = .running := by
  cases hrun : m.run with
  | running => rfl
  | awaitingKey x => exact absurd (h.waiting x hrun).2 (hword x)

variable [Host H]

theorem eq_awaitKey_of_wait {m : Machine H} {i : Instruction}
    (h : (m.execute i).result = .ok .wait) : ∃ x, i = .transfer .awaitKey x := by
  cases i with
  | call address | leave =>
    rw [result_execute] at h
    dsimp only at h
    split at h <;> cases h
  | transfer op x =>
    cases op with
    | awaitKey => exact ⟨x, rfl⟩
    | _ => cases h
  | _ => cases h

theorem Effect.run_of_ne {i : Instruction} {m m' : Machine H} (h : Effect i m m')
    (hne : ∀ x, i ≠ .transfer .awaitKey x) : m'.run = m.run := by
  rw [h.run]
  split
  · exact absurd rfl (hne _)
  · rfl

theorem cycle_of_awaitKey {m : Machine H} {x : Register} (hword : m.word = Opcode.awaitKey x)
    (hpc : m.pc.toNat < 4096) :
    (∃ host, m.cycle.result = .ok .wait ∧
      m.cycle.state = { m with opcode := m.word, host := host, run := .awaitingKey x }) ∨
    (m.cycle.result = .ok .idle ∧ m.cycle.state.run = .running) := by
  have hi : m.word.Encodes (.transfer .awaitKey x) := Opcode.encodes_awaitKey_iff.mpr hword
  rw [cycle_of_encodes hi, Turn.state_after, Turn.result_after]
  change (∃ host, (m.fetch.awaitKey x).result = _ ∧ (m.fetch.awaitKey x).state = _) ∨
    ((m.fetch.awaitKey x).result = _ ∧ (m.fetch.awaitKey x).state.run = _)
  rcases m.fetch.awaitKey_cases x with ⟨host, messages, -, h⟩ | ⟨host, v, -, h⟩
  · refine .inl ⟨host, ?_, ?_⟩
    · rw [h]
      rfl
    · rw [h]
      exact move_stay (m := { m.fetch with host := host, run := .awaitingKey x }) hpc
  · refine .inr ⟨?_, ?_⟩
    · rw [h]
      rfl
    · rw [h]
      rfl

/-- No other instruction waits or touches the run state. -/
theorem cycle_of_ne_awaitKey {m : Machine H} (hword : ∀ x, m.word ≠ Opcode.awaitKey x) :
    m.cycle.result ≠ .ok .wait ∧ m.cycle.state.run = m.run := by
  rcases m.cycle_cases with
    ⟨fault, hresult, hstate⟩ | ⟨i, signal, m', step, hi, hexecute, hresult, hstate, heffect⟩
  · rw [hresult, hstate]
    exact ⟨by simp, rfl⟩
  · have hne : ∀ x, i ≠ .transfer .awaitKey x := by
      intro x hix
      rw [hix] at hi
      exact hword x (Opcode.encodes_awaitKey_iff.mp hi)
    refine ⟨?_, ?_⟩
    · intro hwait
      rw [hresult, ← hexecute] at hwait
      rcases eq_awaitKey_of_wait hwait with ⟨x, hx⟩
      exact hne x hx
    · rw [hstate]
      exact heffect.run_of_ne hne

theorem sound_stack_act {m : Machine H} (h : m.Sound) (action : Action H) :
    (m.act action).stack.length ≤ stackLimit ∧
      ∀ origin ∈ (m.act action).stack, origin.toNat < 4096 := by
  rcases m.stack_act action with hsame | ⟨hpush, hroom⟩ | ⟨origin, hpop⟩
  · rw [hsame]
    exact ⟨h.depth_le, h.stack_lt⟩
  · rw [hpush]
    refine ⟨hroom, ?_⟩
    intro origin horigin
    cases horigin with
    | head => exact h.pc_lt
    | tail _ hmem => exact h.stack_lt origin hmem
  · have hdepth := h.depth_le
    have hlt := h.stack_lt
    rw [hpop] at hdepth hlt
    refine ⟨Nat.le_of_succ_le hdepth, ?_⟩
    intro a ha
    exact hlt a (List.mem_cons_of_mem origin ha)

/-- The wait for a key is the only state of the run that a cycle can enter, and it says so. -/
theorem awaits_cycle_iff {m : Machine H} (h : m.Sound) :
    (∃ x, m.cycle.state.run = .awaitingKey x) ↔ m.cycle.result = .ok .wait := by
  by_cases hword : ∃ x, m.word = Opcode.awaitKey x
  · rcases hword with ⟨x, hword⟩
    rcases cycle_of_awaitKey hword h.pc_lt with ⟨host, hresult, hstate⟩ | ⟨hresult, hrun⟩
    · rw [hresult, hstate]
      exact ⟨fun _ => rfl, fun _ => ⟨x, rfl⟩⟩
    · rw [hresult, hrun]
      simp
  · have hne : ∀ x, m.word ≠ Opcode.awaitKey x := fun x hx => hword ⟨x, hx⟩
    have hcycle := cycle_of_ne_awaitKey hne
    rw [hcycle.2, run_eq_running h hne]
    simp [hcycle.1]

theorem waiting_cycle {m : Machine H} (h : m.Sound) (x : Register)
    (hrun : m.cycle.state.run = .awaitingKey x) :
    m.cycle.state.opcode = Opcode.awaitKey x ∧ m.cycle.state.word = Opcode.awaitKey x := by
  by_cases hword : ∃ y, m.word = Opcode.awaitKey y
  · rcases hword with ⟨y, hword⟩
    rcases cycle_of_awaitKey hword h.pc_lt with ⟨host, -, hstate⟩ | ⟨-, hrunning⟩
    · rw [hstate] at hrun ⊢
      cases hrun
      exact ⟨hword, hword⟩
    · rw [hrunning] at hrun
      cases hrun
  · have hne : ∀ y, m.word ≠ Opcode.awaitKey y := fun y hy => hword ⟨y, hy⟩
    rw [(cycle_of_ne_awaitKey hne).2, run_eq_running h hne] at hrun
    cases hrun

theorem sound_act {m : Machine H} (h : m.Sound) (action : Action H) : (m.act action).Sound where
  pc_lt := toNat_pc_act_lt h.pc_lt action
  depth_le := (sound_stack_act h action).1
  stack_lt := (sound_stack_act h action).2
  waiting := by
    intro x hrun
    cases action with
    | cycle => exact waiting_cycle h x hrun
    | countDown => exact h.waiting x hrun
    | passOver => cases hrun
    | host change => exact h.waiting x hrun

theorem sound_of_reachable {m : Machine H} (h : m.Reachable) : m.Sound := by
  rcases h with ⟨program, host, random, actions, rfl⟩
  exact perform_induction (P := Sound) (fun _ action hm => sound_act hm action)
    (sound_initial program host random) actions

/-- What holds of a machine after any history: its addresses stay within twelve bits, with sixteen
of them on the stack at most. While it waits, the word that waits is both the last one fetched and
the next one, and its field `X` names the register. A cycle leaves the machine waiting exactly if it
asks the surroundings to wait. -/
theorem invariant_of_reachable {m : Machine H} (h : m.Reachable) :
    m.pc.toNat < 0x1000 ∧
    (m.stack.length ≤ 16 ∧ ∀ origin ∈ m.stack, origin.toNat < 0x1000) ∧
    (∀ x, m.run = .awaitingKey x →
      x.val = Guarded.xField m.opcode ∧ Guarded.xField m.opcode ≤ 15 ∧
        m.opcode = Opcode.awaitKey x ∧ m.memory.fetch m.pc = Opcode.awaitKey x) ∧
    ((∃ x, m.cycle.state.run = .awaitingKey x) ↔ m.cycle.result = .ok .wait) := by
  have hm := sound_of_reachable h
  refine ⟨hm.pc_lt, ⟨hm.depth_le, hm.stack_lt⟩, ?_, awaits_cycle_iff hm⟩
  intro x hrun
  obtain ⟨hopcode, hword⟩ := hm.waiting x hrun
  have hfield : Guarded.xField m.opcode = x.val := by rw [hopcode, xField_awaitKey]
  have hle : Guarded.xField m.opcode ≤ 15 := by
    rw [hfield]
    exact Nat.le_of_lt_succ x.isLt
  exact ⟨hfield.symm, hle, hopcode, hword⟩

/-- The first instruction waits, for a key into `V3`. -/
theorem invariant_waiting_for_V3 :
    let m : Machine Console :=
      (initial ⟨"WAIT", [0xF3, 0x0A], by decide⟩ Console.fresh RandomStream.zeros).perform
        [.cycle, .countDown, .host Host.mark]
    m.Reachable ∧ m.run = .awaitingKey 3 ∧ m.pc.toNat < 0x1000 ∧
      m.opcode = Opcode.awaitKey 3 ∧ m.memory.fetch m.pc = Opcode.awaitKey 3 ∧
      m.cycle.result = .ok .wait := by
  intro m
  have hreachable : m.Reachable := ⟨_, _, _, _, rfl⟩
  have h := invariant_of_reachable hreachable
  have hrun : m.run = .awaitingKey 3 := by decide +kernel
  have hagain : m.cycle.state.run = .awaitingKey 3 := by decide +kernel
  obtain ⟨-, -, hopcode, hword⟩ := h.2.2.1 3 hrun
  exact ⟨hreachable, hrun, h.1, hopcode, hword, h.2.2.2.mp ⟨3, hagain⟩⟩

end Machine

end ChipEight

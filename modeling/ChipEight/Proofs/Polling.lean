import ChipEight.Proofs.Countdowns
import ChipEight.Proofs.Sessions
import ChipEight.Proofs.Waiting

/-!
The wait for a key. The instruction that waits is repeated until it finds a key down, and the timers
go on meanwhile. However often it is repeated, the machine goes on from there as if the key had been
down at once and all the ticks had come afterwards.
-/
namespace ChipEight

namespace Host

variable {H : Type} [Host H]

def isDown (h : H) (k : Key) : Bool := (readKey h k).1

/-- The key is down, and none below it is. -/
def IsLowest (h : H) (k : Key) : Prop := isDown h k = true ∧ ∀ j < k, isDown h j = false

instance (h : H) (k : Key) : Decidable (IsLowest h k) :=
  inferInstanceAs (Decidable (_ ∧ _))

/-- A question for a key leaves no trace in the host. -/
def Traceless (H : Type) [Host H] : Prop := ∀ (h : H) (k : Key), (readKey h k).2 = h

theorem find?_isDown_eq_some_iff {h : H} {k : Key} :
    (List.finRange 16).find? (isDown h) = some k ↔ IsLowest h k := by
  rw [List.find?_eq_some_iff_getElem]
  apply and_congr_right
  intro _
  constructor
  · intro ⟨i, hi, hik, hbefore⟩ j hj
    have hlt : j.val < i := by
      rw [← hik, List.getElem_finRange] at hj
      exact hj
    simpa using hbefore j.val hlt
  · intro hbelow
    refine ⟨k.val, by simp, by simp, ?_⟩
    intro j hj
    simpa using hbelow ⟨j, Nat.lt_trans hj k.isLt⟩ hj

theorem exists_isLowest {h : H} {k : Key} (down : isDown h k = true) : ∃ k, IsLowest h k := by
  cases hfind : (List.finRange 16).find? (isDown h) with
  | some lowest => exact ⟨lowest, find?_isDown_eq_some_iff.mp hfind⟩
  | none => exact absurd down (List.find?_eq_none.mp hfind k (List.mem_finRange k))

theorem Traceless.firstPressed (traceless : Traceless H) (h : H) (keys : List Key) :
    Host.firstPressed h keys = (keys.find? (isDown h), h) := by
  induction keys with
  | nil => rfl
  | cons k rest ih =>
    have hread : readKey h k = (isDown h k, h) := Prod.ext rfl (traceless h k)
    rw [Host.firstPressed, hread, List.find?_cons]
    cases isDown h k with
    | true => rfl
    | false => exact ih

end Host

theorem Console.traceless : Host.Traceless Console := fun _ _ => rfl

/-- What goes on while a machine waits. -/
def Action.Polls {H : Type} : Action H → Prop
  | .cycle | .countDown => True
  | _ => False

def Action.isCycle {H : Type} : Action H → Bool
  | .cycle => true
  | _ => false

@[simp] theorem Action.isCycle_cycle {H : Type} : (Action.cycle : Action H).isCycle = true := rfl

@[simp] theorem Action.isCycle_countDown {H : Type} :
    (Action.countDown : Action H).isCycle = false := rfl

def Message.isWait : Message → Bool
  | .awaitingKey _ => true
  | _ => false

namespace Machine

variable {H : Type}

/-- The machine with both timers some ticks down. -/
def lowered (m : Machine H) (n : Nat) : Machine H :=
  { m with delay := m.delay.lowered n, sound := m.sound.lowered n }

/-- The machine held at the instruction that waits for a key into `VX`. -/
def held (m : Machine H) (x : Register) : Machine H :=
  { m.fetch with run := .awaitingKey x }

/-- The machine behind that instruction, with the key that it found in `VX`. -/
def answered (m : Machine H) (x : Register) (k : Key) : Machine H :=
  { m.fetch.writeReg x (UInt8.ofNat k.val) with
    pc := (m.pc + 2) % 4096
    run := .running }

@[simp] theorem run_held (m : Machine H) (x : Register) : (m.held x).run = .awaitingKey x := rfl

@[simp] theorem run_lowered (m : Machine H) (n : Nat) : (m.lowered n).run = m.run := rfl

@[simp] theorem lowered_zero (m : Machine H) : m.lowered 0 = m := by
  simp [lowered]

theorem lowered_lowered (m : Machine H) (a b : Nat) : (m.lowered a).lowered b = m.lowered (a + b) := by
  simp [lowered, Countdown.lowered_lowered]

theorem state_countDown (m : Machine H) : m.countDown.state = m.lowered 1 := by
  simp [lowered, countDown, Countdown.lowered_one]

theorem held_held (m : Machine H) (x : Register) : (m.held x).held x = m.held x := rfl

theorem held_lowered (m : Machine H) (x : Register) (n : Nat) :
    (m.lowered n).held x = (m.held x).lowered n := rfl

variable [Host H]

/-- The instruction that waits for a key into `VX` is next, and no key is down. -/
structure Waits (m : Machine H) (x : Register) : Prop where
  pc_lt : m.pc.toNat < 4096
  word : m.word = Opcode.awaitKey x
  up : ∀ k, Host.isDown m.host k = false

theorem Waits.held {m : Machine H} {x : Register} (h : m.Waits x) : (m.held x).Waits x :=
  ⟨h.pc_lt, h.word, h.up⟩

theorem Waits.lowered {m : Machine H} {x : Register} (h : m.Waits x) (n : Nat) :
    (m.lowered n).Waits x := ⟨h.pc_lt, h.word, h.up⟩

theorem perform_replicate_countDown (m : Machine H) (n : Nat) :
    m.perform (List.replicate n .countDown) = m.lowered n := by
  induction n generalizing m with
  | zero => simp
  | succ n ih =>
    have htick : m.act .countDown = m.lowered 1 := m.state_countDown
    rw [List.replicate_succ, perform_cons, htick, ih, lowered_lowered, Nat.add_comm]

section

variable (traceless : Host.Traceless H) {m : Machine H} {x : Register}

include traceless

theorem awaitKey_of_up (up : ∀ k, Host.isDown m.host k = false) (x : Register) :
    m.awaitKey x = (proceed { m with run := .awaitingKey x } .stay .wait).after
      (if m.run = .running then [.awaitingKey x] else []) := by
  have hfind : (List.finRange 16).find? (Host.isDown m.host) = none := by
    simp [List.find?_eq_none, up]
  unfold awaitKey
  rw [traceless.firstPressed, hfind]

theorem awaitKey_of_isLowest {k : Key} (lowest : Host.IsLowest m.host k) (x : Register) :
    m.awaitKey x = (writeReg { m with run := .running } x (UInt8.ofNat k.val)).proceed .next .idle := by
  unfold awaitKey
  rw [traceless.firstPressed, Host.find?_isDown_eq_some_iff.mpr lowest]

/-- The instruction goes on with the lowest key that is down. -/
theorem cycle_of_isLowest {k : Key} (word : m.word = Opcode.awaitKey x)
    (lowest : Host.IsLowest m.host k) :
    m.cycle = ⟨m.answered x k, .ok .idle, [.fetched m.pc m.word]⟩ := by
  have hawait := awaitKey_of_isLowest (m := m.fetch) traceless lowest x
  rw [cycle_of_encodes (Opcode.encodes_awaitKey_iff.mpr word)]
  simp only [execute, transfer, hawait, proceed, move_next]
  rfl

variable (h : m.Waits x)

include h

/-- No key is down, so the instruction stays in place. It reports the wait only as it enters it. -/
theorem cycle_of_waits :
    m.cycle = ⟨m.held x, .ok .wait,
      .fetched m.pc m.word :: if m.run = .running then [.awaitingKey x] else []⟩ := by
  have hawait := awaitKey_of_up (m := m.fetch) traceless h.up x
  have hstay : (m.held x).move .stay = m.held x := move_stay (m := m.held x) h.pc_lt
  rw [cycle_of_encodes (Opcode.encodes_awaitKey_iff.mpr h.word)]
  simp only [execute, transfer, hawait, proceed]
  change Turn.after _ (Turn.after _ ⟨(m.held x).move .stay, _, _⟩) = _
  rw [hstay]
  simp only [Turn.after, List.append_nil]
  rfl

theorem act_of_waits {action : Action H} (polls : action.Polls) :
    m.act action = if action.isCycle then m.held x else m.lowered 1 := by
  cases action with
  | cycle => exact congrArg Turn.state (cycle_of_waits traceless h)
  | countDown => exact m.state_countDown
  | passOver | host => cases polls

theorem filter_messages_of_waits {action : Action H} (polls : action.Polls) :
    (m.heed action).messages.filter Message.isWait =
      if action.isCycle ∧ m.run = .running then [.awaitingKey x] else [] := by
  cases action with
  | cycle =>
    have hmessages : (m.heed .cycle).messages = m.cycle.messages := rfl
    rw [hmessages, cycle_of_waits traceless h]
    by_cases hrun : m.run = .running <;> simp [hrun, Message.isWait]
  | countDown =>
    have hmessages : (m.heed .countDown).messages = m.countDown.messages := rfl
    rw [hmessages]
    unfold countDown
    dsimp only
    split <;> simp [Message.isWait]
  | passOver | host => cases polls

variable {actions : List (Action H)} (polls : ∀ action ∈ actions, action.Polls)

include polls

/-- What a machine comes to while it waits. -/
theorem perform_of_waits :
    m.perform actions =
      (if actions.any Action.isCycle then m.held x else m).lowered (ticks actions) := by
  induction actions generalizing m with
  | nil => simp
  | cons action rest ih =>
    obtain ⟨hfirst, hrest⟩ := List.forall_mem_cons.mp polls
    rw [perform_cons, act_of_waits traceless h hfirst]
    cases action with
    | cycle => simp [Action.isTick, ih h.held hrest, held_held]
    | countDown =>
      -- A cycle later on holds the machine, and the tick before it can as well come after.
      cases hcycles : rest.any Action.isCycle <;>
        simp [Action.isTick, ih (h.lowered 1) hrest, hcycles, held_lowered, lowered_lowered,
          Nat.add_comm]
    | passOver | host => cases hfirst

theorem Waits.perform : (m.perform actions).Waits x := by
  rw [perform_of_waits traceless h polls]
  split
  · exact h.held.lowered _
  · exact h.lowered _

/-- The wait is reported once, by the first of the cycles. -/
theorem filter_log_of_waits :
    (Session.log heed m actions).filter Message.isWait =
      if actions.any Action.isCycle ∧ m.run = .running then [.awaitingKey x] else [] := by
  induction actions generalizing m with
  | nil => simp
  | cons action rest ih =>
    obtain ⟨hfirst, hrest⟩ := List.forall_mem_cons.mp polls
    rw [Session.log_cons, List.filter_append, filter_messages_of_waits traceless h hfirst,
      state_heed, act_of_waits traceless h hfirst]
    cases action with
    | cycle => simp [ih h.held hrest]
    | countDown => simp [ih (h.lowered 1) hrest]
    | passOver | host => cases hfirst

variable (cycles : .cycle ∈ actions)

include cycles

theorem perform_eq_held : m.perform actions = (m.held x).lowered (ticks actions) := by
  have hany : actions.any Action.isCycle = true := List.any_eq_true.mpr ⟨.cycle, cycles, rfl⟩
  rw [perform_of_waits traceless h polls, hany]
  rfl

/-- Keys that are pressed end the wait, and it is as if they had been down before it. -/
theorem cycle_pressed {press : H → H} {k : Key} (lowest : Host.IsLowest (press m.host) k) :
    ((m.perform actions).act (.host press)).cycle =
      ⟨(m.act (.host press)).cycle.state.lowered (ticks actions), .ok .idle,
        [.fetched m.pc m.word]⟩ := by
  have hearly := cycle_of_isLowest (m := m.act (.host press)) traceless h.word lowest
  have hlate := cycle_of_isLowest (m := ((m.held x).lowered (ticks actions)).act (.host press))
    traceless h.word lowest
  rw [perform_eq_held traceless h polls cycles, hearly, hlate]
  rfl

theorem perform_pressed {press : H → H} {k : Key} (lowest : Host.IsLowest (press m.host) k) :
    m.perform (actions ++ [.host press, .cycle]) =
      (m.act (.host press)).cycle.state.lowered (ticks actions) := by
  rw [perform_append]
  exact congrArg Turn.state (cycle_pressed traceless h polls cycles lowest)

/-- The cycle that finds a key down has nothing more to say of the wait. -/
theorem filter_log_pressed {press : H → H} {k : Key} (lowest : Host.IsLowest (press m.host) k) :
    (Session.log heed m (actions ++ [.host press, .cycle])).filter Message.isWait =
      (Session.log heed m actions).filter Message.isWait := by
  have hsilent : (((m.perform actions).act (.host press)).heed .cycle).messages =
      [.fetched m.pc m.word] :=
    congrArg Turn.messages (cycle_pressed traceless h polls cycles lowest)
  rw [Session.log_append, List.filter_append, final_heed, Session.log_cons, Session.log_cons,
    state_heed, hsilent]
  exact List.append_nil _

end

/-- A machine at the instruction that waits, with no key down, and any number of cycles and ticks
in any order. Each cycle waits and the first one says so; apart from the ticks, it is all the same
how many there are. Once some keys are pressed, the next cycle puts the lowest one into `VX` and
leads where it would have led from the start, with all the ticks after it. -/
theorem polling_leaves_no_trace (traceless : Host.Traceless H) {m : Machine H} {x : Register}
    (waits : m.Waits x) (running : m.run = .running) {actions : List (Action H)}
    (polls : ∀ action ∈ actions, action.Polls) (cycles : .cycle ∈ actions) :
    (∀ before after, actions = before ++ .cycle :: after →
      (m.perform before).cycle.result = .ok .wait) ∧
    m.perform actions =
      { m with
        opcode := Opcode.awaitKey x
        run := .awaitingKey x
        delay := m.delay.lowered (ticks actions)
        sound := m.sound.lowered (ticks actions) } ∧
    (Session.log heed m actions).filter Message.isWait = [.awaitingKey x] ∧
    ∀ press : H → H, (∃ k, Host.isDown (press m.host) k = true) →
      ∃ k, Host.IsLowest (press m.host) k ∧
        ((m.perform actions).act (.host press)).cycle.result = .ok .idle ∧
        m.perform (actions ++ [.host press, .cycle]) =
          m.perform ([.host press, .cycle] ++ List.replicate (ticks actions) .countDown) ∧
        m.perform (actions ++ [.host press, .cycle]) =
          { m.writeReg x (UInt8.ofNat k.val) with
            opcode := Opcode.awaitKey x
            pc := (m.pc + 2) % 0x1000
            run := .running
            delay := m.delay.lowered (ticks actions)
            sound := m.sound.lowered (ticks actions)
            host := press m.host } ∧
        (Session.log heed m (actions ++ [.host press, .cycle])).filter Message.isWait =
          [.awaitingKey x] := by
  have hlog : (Session.log heed m actions).filter Message.isWait = [.awaitingKey x] := by
    have hany : actions.any Action.isCycle = true := List.any_eq_true.mpr ⟨.cycle, cycles, rfl⟩
    rw [filter_log_of_waits traceless waits polls, if_pos ⟨hany, running⟩]
  refine ⟨?_, ?_, hlog, ?_⟩
  · intro before after hsplit
    have hbefore : ∀ action ∈ before, action.Polls := by
      intro action hmem
      exact polls action (hsplit ▸ List.mem_append_left _ hmem)
    rw [cycle_of_waits traceless (waits.perform traceless hbefore)]
  · rw [perform_eq_held traceless waits polls cycles, ← waits.word]
    rfl
  · intro press ⟨pressed, hdown⟩
    obtain ⟨k, hlowest⟩ := Host.exists_isLowest hdown
    have hcycle := cycle_pressed traceless waits polls cycles hlowest
    have hstate := perform_pressed traceless waits polls cycles hlowest
    have hsilent := filter_log_pressed traceless waits polls cycles hlowest
    refine ⟨k, hlowest, congrArg Turn.result hcycle, ?_, ?_, hsilent.trans hlog⟩
    · rw [hstate, perform_append, perform_replicate_countDown]
      rfl
    · have hearly := cycle_of_isLowest (m := m.act (.host press)) traceless waits.word hlowest
      rw [hstate, hearly, ← waits.word]
      rfl

/-- Three ticks and three cycles go by before two keys are pressed, and `V3` takes the lower one. -/
theorem polling_leaves_no_trace_into_V3 :
    let start : Machine Console :=
      initial ⟨"WAIT", [0xF3, 0x0A], by decide⟩ Console.fresh RandomStream.zeros
    let m : Machine Console := { start with delay := ⟨9⟩, sound := ⟨2⟩ }
    let press : Console → Console :=
      fun c => { c with keypad := (c.keypad.set 7 true).set 5 true }
    let actions : List (Action Console) :=
      [.countDown, .cycle, .countDown, .cycle, .cycle, .countDown]
    m.Waits 3 ∧ m.run = .running ∧
      (Session.log heed m (actions ++ [.host press, .cycle])).filter Message.isWait =
        [.awaitingKey 3] ∧
      m.perform (actions ++ [.host press, .cycle]) =
        { m with
          opcode := 0xF30A
          registers := m.registers.set 3 5
          pc := 0x202
          delay := ⟨6⟩
          sound := ⟨0⟩
          host := press m.host } := by
  intro start m press actions
  have hwaits : m.Waits 3 := by
    refine ⟨by decide, by decide +kernel, ?_⟩
    intro k
    exact Keypad.isDown_released k
  have hpolls : ∀ action ∈ actions, action.Polls := by simp [actions, Action.Polls]
  have hpressed : Host.isDown (press m.host) 7 = true := by decide +kernel
  have honly : ∀ k, Host.IsLowest (press m.host) k → k = 5 := by decide +kernel
  obtain ⟨-, -, -, hpress⟩ := polling_leaves_no_trace Console.traceless hwaits rfl hpolls
    (by simp [actions])
  obtain ⟨k, hlowest, -, -, hstate, hlog⟩ := hpress press ⟨7, hpressed⟩
  rw [honly k hlowest] at hstate
  exact ⟨hwaits, rfl, hlog, hstate⟩

end Machine

end ChipEight

import ChipEight.Emulation.Run
import ChipEight.Host.Console
import ChipEight.Proofs.Following
import ChipEight.Proofs.Splitting

/-!
The two cadences over a run. A frame makes up for no more than the longest lag, and so its beats can
always be counted and spread. The machine of a run follows the beats of one frame after the other,
with the answers of its host between them. The attempts and the ticks are then the time that the run
made up for in whole periods, and neither gets ahead of the other by the longer period.
-/
namespace ChipEight

/-- The beats of each of some spans: those due in it, with what the spans before it left over. -/
def agenda (cpu timer : Cadence) : List Nanos → List (List Beat)
  | [] => []
  | span :: spans =>
    schedule (cpu.due span) (timer.due span) :: agenda (cpu.rest span) (timer.rest span) spans

theorem flatten_agenda (cpu timer : Cadence) (spans : List Nanos) :
    (agenda cpu timer spans).flatten = schedules cpu timer spans := by
  induction spans generalizing cpu timer with
  | nil => rfl
  | cons span spans ih =>
    unfold agenda schedules
    rw [List.flatten_cons, ih]

theorem take_agenda (cpu timer : Cadence) (spans : List Nanos) (n : Nat) :
    (agenda cpu timer spans).take n = agenda cpu timer (spans.take n) := by
  induction spans generalizing cpu timer n with
  | nil => rw [agenda, List.take_nil, List.take_nil, agenda]
  | cons span spans ih =>
    cases n with
    | zero => rfl
    | succ n =>
      unfold agenda
      rw [List.take_succ_cons, List.take_succ_cons, ih]

/-- Whole periods of two lengths in the same time are closer than the longer one. -/
theorem whole_periods_lt (elapsed : Nat) {p : Nat} (q : Nat) (pos : 0 < p) :
    elapsed / q * q < elapsed / p * p + max p q := by
  have hp : p * (elapsed / p) + elapsed % p = elapsed := Nat.div_add_mod elapsed p
  have hq : elapsed / q * q ≤ elapsed := Nat.div_mul_le_self elapsed q
  have hrest : elapsed % p < p := Nat.mod_lt elapsed pos
  rw [Nat.mul_comm] at hp
  omega

/-- A machine and its host over some frames: the machine follows the beats of a frame, and the host
answers to the strongest of their signals. -/
def Machine.hosted {S H : Type} [Host H] (respond : S → Machine H → Signal → Reply S H)
    (policy : Policy) (m : Machine H) : List (List Beat) → S → Machine H × S
  | [], s => (m, s)
  | beats :: frames, s =>
    let reply := respond s (m.follow policy beats) (m.strongestOver policy beats)
    reply.machine.hosted respond policy frames reply.state

namespace Emulation

variable {H : Type}

theorem longestLag_eq (e : Emulation H) :
    e.longestLag = 4 * max e.cpu.period e.timer.period := Nat.mul_comm _ _

theorem longestLag_le (e : Emulation H) : e.longestLag ≤ 4000000000 :=
  Nat.mul_le_mul_right 4 (Nat.max_le.mpr ⟨e.cpu.period_le, e.timer.period_le⟩)

/-- The slower cadence is due four times at most. -/
theorem due_mul_due_le (e : Emulation H) {elapsed : Nanos} (h : elapsed ≤ e.longestLag) :
    e.cpu.due elapsed * e.timer.due elapsed ≤ 16000000000 := by
  have hlag : elapsed ≤ 4000000000 := Nat.le_trans h e.longestLag_le
  have hcpu : e.cpu.due elapsed ≤ 4000000000 := Nat.le_trans (e.cpu.due_le elapsed) hlag
  have htimer : e.timer.due elapsed ≤ 4000000000 := Nat.le_trans (e.timer.due_le elapsed) hlag
  rw [longestLag_eq] at h
  rcases Nat.le_total e.cpu.period e.timer.period with hslow | hslow
  · exact Nat.mul_le_mul hcpu (e.timer.due_le_four (Nat.max_le.mpr ⟨hslow, Nat.le_refl _⟩) h)
  · exact Nat.mul_le_mul (e.cpu.due_le_four (Nat.max_le.mpr ⟨Nat.le_refl _, hslow⟩) h) htimer

theorem fits_of_le_longestLag (e : Emulation H) {elapsed : Nanos} (h : elapsed ≤ e.longestLag) :
    e.Fits elapsed := by
  have hlag : elapsed ≤ 4000000000 := Nat.le_trans h e.longestLag_le
  have hclock : ∀ c : Cadence, c.leftover + elapsed ≤ Nanos.longest := by
    intro c
    have hrest : c.leftover ≤ 1000000000 :=
      Nat.le_trans (Nat.le_of_lt c.leftover_lt) c.period_le
    exact Nat.le_trans (Nat.add_le_add hrest hlag) (by decide)
  have hcount : ∀ c : Cadence, c.due elapsed < countLimit := fun c =>
    Nat.lt_of_le_of_lt (Nat.le_trans (c.due_le elapsed) hlag) (by decide)
  exact ⟨hclock e.cpu, hclock e.timer, hcount e.cpu, hcount e.timer,
    Nat.lt_of_le_of_lt (e.due_mul_due_le h) (by decide)⟩

theorem capLag_eq (e : Emulation H) (elapsed : Nanos) :
    (e.capLag elapsed).result = min elapsed e.longestLag ∧
      (e.capLag elapsed).messages.filterMap Message.beat? = [] := by
  unfold capLag
  split
  next h => exact ⟨(Nat.min_eq_right (Nat.le_of_lt h)).symm, rfl⟩
  next h => exact ⟨(Nat.min_eq_left (Nat.le_of_not_lt h)).symm, rfl⟩

theorem ofMachine_eq_ok {machine : Machine H} {settings : Settings} {e : Emulation H}
    (h : ofMachine machine settings = .ok e) :
    e.machine = machine ∧ e.settings = settings ∧ e.cpu.leftover = 0 ∧ e.timer.leftover = 0 := by
  unfold ofMachine at h
  cases hcpu : Cadence.ofHertz "cpu" settings.cpuRate with
  | error refusal =>
    rw [hcpu] at h
    cases h
  | ok cpu =>
    cases htimer : Cadence.ofHertz "timer" settings.timerRate with
    | error refusal =>
      rw [hcpu, htimer] at h
      cases h
    | ok timer =>
      rw [hcpu, htimer] at h
      cases h
      exact ⟨rfl, rfl, Cadence.leftover_ofHertz hcpu, Cadence.leftover_ofHertz htimer⟩

variable [Host H]

/-- A frame always comes to its end, and the machine has followed all the beats that are due. -/
theorem frame?_skip (e : Emulation H) (skip : e.settings.policy = .skip) (elapsed : Nanos) :
    let span := min elapsed e.longestLag
    let beats := schedule (e.cpu.due span) (e.timer.due span)
    ∃ turn, e.frame? elapsed = some turn ∧
      turn.result = .ok (e.machine.strongestOver .skip beats) ∧
      turn.state = e.settle span (e.machine.follow .skip beats) ∧ turn.beats = beats := by
  intro span beats
  have hcap : (e.capLag elapsed).result = span := (e.capLag_eq elapsed).1
  have hsilent : (e.capLag elapsed).messages.filterMap Message.beat? = [] :=
    (e.capLag_eq elapsed).2
  have helapse : e.elapse? span = some ((e.machine.play .skip beats).within (e.settle span)) := by
    rw [e.elapse?_eq (e.fits_of_le_longestLag (Nat.min_le_right elapsed e.longestLag)), skip]
  have hok := e.machine.result_play_skip beats
  unfold frame?
  dsimp only
  rw [hcap, helapse]
  refine ⟨_, rfl, hok, congrArg (e.settle span) (Machine.state_play_of_ok hok), ?_⟩
  unfold Turn.beats
  rw [Turn.messages_after, List.filterMap_append, hsilent]
  exact Machine.beats_play_of_ok hok

section Run

variable {S : Type} {respond : S → Machine H → Signal → Reply S H}

/-- A run that is not stopped goes on behind a frame with what the host has made of it. -/
theorem frames_cons (goesOn : ∀ s m signal, (respond s m signal).stop = false) (e : Emulation H)
    (skip : e.settings.policy = .skip) (s : S) (log : Array Message) (elapsed : Nanos)
    (times : List Nanos) :
    let span := min elapsed e.longestLag
    let beats := schedule (e.cpu.due span) (e.timer.due span)
    let reply := respond s (e.machine.follow .skip beats) (e.machine.strongestOver .skip beats)
    ∃ messages : List Message, messages.filterMap Message.beat? = beats ∧
      frames respond (elapsed :: times) false e s log =
        frames respond times false (e.settle span reply.machine) reply.state
          (log ++ messages) := by
  intro span beats reply
  obtain ⟨turn, hframe, hok, hstate, hbeats⟩ := e.frame?_skip skip elapsed
  refine ⟨turn.messages, hbeats, ?_⟩
  rw [frames, hframe]
  dsimp only
  rw [hok]
  dsimp only
  rw [hstate, goesOn]
  rfl

/-- The beats of a run that is not stopped are those due in the time that its frames make up for,
and its machine and its host have come to what these beats and the answers to them come to. -/
theorem frames_skip (goesOn : ∀ s m signal, (respond s m signal).stop = false) (times : List Nanos)
    (e : Emulation H) (skip : e.settings.policy = .skip) (s : S) (log : Array Message) :
    let turn := frames respond times false e s log
    let spans := times.map fun elapsed => min elapsed e.longestLag
    let framed := agenda e.cpu e.timer spans
    let reached := e.machine.hosted respond .skip framed s
    turn.result = .outOfTime ∧ turn.state = (e.settle (Nanos.total spans) reached.1, reached.2) ∧
      turn.beats = log.toList.filterMap Message.beat? ++ framed.flatten := by
  intro turn spans framed reached
  induction times generalizing e s log with
  | nil =>
    refine ⟨rfl, ?_, (List.append_nil _).symm⟩
    exact congrArg (·, s) e.settle_zero.symm
  | cons elapsed times ih =>
    obtain ⟨messages, hmessages, hnext⟩ := frames_cons goesOn e skip s log elapsed times
    obtain ⟨hresult, hstate, hbeats⟩ := ih (e.settle _ _) skip _ (log ++ messages)
    refine ⟨?_, ?_, ?_⟩
    · exact (congrArg Turn.result hnext).trans hresult
    · refine ((congrArg Turn.state hnext).trans hstate).trans ?_
      rw [settle_settle]
      rfl
    · refine ((congrArg Turn.beats hnext).trans hbeats).trans ?_
      rw [Array.toList_appendList, List.filterMap_append, hmessages, List.append_assoc]
      rfl

/-- Over a run that passes over its faults and is not stopped, whatever the host makes of the
frames, the machine has followed the beats of one frame after the other, and in every whole period
of the time made up for each cadence has had one of them. So neither is ever ahead of the other by
the longer period. -/
theorem beats_coupled {machine : Machine H} {settings : Settings} {e : Emulation H}
    (fresh : ofMachine machine settings = .ok e) (skip : settings.policy = .skip)
    (goesOn : ∀ s m signal, (respond s m signal).stop = false) (times : List Nanos) (s : S) :
    let turn := e.run respond times false s
    let beats := turn.beats
    let spans := times.map fun elapsed => min elapsed (4 * max e.cpu.period e.timer.period)
    let madeUp := Nanos.total spans
    let framed := agenda e.cpu e.timer spans
    let reached := machine.hosted respond .skip framed s
    turn.result = .outOfTime ∧
      turn.state = (e.settle madeUp reached.1, reached.2) ∧
      beats = framed.flatten ∧
      (∀ n, (framed.take n).flatten.count .attempt = Nanos.total (spans.take n) / e.cpu.period ∧
        (framed.take n).flatten.count .tick = Nanos.total (spans.take n) / e.timer.period) ∧
      beats.count .attempt = madeUp / e.cpu.period ∧
      beats.count .tick = madeUp / e.timer.period ∧
      beats.count .attempt * e.cpu.period <
        beats.count .tick * e.timer.period + max e.cpu.period e.timer.period ∧
      beats.count .tick * e.timer.period <
        beats.count .attempt * e.cpu.period + max e.cpu.period e.timer.period := by
  obtain ⟨rfl, hsettings, hcpu, htimer⟩ := ofMachine_eq_ok fresh
  intro turn beats spans madeUp framed reached
  have hspans : (times.map fun elapsed => min elapsed e.longestLag) = spans := by
    rw [e.longestLag_eq]
  obtain ⟨hresult, hstate, hbeats⟩ := frames_skip goesOn times e (by rw [hsettings, skip]) s
    #[.started e.machine.name e.settings.cpuRate]
  rw [hspans] at hstate hbeats
  have hattempts : ∀ spans, (agenda e.cpu e.timer spans).flatten.count .attempt =
      Nanos.total spans / e.cpu.period := by
    intro spans
    rw [flatten_agenda, count_attempt_schedules, Cadence.due_of_fresh hcpu]
  have hticks : ∀ spans, (agenda e.cpu e.timer spans).flatten.count .tick =
      Nanos.total spans / e.timer.period := by
    intro spans
    rw [flatten_agenda, count_tick_schedules, Cadence.due_of_fresh htimer]
  have hall : beats = framed.flatten := hbeats
  refine ⟨hresult, hstate, hall, ?_, ?_, ?_, ?_, ?_⟩
  · intro n
    rw [take_agenda]
    exact ⟨hattempts _, hticks _⟩
  · rw [hall, hattempts]
  · rw [hall, hticks]
  · rw [hall, hattempts, hticks, Nat.max_comm]
    exact whole_periods_lt madeUp e.cpu.period e.timer.period_pos
  · rw [hall, hattempts, hticks]
    exact whole_periods_lt madeUp e.timer.period e.cpu.period_pos

end Run

/-- Two instructions and three ticks a second, and a host that counts the frames and gives `V1` the
count. Of the third time, two seconds are made up for. -/
theorem beats_coupled_over_four_frames :
    let machine : Machine Console :=
      Machine.initial
        ⟨"COUPLED", [0x60, 0x09, 0xF0, 0x15, 0x00, 0xEE, 0x12, 0x04], by decide⟩ Console.fresh
        RandomStream.zeros
    let e : Emulation Console :=
      ⟨machine, ⟨500000000, 0, by decide, by decide⟩, ⟨333333333, 0, by decide, by decide⟩,
        ⟨2, 3, .skip⟩⟩
    let respond : Nat → Machine Console → Signal → Reply Nat Console :=
      fun frames m _ => ⟨frames + 1, m.writeReg 1 (UInt8.ofNat (frames + 1)), false⟩
    let turn := e.run respond [700000000, 0, 1000000000000, 1] false 0
    ofMachine machine ⟨2, 3, .skip⟩ = .ok e ∧ (∀ s m signal, (respond s m signal).stop = false) ∧
      turn.beats.count .attempt = 5 ∧ turn.beats.count .tick = 8 ∧
      turn.state.1.machine.pc = 0x206 ∧ turn.state.1.machine.delay = ⟨3⟩ ∧
      turn.state.1.machine.reg 0 = 9 ∧ turn.state.1.machine.reg 1 = 4 ∧ turn.state.2 = 4 := by
  intro machine e respond turn
  have hfresh : ofMachine machine ⟨2, 3, .skip⟩ = .ok e := rfl
  have hgoesOn : ∀ s m signal, (respond s m signal).stop = false := fun _ _ _ => rfl
  obtain ⟨-, hstate, -, -, hattempts, hticks, -, -⟩ :=
    beats_coupled hfresh rfl hgoesOn [700000000, 0, 1000000000000, 1] 0
  refine ⟨hfresh, hgoesOn, hattempts.trans (by decide), hticks.trans (by decide), ?_⟩
  change turn.state = _ at hstate
  rw [hstate]
  decide +kernel

end Emulation

end ChipEight

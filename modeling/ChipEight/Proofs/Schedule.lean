import ChipEight.Emulation.Elapse
import ChipEight.Proofs.Remainders

/-!
What is due after some time, laid out as a list of beats: the attempts at an instruction, each with
the ticks due behind it, and the ticks that are left. Running what is due plays that list, one beat
after the other, up to the first fault.
-/
namespace ChipEight

inductive Beat where
  | attempt
  | tick
  deriving DecidableEq, Repr

namespace Turn

variable {S : Type}

def idle (state : S) : Turn S (Except Fault Signal) := ⟨state, .ok .idle, []⟩

/-- One turn behind another that did not fail. The stronger of their signals counts. -/
def andThen (turn : Turn S (Except Fault Signal)) (next : S → Turn S (Except Fault Signal)) :
    Turn S (Except Fault Signal) :=
  match turn.result with
  | .error _ => turn
  | .ok signal =>
    let later := next turn.state
    ⟨later.state, later.result.map signal.strongest, turn.messages ++ later.messages⟩

variable {turn : Turn S (Except Fault Signal)} {next last : S → Turn S (Except Fault Signal)}

theorem andThen_of_error {fault : Fault} (h : turn.result = .error fault) :
    turn.andThen next = turn := by
  unfold andThen
  rw [h]

theorem andThen_of_ok {signal : Signal} (h : turn.result = .ok signal) :
    turn.andThen next =
      ⟨(next turn.state).state, (next turn.state).result.map signal.strongest,
        turn.messages ++ (next turn.state).messages⟩ := by
  unfold andThen
  rw [h]

theorem result_andThen_of_ok {now later : Signal} (h : turn.result = .ok now)
    (hnext : (next turn.state).result = .ok later) :
    (turn.andThen next).result = .ok (now.strongest later) := by
  rw [andThen_of_ok h, hnext]
  rfl

theorem map_strongest_idle (result : Except Fault Signal) :
    result.map Signal.idle.strongest = result := by
  cases result with
  | error fault => rfl
  | ok signal => exact congrArg Except.ok (Signal.idle_strongest signal)

@[simp] theorem idle_andThen (state : S) : (idle state).andThen next = next state := by
  have hok : (idle state).result = .ok .idle := rfl
  rw [andThen_of_ok hok, map_strongest_idle]
  rfl

@[simp] theorem andThen_idle (turn : Turn S (Except Fault Signal)) : turn.andThen idle = turn := by
  cases h : turn.result with
  | error fault => exact andThen_of_error h
  | ok signal =>
    have hresult : (idle turn.state).result.map signal.strongest = turn.result := by
      rw [h]
      exact congrArg Except.ok (Signal.strongest_idle signal)
    have hmessages : turn.messages ++ (idle turn.state).messages = turn.messages :=
      List.append_nil turn.messages
    rw [andThen_of_ok h, hresult, hmessages]
    rfl

theorem ok_of_andThen {signal : Signal} (h : (turn.andThen next).result = .ok signal) :
    ∃ now later, turn.result = .ok now ∧ (next turn.state).result = .ok later ∧
      signal = now.strongest later := by
  cases ht : turn.result with
  | error fault =>
    rw [andThen_of_error ht, ht] at h
    cases h
  | ok now =>
    rw [andThen_of_ok ht] at h
    cases hl : (next turn.state).result with
    | error fault =>
      rw [hl] at h
      cases h
    | ok later =>
      rw [hl] at h
      cases h
      exact ⟨now, later, rfl, rfl, rfl⟩

theorem andThen_assoc :
    (turn.andThen next).andThen last = turn.andThen fun state => (next state).andThen last := by
  cases h : turn.result with
  | error fault => rw [andThen_of_error h, andThen_of_error h, andThen_of_error h]
  | ok signal =>
    cases hnext : (next turn.state).result with
    | error fault =>
      have hboth : (turn.andThen next).result = .error fault := by
        rw [andThen_of_ok h, hnext]
        rfl
      rw [andThen_of_error hboth, andThen_of_ok h, andThen_of_ok h, andThen_of_error hnext]
    | ok second =>
      have hboth : (turn.andThen next).result = .ok (signal.strongest second) := by
        rw [andThen_of_ok h, hnext]
        rfl
      rw [andThen_of_ok hboth, andThen_of_ok h, andThen_of_ok h, andThen_of_ok hnext]
      cases (last (next turn.state).state).result with
      | error fault => simp [Except.map]
      | ok third => simp [Except.map, Signal.strongest_assoc]

end Turn

namespace Machine

variable {H : Type} [Host H]

def beat (policy : Policy) (m : Machine H) : Beat → Outcome H
  | .attempt => m.attempt policy
  | .tick => ⟨m.tick.state, .ok .idle, m.tick.messages⟩

/-- One beat after the other, up to the first fault. -/
def play (policy : Policy) : List Beat → Machine H → Outcome H
  | [], m => Turn.idle m
  | b :: beats, m => (m.beat policy b).andThen (play policy beats)

theorem play_tick (policy : Policy) (beats : List Beat) (m : Machine H) :
    m.play policy (.tick :: beats) = (m.tick.state.play policy beats).after m.tick.messages := by
  have hok : (m.beat policy .tick).result = .ok .idle := rfl
  change (m.beat policy .tick).andThen (play policy beats) = _
  rw [Turn.andThen_of_ok hok, Turn.map_strongest_idle]
  rfl

theorem play_append (policy : Policy) (first second : List Beat) (m : Machine H) :
    play policy (first ++ second) m = (play policy first m).andThen (play policy second) := by
  induction first generalizing m with
  | nil => exact (Turn.idle_andThen m).symm
  | cons b beats ih =>
    change (m.beat policy b).andThen (play policy (beats ++ second)) = _
    rw [funext ih]
    exact Turn.andThen_assoc.symm

end Machine

/-- The ticks due behind `k` of `cycles` attempts. -/
def spread (cycles ticks k : Nat) : Nat := k * ticks / cycles

theorem spread_mono (cycles ticks : Nat) {j k : Nat} (h : j ≤ k) :
    spread cycles ticks j ≤ spread cycles ticks k :=
  Nat.div_le_div_right (Nat.mul_le_mul_right ticks h)

theorem spread_le (cycles ticks : Nat) : spread cycles ticks cycles ≤ ticks := by
  unfold spread
  rcases Nat.eq_zero_or_pos cycles with hzero | hpos
  · rw [hzero, Nat.div_zero]
    exact Nat.zero_le ticks
  · exact Nat.le_of_eq (Nat.mul_div_cancel_left ticks hpos)

/-- The last `left` of `cycles` attempts, each with the ticks due behind it. -/
def rounds (cycles ticks : Nat) : Nat → List Beat
  | 0 => []
  | left + 1 =>
    let behind := spread cycles ticks (cycles - left) - spread cycles ticks (cycles - (left + 1))
    .attempt :: (List.replicate behind .tick ++ rounds cycles ticks left)

def schedule (cycles ticks : Nat) : List Beat :=
  rounds cycles ticks cycles ++ List.replicate (ticks - spread cycles ticks cycles) .tick

namespace Progress

variable {H : Type}

def asTurn (p : Progress H) (fault? : Option Fault) : Outcome H :=
  let result := match fault? with
    | some fault => .error fault
    | none => .ok p.strongest
  ⟨p.machine, result, p.log.toList⟩

theorem asTurn_start (m : Machine H) : (start m).asTurn none = Turn.idle m := rfl

theorem asTurn_andThen (p : Progress H) (next : Machine H → Outcome H) :
    (p.asTurn none).andThen next =
      ⟨(next p.machine).state, (next p.machine).result.map p.strongest.strongest,
        p.log.toList ++ (next p.machine).messages⟩ :=
  Turn.andThen_of_ok rfl

theorem ticked_tickTimes (n : Nat) (p : Progress H) : (p.tickTimes n).ticked = p.ticked + n := by
  induction n generalizing p with
  | zero => rfl
  | succ n ih =>
    unfold tickTimes
    rw [ih]
    dsimp only
    omega

theorem ticked_tickUntil {p : Progress H} {due : Nat} (h : p.ticked ≤ due) :
    (p.tickUntil due).ticked = due := by
  unfold tickUntil
  rw [ticked_tickTimes, Nat.add_sub_of_le h]

variable [Host H]

theorem asTurn_tickTimes (policy : Policy) (n : Nat) (p : Progress H) :
    (p.tickTimes n).asTurn none =
      (p.asTurn none).andThen (Machine.play policy (List.replicate n .tick)) := by
  induction n generalizing p with
  | zero => exact (Turn.andThen_idle _).symm
  | succ n ih =>
    have hplay : Machine.play (H := H) policy (List.replicate (n + 1) .tick) =
        fun m => (m.beat policy .tick).andThen
          (Machine.play policy (List.replicate n .tick)) := rfl
    unfold tickTimes
    dsimp only
    rw [ih, hplay, ← Turn.andThen_assoc]
    congr 1
    rw [asTurn_andThen]
    simp [asTurn, Machine.beat, Except.map]

theorem asTurn_of_error {policy : Policy} {p : Progress H} {fault : Fault}
    (h : (p.machine.attempt policy).result = .error fault) (beats : List Beat) :
    asTurn
        { p with
          machine := (p.machine.attempt policy).state
          log := p.log ++ (p.machine.attempt policy).messages }
        (some fault) =
      (p.asTurn none).andThen (Machine.play policy (.attempt :: beats)) := by
  have hplay : p.machine.play policy (.attempt :: beats) = p.machine.attempt policy :=
    Turn.andThen_of_error h
  rw [asTurn_andThen, hplay, h]
  simp [asTurn, Except.map]

def attempted (policy : Policy) (signal : Signal) (p : Progress H) : Progress H :=
  { p with
    machine := (p.machine.attempt policy).state
    log := p.log ++ (p.machine.attempt policy).messages
    strongest := p.strongest.strongest signal }

/-- An attempt that succeeds is followed by the ticks due behind it. -/
theorem asTurn_of_ok {policy : Policy} {p : Progress H} {signal : Signal}
    (h : (p.machine.attempt policy).result = .ok signal) (due : Nat) :
    ((p.attempted policy signal).tickUntil due).asTurn none =
      (p.asTurn none).andThen
        (Machine.play policy (.attempt :: List.replicate (due - p.ticked) .tick)) := by
  have hplay : Machine.play (H := H) policy (.attempt :: List.replicate (due - p.ticked) .tick) =
      fun m => (m.beat policy .attempt).andThen
        (Machine.play policy (List.replicate (due - p.ticked) .tick)) := rfl
  have hbeat : p.machine.beat policy .attempt = p.machine.attempt policy := rfl
  unfold tickUntil
  rw [asTurn_tickTimes policy, hplay, ← Turn.andThen_assoc]
  congr 1
  rw [asTurn_andThen, hbeat, h]
  simp [asTurn, attempted, Except.map]

/-- Rounds that give a result have played their beats, up to the first fault. -/
theorem asTurn_of_rounds? {policy : Policy} {cycles ticks left : Nat} (hleft : left ≤ cycles)
    {p q : Progress H} {fault? : Option Fault}
    (ticked : p.ticked = spread cycles ticks (cycles - left))
    (h : rounds? policy cycles ticks left p = some (q, fault?)) :
    q.asTurn fault? = (p.asTurn none).andThen (Machine.play policy (rounds cycles ticks left)) ∧
      (fault? = none → q.ticked = spread cycles ticks cycles) := by
  -- The ticks applied so far are what is due behind the attempts made so far.
  induction left generalizing p with
  | zero =>
    cases h
    exact ⟨(Turn.andThen_idle _).symm, fun _ => ticked⟩
  | succ left ih =>
    unfold rounds? at h
    unfold rounds
    dsimp only at h ⊢
    cases hresult : (p.machine.attempt policy).result with
    | error fault =>
      rw [hresult] at h
      cases h
      refine ⟨asTurn_of_error hresult _, ?_⟩
      intro hnone
      cases hnone
    | ok signal =>
      rw [hresult] at h
      dsimp only at h
      unfold dueBehind? at h
      by_cases hproduct : (cycles - left) * ticks < countLimit
      · rw [if_pos hproduct] at h
        have hmono : p.ticked ≤ spread cycles ticks (cycles - left) := by
          rw [ticked]
          exact spread_mono cycles ticks (by omega)
        have hbehind : ((p.attempted policy signal).tickUntil
            (spread cycles ticks (cycles - left))).ticked = spread cycles ticks (cycles - left) :=
          ticked_tickUntil hmono
        obtain ⟨hturn, hticked⟩ := ih (Nat.le_of_succ_le hleft) hbehind h
        refine ⟨?_, hticked⟩
        rw [hturn, asTurn_of_ok hresult, Turn.andThen_assoc, ticked]
        congr 1
        funext m
        exact (Machine.play_append policy _ _ m).symm
      · rw [if_neg hproduct] at h
        cases h

theorem exists_rounds? (policy : Policy) {cycles ticks left : Nat}
    (product : cycles * ticks < countLimit) (p : Progress H) :
    ∃ q fault?, rounds? policy cycles ticks left p = some (q, fault?) := by
  induction left generalizing p with
  | zero => exact ⟨p, none, rfl⟩
  | succ left ih =>
    unfold rounds?
    dsimp only
    cases (p.machine.attempt policy).result with
    | error fault => exact ⟨_, some fault, rfl⟩
    | ok signal =>
      have hproduct : (cycles - left) * ticks < countLimit :=
        Nat.lt_of_le_of_lt (Nat.mul_le_mul_right ticks (Nat.sub_le cycles left)) product
      rw [dueBehind?_of_lt hproduct]
      exact ih _

theorem asTurn_of_complete? {policy : Policy} {cycles ticks : Nat} {m : Machine H}
    {q : Progress H} {fault? : Option Fault}
    (h : complete? policy cycles ticks m = some (q, fault?)) :
    q.asTurn fault? = m.play policy (schedule cycles ticks) := by
  have hstart : (start m).ticked = spread cycles ticks (cycles - cycles) := by
    unfold spread
    rw [Nat.sub_self, Nat.zero_mul, Nat.zero_div]
    rfl
  unfold complete? at h
  obtain ⟨⟨last, stop⟩, hrounds, hlast⟩ := Option.map_eq_some_iff.mp h
  obtain ⟨hturn, hticked⟩ := asTurn_of_rounds? (Nat.le_refl cycles) hstart hrounds
  rw [asTurn_start, Turn.idle_andThen] at hturn
  unfold schedule
  rw [Machine.play_append, ← hturn]
  cases stop with
  | some fault =>
    cases hlast
    exact (Turn.andThen_of_error rfl).symm
  | none =>
    cases hlast
    unfold tickUntil
    rw [asTurn_tickTimes policy, hticked rfl]

theorem complete?_eq (policy : Policy) {cycles ticks : Nat}
    (product : cycles * ticks < countLimit) (m : Machine H) :
    ∃ q fault?, complete? policy cycles ticks m = some (q, fault?) ∧
      q.asTurn fault? = m.play policy (schedule cycles ticks) := by
  obtain ⟨p, stop, hrounds⟩ : ∃ p stop, rounds? policy cycles ticks cycles (start m) =
      some (p, stop) := exists_rounds? policy product (start m)
  have hcomplete : ∃ q fault?, complete? policy cycles ticks m = some (q, fault?) := by
    unfold complete?
    rw [hrounds]
    cases stop with
    | some fault => exact ⟨p, some fault, rfl⟩
    | none => exact ⟨p.tickUntil ticks, none, rfl⟩
  obtain ⟨q, fault?, hcomplete⟩ := hcomplete
  exact ⟨q, fault?, hcomplete, asTurn_of_complete? hcomplete⟩

end Progress

namespace Emulation

variable {H : Type}

/-- A time that the clocks can count, with few enough beats to be spread. -/
structure Fits (e : Emulation H) (elapsed : Nanos) : Prop where
  cpuClock : e.cpu.leftover + elapsed ≤ Nanos.longest
  timerClock : e.timer.leftover + elapsed ≤ Nanos.longest
  cycles : e.cpu.due elapsed < countLimit
  ticks : e.timer.due elapsed < countLimit
  product : e.cpu.due elapsed * e.timer.due elapsed < countLimit

/-- The emulation after `elapsed`, which has led to `m`. -/
def settle (e : Emulation H) (elapsed : Nanos) (m : Machine H) : Emulation H :=
  { e with machine := m, cpu := e.cpu.rest elapsed, timer := e.timer.rest elapsed }

/-- The emulation with other cadences, which has led to `m`. -/
def moved (e : Emulation H) (cpu timer : Cadence) (m : Machine H) : Emulation H :=
  { e with machine := m, cpu := cpu, timer := timer }

variable [Host H]

/-- A call that gives a result has played the schedule of the due beats. -/
theorem eq_play_of_elapse? {e : Emulation H} {elapsed : Nanos}
    {turn : Turn (Emulation H) (Except Fault Signal)} (h : e.elapse? elapsed = some turn) :
    ∃ cycles cpu ticks timer, e.cpu.elapse? elapsed = some (cycles, cpu) ∧
      e.timer.elapse? elapsed = some (ticks, timer) ∧
      turn = (e.machine.play e.settings.policy (schedule cycles ticks)).within
        (e.moved cpu timer) := by
  unfold elapse? at h
  obtain ⟨⟨cycles, cpu⟩, hcpu, h⟩ := Option.bind_eq_some_iff.mp h
  obtain ⟨⟨ticks, timer⟩, htimer, h⟩ := Option.bind_eq_some_iff.mp h
  obtain ⟨⟨q, fault?⟩, hcomplete, h⟩ := Option.bind_eq_some_iff.mp h
  refine ⟨cycles, cpu, ticks, timer, hcpu, htimer, ?_⟩
  rw [← Progress.asTurn_of_complete? hcomplete]
  exact (Option.some.inj h).symm

theorem elapse?_of_product {e : Emulation H} {elapsed : Nanos} {cycles ticks : Nat}
    {cpu timer : Cadence} (hcpu : e.cpu.elapse? elapsed = some (cycles, cpu))
    (htimer : e.timer.elapse? elapsed = some (ticks, timer))
    (product : cycles * ticks < countLimit) :
    e.elapse? elapsed =
      some ((e.machine.play e.settings.policy (schedule cycles ticks)).within
        (e.moved cpu timer)) := by
  obtain ⟨q, fault?, hcomplete, hturn⟩ :=
    Progress.complete?_eq e.settings.policy product e.machine
  unfold elapse?
  rw [hcpu, htimer]
  dsimp only [Option.bind_eq_bind, Option.bind_some]
  rw [hcomplete, ← hturn]
  rfl

theorem elapse?_eq (e : Emulation H) {elapsed : Nanos} (fits : e.Fits elapsed) :
    e.elapse? elapsed =
      some ((e.machine.play e.settings.policy
        (schedule (e.cpu.due elapsed) (e.timer.due elapsed))).within (e.settle elapsed)) :=
  elapse?_of_product (e.cpu.elapse?_eq fits.cpuClock fits.cycles)
    (e.timer.elapse?_eq fits.timerClock fits.ticks) fits.product

end Emulation

theorem count_attempt_rounds (cycles ticks left : Nat) :
    (rounds cycles ticks left).count .attempt = left := by
  induction left with
  | zero => rfl
  | succ left ih =>
    unfold rounds
    rw [List.count_cons_self, List.count_append, ih, List.count_replicate]
    simp

theorem count_tick_rounds {cycles ticks left : Nat} (h : left ≤ cycles) :
    (rounds cycles ticks left).count .tick + spread cycles ticks (cycles - left) =
      spread cycles ticks cycles := by
  induction left with
  | zero => exact Nat.zero_add _
  | succ left ih =>
    have hmono : spread cycles ticks (cycles - (left + 1)) ≤ spread cycles ticks (cycles - left) :=
      spread_mono cycles ticks (by omega)
    have hrest := ih (Nat.le_of_succ_le h)
    have hne : Beat.attempt ≠ Beat.tick := by decide
    unfold rounds
    rw [List.count_cons_of_ne hne, List.count_append, List.count_replicate_self]
    omega

theorem count_attempt_schedule (cycles ticks : Nat) :
    (schedule cycles ticks).count .attempt = cycles := by
  unfold schedule
  rw [List.count_append, count_attempt_rounds, List.count_replicate]
  rfl

theorem count_tick_schedule (cycles ticks : Nat) :
    (schedule cycles ticks).count .tick = ticks := by
  have hrounds : (schedule cycles ticks).count .tick =
      spread cycles ticks cycles + (ticks - spread cycles ticks cycles) := by
    have hall : (rounds cycles ticks cycles).count .tick + spread cycles ticks (cycles - cycles) =
        spread cycles ticks cycles := count_tick_rounds (Nat.le_refl cycles)
    have hnone : spread cycles ticks (cycles - cycles) = 0 := by simp [spread]
    unfold schedule
    rw [List.count_append, List.count_replicate_self]
    omega
  rw [hrounds]
  exact Nat.add_sub_of_le (spread_le cycles ticks)

end ChipEight

import ChipEight.Proofs.Following

/-!
How the due work is paced. Each instruction is followed by the ticks that bring their number up to
its share: behind `k` of `cycles` instructions, `k * ticks / cycles` of the `ticks` ticks have been
applied. A fault ends the work on the spot, and the time for what was left of it is gone.
-/
namespace ChipEight

/-- Rounds of work, each of them an attempt and the ticks due behind it. -/
structure Paces (cycles ticks : Nat) (lead : Nat → List Beat) : Prop where
  /-- The ticks of a round are the even share, rounded down or up. -/
  round : ∀ k < cycles, ∃ behind, lead (k + 1) = lead k ++ .attempt :: List.replicate behind .tick ∧
    (behind = ticks / cycles ∨ behind = (ticks + cycles - 1) / cycles)
  attempts : ∀ k ≤ cycles, (lead k).count .attempt = k
  ticks : ∀ k ≤ cycles, (lead k).count .tick = k * ticks / cycles

/-- The first `k` rounds. -/
def lead (cycles ticks : Nat) : Nat → List Beat
  | 0 => []
  | k + 1 =>
    let behind := spread cycles ticks (k + 1) - spread cycles ticks k
    lead cycles ticks k ++ .attempt :: List.replicate behind .tick

theorem spread_succ_sub {cycles ticks : Nat} (k : Nat) (pos : 0 < cycles) :
    spread cycles ticks (k + 1) - spread cycles ticks k = ticks / cycles ∨
      spread cycles ticks (k + 1) - spread cycles ticks k = (ticks + cycles - 1) / cycles := by
  have hfloor : (k + 1) * ticks / cycles = k * ticks / cycles + ticks / cycles +
      if cycles ≤ k * ticks % cycles + ticks % cycles then 1 else 0 := by
    rw [Nat.succ_mul, Nat.add_div pos]
  have hceil : (ticks + cycles - 1) / cycles = ticks / cycles +
      if cycles ≤ ticks % cycles + (cycles - 1) then 1 else 0 := by
    have hless : cycles - 1 < cycles := Nat.sub_lt pos (by decide)
    rw [Nat.add_sub_assoc pos, Nat.add_div pos, Nat.div_eq_of_lt hless, Nat.mod_eq_of_lt hless,
      Nat.add_zero]
  unfold spread
  rw [hfloor, hceil]
  by_cases hcarry : cycles ≤ k * ticks % cycles + ticks % cycles
  · have hrest : k * ticks % cycles < cycles := Nat.mod_lt _ pos
    have hup : cycles ≤ ticks % cycles + (cycles - 1) := by omega
    rw [if_pos hcarry, if_pos hup, Nat.add_assoc, Nat.add_sub_cancel_left]
    exact .inr rfl
  · rw [if_neg hcarry, Nat.add_zero, Nat.add_sub_cancel_left]
    exact .inl rfl

theorem count_attempt_lead (cycles ticks k : Nat) :
    (lead cycles ticks k).count .attempt = k := by
  induction k with
  | zero => rfl
  | succ k ih =>
    unfold lead
    dsimp only
    rw [List.count_append, ih, List.count_cons_self, List.count_replicate]
    rfl

theorem count_tick_lead (cycles ticks k : Nat) :
    (lead cycles ticks k).count .tick = spread cycles ticks k := by
  induction k with
  | zero => simp [lead, spread]
  | succ k ih =>
    have hne : Beat.attempt ≠ Beat.tick := by decide
    have hmono : spread cycles ticks k ≤ spread cycles ticks (k + 1) :=
      spread_mono cycles ticks (Nat.le_succ k)
    unfold lead
    dsimp only
    rw [List.count_append, ih, List.count_cons_of_ne hne, List.count_replicate_self]
    omega

theorem paces_lead (cycles ticks : Nat) : Paces cycles ticks (lead cycles ticks) where
  round k hk := ⟨_, rfl, spread_succ_sub k (Nat.zero_lt_of_lt hk)⟩
  attempts k _ := count_attempt_lead cycles ticks k
  ticks k _ := count_tick_lead cycles ticks k

/-- The first rounds and those that are left. -/
theorem lead_append_rounds {cycles : Nat} (ticks : Nat) {k : Nat} (h : k ≤ cycles) :
    lead cycles ticks k ++ rounds cycles ticks (cycles - k) = rounds cycles ticks cycles := by
  induction k with
  | zero => rfl
  | succ k ih =>
    have hleft : cycles - k = cycles - (k + 1) + 1 := by omega
    have hnext : cycles - (cycles - (k + 1)) = k + 1 := by omega
    have hdone : cycles - (cycles - (k + 1) + 1) = k := by omega
    rw [← ih (Nat.le_of_succ_le h), hleft, lead, rounds, hnext, hdone, List.append_assoc,
      List.cons_append]

theorem schedule_eq (cycles ticks : Nat) :
    schedule cycles ticks = lead cycles ticks cycles ++
      List.replicate (ticks - spread cycles ticks cycles) .tick := by
  have hrounds := lead_append_rounds ticks (Nat.le_refl cycles)
  have hnone : rounds cycles ticks 0 = [] := rfl
  rw [Nat.sub_self, hnone, List.append_nil] at hrounds
  unfold schedule
  rw [hrounds]

/-- With an instruction in it, the work ends with the last round. -/
theorem schedule_eq_lead {cycles : Nat} (ticks : Nat) (pos : 0 < cycles) :
    schedule cycles ticks = lead cycles ticks cycles := by
  have hall : spread cycles ticks cycles = ticks := Nat.mul_div_cancel_left ticks pos
  rw [schedule_eq, hall, Nat.sub_self]
  exact List.append_nil _

theorem schedule_eq_append {cycles : Nat} (ticks : Nat) {k : Nat} (h : k < cycles) :
    ∃ later, schedule cycles ticks = lead cycles ticks k ++ .attempt :: later := by
  have hleft : cycles - k = cycles - (k + 1) + 1 := by omega
  unfold schedule
  rw [← lead_append_rounds ticks (Nat.le_of_lt h), hleft]
  unfold rounds
  dsimp only
  rw [List.append_assoc, List.cons_append]
  exact ⟨_, rfl⟩

namespace Machine

variable {H : Type} [Host H]

theorem ok_play_ticks (policy : Policy) (n : Nat) (m : Machine H) :
    (m.play policy (List.replicate n .tick)).result = .ok .idle := by
  induction n generalizing m with
  | zero => rfl
  | succ n ih =>
    rw [List.replicate_succ, play_tick]
    exact ih _

/-- What the attempt behind some beats comes to. -/
def resultBehind (policy : Policy) (m : Machine H) (beats : List Beat) : Except Fault Signal :=
  ((m.follow policy beats).attempt policy).result

variable {policy : Policy} {cycles ticks : Nat} {m : Machine H}

theorem ok_play_lead {k : Nat}
    (fine : ∀ j < k, ∃ signal, m.resultBehind policy (lead cycles ticks j) = .ok signal) :
    ∃ signal, (m.play policy (lead cycles ticks k)).result = .ok signal := by
  induction k with
  | zero => exact ⟨.idle, rfl⟩
  | succ k ih =>
    obtain ⟨before, hbefore⟩ := ih fun j hj => fine j (Nat.lt_succ_of_lt hj)
    obtain ⟨now, hnow⟩ := fine k (Nat.lt_succ_self k)
    unfold resultBehind at hnow
    rw [← state_play_of_ok hbefore] at hnow
    unfold lead
    dsimp only
    rw [play_append]
    exact ⟨_, Turn.result_andThen_of_ok hbefore
      (Turn.result_andThen_of_ok hnow (ok_play_ticks policy _ _))⟩

theorem ok_play_schedule
    (fine : ∀ k < cycles, ∃ signal, m.resultBehind policy (lead cycles ticks k) = .ok signal) :
    ∃ signal, (m.play policy (schedule cycles ticks)).result = .ok signal := by
  obtain ⟨signal, hrounds⟩ := ok_play_lead fine
  rw [schedule_eq, play_append]
  exact ⟨_, Turn.result_andThen_of_ok hrounds (ok_play_ticks policy _ _)⟩

theorem play_of_fault {k : Nat} {fault : Fault}
    (fine : ∀ j < k, ∃ signal, m.resultBehind policy (lead cycles ticks j) = .ok signal)
    (h : m.resultBehind policy (lead cycles ticks k) = .error fault) (later : List Beat) :
    (m.play policy (lead cycles ticks k ++ .attempt :: later)).result = .error fault ∧
      (m.play policy (lead cycles ticks k ++ .attempt :: later)).beats =
        lead cycles ticks k ++ [.attempt] := by
  obtain ⟨before, hbefore⟩ := ok_play_lead fine
  have hbeats := beats_play_of_ok hbefore
  unfold resultBehind at h
  rw [← state_play_of_ok hbefore] at h
  have hfault : (m.play policy (lead cycles ticks k)).state.play policy (.attempt :: later) =
      (m.play policy (lead cycles ticks k)).state.attempt policy := Turn.andThen_of_error h
  rw [play_append]
  refine ⟨?_, ?_⟩
  · rw [Turn.andThen_of_ok hbefore, hfault, h]
    rfl
  · rw [Turn.beats_andThen_of_ok hbefore, hfault, hbeats, beats_attempt]

end Machine

namespace Emulation

variable {H : Type} [Host H]

/-- If the clocks can count the time and the product of the two counts has 64 bits, a call paces
the work that is due. Without a fault all of it is done. The first fault ends the call, with what
was done before it and no more. Either way the leftovers of the cadences are those behind all that
was due. -/
theorem elapse?_paced (e : Emulation H) {elapsed : Nanos}
    (cpuClock : e.cpu.leftover + elapsed ≤ Nanos.longest)
    (timerClock : e.timer.leftover + elapsed ≤ Nanos.longest) :
    ∃ cycles cpu ticks timer, e.cpu.elapse? elapsed = some (cycles, cpu) ∧
      e.timer.elapse? elapsed = some (ticks, timer) ∧
      (cycles * ticks < countLimit → ∃ turn, e.elapse? elapsed = some turn ∧
        turn.state = { e with
          machine := e.machine.follow e.settings.policy turn.beats
          cpu := cpu
          timer := timer } ∧
        Paces cycles ticks (lead cycles ticks) ∧
        ((∀ k < cycles, ∃ signal,
            e.machine.resultBehind e.settings.policy (lead cycles ticks k) = .ok signal) →
          (∃ signal, turn.result = .ok signal) ∧ turn.beats.count .attempt = cycles ∧
            turn.beats.count .tick = ticks ∧ (0 < cycles → turn.beats = lead cycles ticks cycles)) ∧
        ∀ k < cycles, ∀ fault,
          (∀ j < k, ∃ signal,
            e.machine.resultBehind e.settings.policy (lead cycles ticks j) = .ok signal) →
          e.machine.resultBehind e.settings.policy (lead cycles ticks k) = .error fault →
            turn.result = .error fault ∧ turn.beats = lead cycles ticks k ++ [.attempt]) := by
  have hcpu := e.cpu.elapse?_of_clock cpuClock
  have htimer := e.timer.elapse?_of_clock timerClock
  refine ⟨_, _, _, _, hcpu, htimer, ?_⟩
  intro product
  generalize low64 (e.cpu.due elapsed) = cycles at hcpu product ⊢
  generalize low64 (e.timer.due elapsed) = ticks at htimer product ⊢
  refine ⟨_, elapse?_of_product hcpu htimer product, ?_, paces_lead cycles ticks, ?_, ?_⟩
  · exact congrArg (e.settle elapsed) (e.machine.state_play e.settings.policy _)
  · intro fine
    obtain ⟨signal, hok⟩ := Machine.ok_play_schedule fine
    have hbeats := Machine.beats_play_of_ok hok
    refine ⟨⟨signal, hok⟩, ?_, ?_, ?_⟩
    · exact (congrArg (List.count .attempt) hbeats).trans (count_attempt_schedule cycles ticks)
    · exact (congrArg (List.count .tick) hbeats).trans (count_tick_schedule cycles ticks)
    · intro pos
      exact hbeats.trans (schedule_eq_lead ticks pos)
  · intro k hk fault fine h
    obtain ⟨later, hlater⟩ := schedule_eq_append ticks hk
    rw [hlater]
    exact Machine.play_of_fault fine h later

/-- Five instructions and eight ticks are due, and the third instruction fails. -/
theorem elapse?_paced_up_to_third :
    let e : Emulation Console :=
      ⟨Machine.initial ⟨"PACED", [0x00, 0xE0, 0x60, 0x01, 0x00, 0xEE], by decide⟩ Console.fresh
          RandomStream.zeros,
        ⟨2000000, 0, by decide, by decide⟩, ⟨1250000, 1000000, by decide, by decide⟩,
        ⟨500, 800, .halt⟩⟩
    e.cpu.leftover + 10000000 ≤ Nanos.longest ∧ e.timer.leftover + 10000000 ≤ Nanos.longest ∧
      ∃ turn, e.elapse? 10000000 = some turn ∧ turn.result = .error (.stack .empty 0x204) ∧
        turn.beats = [.attempt, .tick, .attempt, .tick, .tick, .attempt] ∧
        turn.state.timer.leftover = 1000000 := by
  intro e
  have hcpuClock : e.cpu.leftover + 10000000 ≤ Nanos.longest := by decide
  have htimerClock : e.timer.leftover + 10000000 ≤ Nanos.longest := by decide
  have hcycles : e.cpu.elapse? 10000000 = some (5, e.cpu) := by decide
  have hticks : e.timer.elapse? 10000000 = some (8, e.timer) := by decide
  have hfirst : ∀ j < 2, ∃ signal, e.machine.resultBehind .halt (lead 5 8 j) = .ok signal := by
    intro j hj
    match j, hj with
    | 0, _ => exact ⟨.draw, ok_of_toOption (by decide +kernel)⟩
    | 1, _ => exact ⟨.idle, ok_of_toOption (by decide +kernel)⟩
  have hword : (e.machine.follow .halt (lead 5 8 2)).word = 0x00EE := by decide +kernel
  have hstack : (e.machine.follow .halt (lead 5 8 2)).stack = [] := by decide +kernel
  have hpc : (e.machine.follow .halt (lead 5 8 2)).pc = 0x204 := by decide +kernel
  have hthird : e.machine.resultBehind .halt (lead 5 8 2) = .error (.stack .empty 0x204) := by
    unfold Machine.resultBehind
    rw [Machine.attempt_halt_of_error (Machine.error_of_refuses (.empty hword hstack)), hpc]
  obtain ⟨cycles, cpu, ticks, timer, hcpu, htimer, h⟩ := e.elapse?_paced hcpuClock htimerClock
  rw [hcycles] at hcpu
  rw [hticks] at htimer
  cases hcpu
  cases htimer
  obtain ⟨turn, hturn, hstate, -, -, hfault⟩ := h (by decide)
  obtain ⟨hresult, hbeats⟩ := hfault 2 (by decide) _ hfirst hthird
  exact ⟨hcpuClock, htimerClock, turn, hturn, hresult, hbeats.trans (by decide),
    congrArg (fun e => e.timer.leftover) hstate⟩

end Emulation

end ChipEight

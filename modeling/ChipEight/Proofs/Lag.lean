import ChipEight.Proofs.Coupling

/-!
What the cap on lag is for. A call forms the products of its instructions with its ticks, and a
machine that was left alone for long enough would need more than 64 bits for them. Four of the
longer periods are so little time that nothing a call computes comes near a limit, whatever the two
periods are, whatever is left of them and however long the machine was left alone.
-/
namespace ChipEight

namespace Progress

variable {H : Type} [Host H] {cycles ticks : Nat}

/-- If no fault ends the rounds before the last one, its product is formed. -/
theorem rounds?_skip_eq_none {left : Nat} (hleft : left < cycles)
    (wide : countLimit ≤ cycles * ticks) (p : Progress H) :
    rounds? .skip cycles ticks (left + 1) p = none := by
  -- By the rounds left: the product of the last one is too wide, and before it one may be already.
  induction left generalizing p with
  | zero =>
    obtain ⟨signal, hok⟩ := p.machine.result_attempt_skip
    have hlast : dueBehind? (cycles - 0) ticks cycles = none := if_neg (Nat.not_lt.mpr wide)
    unfold rounds?
    dsimp only
    rw [hok]
    dsimp only
    rw [hlast]
  | succ left ih =>
    obtain ⟨signal, hok⟩ := p.machine.result_attempt_skip
    unfold rounds?
    dsimp only
    rw [hok]
    dsimp only
    cases dueBehind? (cycles - (left + 1)) ticks cycles with
    | none => rfl
    | some due => exact ih (Nat.lt_of_succ_lt hleft) _

theorem complete?_skip_eq_none (wide : countLimit ≤ cycles * ticks) (m : Machine H) :
    complete? .skip cycles ticks m = none := by
  cases cycles with
  | zero =>
    rw [Nat.zero_mul] at wide
    exact absurd wide (by decide)
  | succ left =>
    have hrounds := rounds?_skip_eq_none (Nat.lt_succ_self left) wide (start m)
    unfold complete?
    rw [hrounds]
    rfl

end Progress

namespace Emulation

variable {H : Type}

theorem dueBehind?_of_le_longestLag (e : Emulation H) {elapsed : Nanos}
    (h : elapsed ≤ e.longestLag) {cycle : Nat} (hcycle : cycle ≤ e.cpu.due elapsed) :
    cycle * e.timer.due elapsed ≤ 16000000000 ∧
      Progress.dueBehind? cycle (e.timer.due elapsed) (e.cpu.due elapsed) =
        some (cycle * e.timer.due elapsed / e.cpu.due elapsed) := by
  have hproduct : cycle * e.timer.due elapsed ≤ 16000000000 :=
    Nat.le_trans (Nat.mul_le_mul_right _ hcycle) (e.due_mul_due_le h)
  exact ⟨hproduct, Progress.dueBehind?_of_lt (Nat.lt_of_le_of_lt hproduct (by decide))⟩

variable [Host H]

/-- A call that passes over its faults comes to nothing only through a product of more than 64
bits. -/
theorem elapse?_skip_eq_none_iff {e : Emulation H} (skip : e.settings.policy = .skip)
    {elapsed : Nanos} {cycles ticks : Nat} {cpu timer : Cadence}
    (hcpu : e.cpu.elapse? elapsed = some (cycles, cpu))
    (htimer : e.timer.elapse? elapsed = some (ticks, timer)) :
    e.elapse? elapsed = none ↔ countLimit ≤ cycles * ticks := by
  refine ⟨?_, ?_⟩
  · intro hnone
    apply Nat.le_of_not_lt
    intro product
    rw [elapse?_of_product hcpu htimer product] at hnone
    cases hnone
  · intro wide
    unfold elapse?
    rw [hcpu, htimer]
    dsimp only [Option.bind_eq_bind, Option.bind_some]
    rw [skip, Progress.complete?_skip_eq_none wide]
    rfl

/-- Ten seconds at the fastest rates: each count is whole, and the last product is not. -/
theorem exists_elapse?_eq_none (machine : Machine H) :
    ∃ e elapsed cycles cpu ticks timer,
      ofMachine machine ⟨1000000000, 1000000000, .skip⟩ = .ok e ∧ elapsed ≤ Nanos.longest ∧
      e.cpu.elapse? elapsed = some (cycles, cpu) ∧ cycles = elapsed / e.cpu.period ∧
      e.timer.elapse? elapsed = some (ticks, timer) ∧ ticks = elapsed / e.timer.period ∧
      countLimit ≤ cycles * ticks ∧ e.elapse? elapsed = none := by
  let fast : Cadence := ⟨1, 0, by decide, by decide⟩
  have hcount : fast.elapse? 10000000000 = some (10000000000, fast) := by decide
  have hwhole : 10000000000 = 10000000000 / fast.period := by decide
  have hwide : countLimit ≤ 10000000000 * 10000000000 := by decide
  let e : Emulation H := ⟨machine, fast, fast, ⟨1000000000, 1000000000, .skip⟩⟩
  have hfresh : ofMachine machine ⟨1000000000, 1000000000, .skip⟩ = .ok e := rfl
  have hnone : e.elapse? 10000000000 = none :=
    (elapse?_skip_eq_none_iff (e := e) rfl hcount hcount).mpr hwide
  exact ⟨e, 10000000000, 10000000000, fast, 10000000000, fast, hfresh, by decide, hcount,
    hwhole, hcount, hwhole, hwide, hnone⟩

/-- A frame comes to its end, however long it is since the one before it. -/
theorem exists_frame? (e : Emulation H) (elapsed : Nanos) :
    ∃ turn, e.frame? elapsed = some turn := by
  have hlag : (e.capLag elapsed).result ≤ e.longestLag := by
    rw [(e.capLag_eq elapsed).1]
    exact Nat.min_le_right _ _
  unfold frame?
  dsimp only
  rw [e.elapse?_eq (e.fits_of_le_longestLag hlag)]
  exact ⟨_, rfl⟩

/-- With the cap, every sum, count and product of a call is far inside its range, whatever the two
cadences have left, and so every frame comes to its end. Without it a product can have more than 64
bits, even though both clocks count the time and both counts are whole. -/
theorem capped_lag_in_range (machine : Machine H) :
    (∀ (e : Emulation H) (elapsed : Nanos),
      let time := (e.capLag elapsed).result
      time = min elapsed (4 * max e.cpu.period e.timer.period) ∧
        e.cpu.leftover + time ≤ Nanos.longest ∧ e.timer.leftover + time ≤ Nanos.longest ∧
        ∃ cycles cpu ticks timer,
          e.cpu.elapse? time = some (cycles, cpu) ∧ e.timer.elapse? time = some (ticks, timer) ∧
          cycles = (e.cpu.leftover + time) / e.cpu.period ∧ cycles ≤ 4000000000 ∧
          ticks = (e.timer.leftover + time) / e.timer.period ∧ ticks ≤ 4000000000 ∧
          (e.timer.period ≤ e.cpu.period → cycles ≤ 4) ∧
          (e.cpu.period ≤ e.timer.period → ticks ≤ 4) ∧
          (∀ cycle ≤ cycles, cycle * ticks ≤ 16000000000 ∧
            Progress.dueBehind? cycle ticks cycles = some (cycle * ticks / cycles)) ∧
          ∃ turn, e.frame? elapsed = some turn) ∧
      ∃ e elapsed cycles cpu ticks timer,
        ofMachine machine ⟨1000000000, 1000000000, .skip⟩ = .ok e ∧ elapsed ≤ Nanos.longest ∧
        e.cpu.elapse? elapsed = some (cycles, cpu) ∧ cycles = elapsed / e.cpu.period ∧
        e.timer.elapse? elapsed = some (ticks, timer) ∧ ticks = elapsed / e.timer.period ∧
        countLimit ≤ cycles * ticks ∧ e.elapse? elapsed = none := by
  refine ⟨?_, exists_elapse?_eq_none machine⟩
  intro e elapsed time
  have hmin : time = min elapsed e.longestLag := (e.capLag_eq elapsed).1
  have hlag : time ≤ e.longestLag := hmin ▸ Nat.min_le_right _ _
  have hfits := e.fits_of_le_longestLag hlag
  have hshort : time ≤ 4000000000 := Nat.le_trans hlag e.longestLag_le
  have hframe := e.exists_frame? elapsed
  rw [longestLag_eq] at hmin
  have hcap : time ≤ 4 * max e.cpu.period e.timer.period := hmin ▸ Nat.min_le_right _ _
  refine ⟨hmin, hfits.cpuClock, hfits.timerClock, _, _, _, _,
    e.cpu.elapse?_eq hfits.cpuClock hfits.cycles, e.timer.elapse?_eq hfits.timerClock hfits.ticks,
    rfl, Nat.le_trans (e.cpu.due_le time) hshort, rfl, Nat.le_trans (e.timer.due_le time) hshort,
    ?_, ?_, fun cycle hcycle => e.dueBehind?_of_le_longestLag hlag hcycle, hframe⟩
  · intro slower
    exact e.cpu.due_le_four (Nat.max_le.mpr ⟨Nat.le_refl _, slower⟩) hcap
  · intro slower
    exact e.timer.due_le_four (Nat.max_le.mpr ⟨slower, Nat.le_refl _⟩) hcap

/-- Both counts can be as large as the cap lets them be. -/
example :
    let cpu : Cadence := ⟨1, 0, by decide, by decide⟩
    let timer : Cadence := ⟨1000000000, 999999999, by decide, by decide⟩
    cpu.due 4000000000 = 4000000000 ∧ timer.due 4000000000 = 4 := by decide

end Emulation

end ChipEight

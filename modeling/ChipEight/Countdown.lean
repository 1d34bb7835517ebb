/-!
Countdown timers: one step down per tick, and never below zero.
-/
namespace ChipEight

/-- Ticks per second of a machine at its ordinary speed. -/
def timerRate : Nat := 60

structure Countdown where
  value : UInt8
  deriving DecidableEq, Repr

namespace Countdown

def zero : Countdown := ⟨0⟩

def tick (c : Countdown) : Countdown := ⟨if 0 < c.value then c.value - 1 else 0⟩

def isRunning (c : Countdown) : Bool := 0 < c.value

@[simp] theorem toNat_tick (c : Countdown) : c.tick.value.toNat = c.value.toNat - 1 := by
  unfold tick
  split
  next h =>
    have h : 0 < c.value.toNat := UInt8.lt_iff_toNat_lt.mp h
    exact UInt8.toNat_sub_of_le _ _ (UInt8.le_iff_toNat_le.mpr h)
  next h =>
    have h := mt UInt8.lt_iff_toNat_lt.mpr h
    simp only [UInt8.reduceToNat] at h ⊢
    omega

theorem isRunning_iff (c : Countdown) : c.isRunning = true ↔ 0 < c.value.toNat := by
  simp [isRunning, UInt8.lt_iff_toNat_lt]

theorem tick_of_not_running {c : Countdown} (h : ¬ c.isRunning) : c.tick = c := by
  obtain ⟨value⟩ := c
  have hzero : value = 0 := by
    apply UInt8.toNat_inj.mp
    have := mt (isRunning_iff ⟨value⟩).mpr h
    simpa using this
  rw [hzero]
  rfl

end Countdown

end ChipEight

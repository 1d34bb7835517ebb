import ChipEight.Cadence

/-!
The bookkeeping of a cadence. As long as its clock can count the time, a cadence loses no tick and
doubles none: what is due after two spans together is due after one and then the other, and the same
part of a period is left.
-/
namespace ChipEight

def Nanos.total (spans : List Nanos) : Nanos := spans.foldr (· + ·) 0

@[simp] theorem Nanos.total_cons (span : Nanos) (spans : List Nanos) :
    total (span :: spans) = span + total spans := rfl

namespace Cadence

/-- The ticks due after `elapsed`, however many. -/
def due (c : Cadence) (elapsed : Nanos) : Nat := (c.leftover + elapsed) / c.period

def rest (c : Cadence) (elapsed : Nanos) : Cadence :=
  { c with
    leftover := (c.leftover + elapsed) % c.period
    leftover_lt := Nat.mod_lt _ c.period_pos }

@[simp] theorem period_rest (c : Cadence) (elapsed : Nanos) :
    (c.rest elapsed).period = c.period := rfl

theorem leftover_rest (c : Cadence) (elapsed : Nanos) :
    (c.rest elapsed).leftover = (c.leftover + elapsed) % c.period := rfl

theorem eq_of_leftover {c d : Cadence} (period : c.period = d.period)
    (leftover : c.leftover = d.leftover) : c = d := by
  cases c
  cases d
  cases period
  cases leftover
  rfl

/-- A remainder is below a second, so its last 64 bits are all of it. -/
theorem low64_mod_period (c : Cadence) (total : Nanos) :
    low64 (total % c.period) = total % c.period := by
  have hmod : total % c.period < c.period := Nat.mod_lt _ c.period_pos
  have hsecond : c.period < countLimit := Nat.lt_of_le_of_lt c.period_le (by decide)
  exact low64_of_lt (Nat.lt_trans hmod hsecond)

/-- Of the due ticks the last 64 bits are counted, and nothing of the rest is lost. -/
theorem elapse?_of_clock (c : Cadence) {elapsed : Nanos}
    (clock : c.leftover + elapsed ≤ Nanos.longest) :
    c.elapse? elapsed = some (low64 (c.due elapsed), c.rest elapsed) := by
  unfold elapse?
  dsimp only
  rw [if_pos clock]
  congr 2
  exact eq_of_leftover rfl (c.low64_mod_period _)

theorem elapse?_eq (c : Cadence) {elapsed : Nanos} (clock : c.leftover + elapsed ≤ Nanos.longest)
    (count : c.due elapsed < countLimit) :
    c.elapse? elapsed = some (c.due elapsed, c.rest elapsed) := by
  rw [c.elapse?_of_clock clock, low64_of_lt count]

@[simp] theorem due_zero (c : Cadence) : c.due 0 = 0 := Nat.div_eq_of_lt c.leftover_lt

@[simp] theorem rest_zero (c : Cadence) : c.rest 0 = c :=
  eq_of_leftover rfl (Nat.mod_eq_of_lt c.leftover_lt)

theorem due_mono (c : Cadence) {a b : Nanos} (h : a ≤ b) : c.due a ≤ c.due b :=
  Nat.div_le_div_right (Nat.add_le_add_left h c.leftover)

theorem period_mul_due (c : Cadence) (elapsed : Nanos) :
    c.period * c.due elapsed + (c.rest elapsed).leftover = c.leftover + elapsed :=
  Nat.div_add_mod (c.leftover + elapsed) c.period

theorem leftover_add (c : Cadence) (a b : Nanos) :
    c.leftover + (a + b) = (c.rest a).leftover + b + c.period * c.due a :=
  calc
    c.leftover + (a + b) = c.leftover + a + b := (Nat.add_assoc _ _ _).symm
    _ = c.period * c.due a + (c.rest a).leftover + b := by rw [period_mul_due]
    _ = (c.rest a).leftover + b + c.period * c.due a := by rw [Nat.add_assoc, Nat.add_comm]

theorem due_add (c : Cadence) (a b : Nanos) : c.due (a + b) = c.due a + (c.rest a).due b := by
  change (c.leftover + (a + b)) / c.period = c.due a + ((c.rest a).leftover + b) / c.period
  rw [leftover_add, Nat.add_mul_div_left _ _ c.period_pos, Nat.add_comm]

theorem rest_add (c : Cadence) (a b : Nanos) : c.rest (a + b) = (c.rest a).rest b := by
  have hperiod : (c.rest (a + b)).period = ((c.rest a).rest b).period := rfl
  apply eq_of_leftover hperiod
  rw [leftover_rest, leftover_rest, leftover_add, Nat.add_mul_mod_self_left, period_rest]

theorem due_rest_le (c : Cadence) (a b : Nanos) : (c.rest a).due b ≤ c.due (a + b) := by
  rw [due_add]
  exact Nat.le_add_left _ _

theorem leftover_rest_add_le (c : Cadence) (a b : Nanos) :
    (c.rest a).leftover + b ≤ c.leftover + (a + b) := by
  have hrest : (c.rest a).leftover ≤ c.leftover + a := Nat.mod_le _ _
  rw [← Nat.add_assoc]
  exact Nat.add_le_add_right hrest b

/-- In `n` periods and what is left of one, `n` ticks are due at most. -/
theorem due_le_of_le_mul (c : Cadence) {n : Nat} {elapsed : Nanos} (h : elapsed ≤ n * c.period) :
    c.due elapsed ≤ n := by
  have hsum : c.leftover + elapsed < c.period + n * c.period :=
    Nat.add_lt_add_of_lt_of_le c.leftover_lt h
  apply Nat.le_of_lt_succ
  apply (Nat.div_lt_iff_lt_mul c.period_pos).mpr
  rw [Nat.succ_mul, Nat.add_comm (n * c.period)]
  exact hsum

theorem due_le (c : Cadence) (elapsed : Nanos) : c.due elapsed ≤ elapsed :=
  c.due_le_of_le_mul (Nat.le_mul_of_pos_right elapsed c.period_pos)

/-- In four periods that are no longer than its own, a cadence is due four times at most. -/
theorem due_le_four (c : Cadence) {period elapsed : Nanos} (slower : period ≤ c.period)
    (h : elapsed ≤ 4 * period) : c.due elapsed ≤ 4 :=
  c.due_le_of_le_mul (Nat.le_trans h (Nat.mul_le_mul_left 4 slower))

theorem leftover_ofHertz {name : String} {hertz : Nat} {c : Cadence}
    (h : ofHertz name hertz = .ok c) : c.leftover = 0 := by
  unfold ofHertz at h
  split at h
  · cases h
  · split at h
    · cases h
    · cases h
      rfl

theorem due_of_fresh {c : Cadence} (fresh : c.leftover = 0) (elapsed : Nanos) :
    c.due elapsed = elapsed / c.period := by
  unfold due
  rw [fresh, Nat.zero_add]

/-- Every rate from one to the fastest is accepted. -/
theorem exists_ofHertz (name : String) {hertz : Nat} (positive : 0 < hertz)
    (slow : hertz ≤ fastest) :
    ∃ c, ofHertz name hertz = .ok c ∧ c.period = 1000000000 / hertz ∧ c.leftover = 0 := by
  have hzero : ¬ hertz = 0 := Nat.pos_iff_ne_zero.mp positive
  have hhigh : ¬ fastest < hertz := Nat.not_lt.mpr slow
  unfold ofHertz
  rw [dif_neg hzero, dif_neg hhigh]
  exact ⟨_, rfl, rfl, rfl⟩

end Cadence

end ChipEight

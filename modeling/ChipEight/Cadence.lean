import ChipEight.Nanos

/-!
Turning elapsed time into due ticks of a fixed frequency. What is left of a period is kept for the
next call, so the ticks add up however the time is split.
-/
namespace ChipEight

/-- Counts have 64 bits. -/
def countLimit : Nat := 18446744073709551616

/-- The last 64 bits of a count. -/
def low64 (n : Nat) : Nat := n % countLimit

theorem low64_of_lt {n : Nat} (h : n < countLimit) : low64 n = n := Nat.mod_eq_of_lt h

inductive RateError where
  | zero (name : String)
  | tooFast (name : String) (hertz limit : Nat)
  deriving DecidableEq, Repr

def RateError.message : RateError → String
  | .zero name => s!"The {name} frequency has to be above zero."
  | .tooFast name hertz limit =>
    s!"The {name} frequency of {hertz} hz is above the supported {limit} hz."

/-- A period, of at most a second, and the time since the last tick. -/
structure Cadence where
  period : Nanos
  leftover : Nanos
  period_le : period ≤ Nanos.perSecond
  leftover_lt : leftover < period
  deriving DecidableEq

namespace Cadence

/-- The fastest frequency, with a period of one nanosecond. -/
def fastest : Nat := Nanos.perSecond

/-- The period is cut to whole nanoseconds. -/
def ofHertz (name : String) (hertz : Nat) : Except RateError Cadence :=
  if zero : hertz = 0 then .error (.zero name)
  else if high : fastest < hertz then .error (.tooFast name hertz fastest)
  else .ok
    { period := Nanos.perSecond / hertz
      leftover := 0
      period_le := Nat.div_le_self _ _
      leftover_lt := Nat.div_pos (Nat.le_of_not_lt high) (Nat.pos_of_ne_zero zero) }

theorem period_pos (c : Cadence) : 0 < c.period := Nat.zero_lt_of_lt c.leftover_lt

/-- The ticks due after `elapsed`, of which only 64 bits are counted; nothing if the sum of the
leftover and the elapsed time is longer than a clock can count. -/
def elapse? (c : Cadence) (elapsed : Nanos) : Option (Nat × Cadence) :=
  let total := c.leftover + elapsed
  if total ≤ Nanos.longest then
    some (low64 (total / c.period),
      { c with
        leftover := low64 (total % c.period)
        leftover_lt := Nat.lt_of_le_of_lt (Nat.mod_le _ _) (Nat.mod_lt _ c.period_pos) })
  else none

/-- The due ticks of one span after the other, up to the first that is too long. -/
def dueTicks (c : Cadence) : List Nanos → List (Option Nat)
  | [] => []
  | elapsed :: rest =>
    match c.elapse? elapsed with
    | none => [none]
    | some (ticks, c) => some ticks :: c.dueTicks rest

end Cadence

end ChipEight

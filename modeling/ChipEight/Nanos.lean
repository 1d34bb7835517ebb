/-!
Spans of time in whole nanoseconds, and how they are written: in the largest of the units `s`,
`ms`, `µs` and `ns` that the span reaches, as an exact decimal without trailing zeros.
-/
namespace ChipEight

abbrev Nanos := Nat

namespace Nanos

abbrev perSecond : Nanos := 1000000000

/-- The longest span that a clock can count: `2 ^ 64` seconds less one nanosecond. -/
def longest : Nanos := 18446744073709551615999999999

theorem longest_eq : longest = 18446744073709551616 * perSecond - 1 := by decide

/-- The decimals of `f / 10 ^ places`, with the point, or nothing for a whole number. -/
def decimals (places f : Nat) : String :=
  let digits := Nat.toDigits 10 f
  let padded := List.replicate (places - digits.length) '0' ++ digits
  let kept := (padded.reverse.dropWhile (· == '0')).reverse
  if kept.isEmpty then "" else String.ofList ('.' :: kept)

/-- The span in a unit of `10 ^ places` nanoseconds. -/
def inUnit (places : Nat) (unit : String) (t : Nanos) : String :=
  toString (t / Nat.pow 10 places) ++ decimals places (t % Nat.pow 10 places) ++ unit

def text (t : Nanos) : String :=
  if 1000000000 ≤ t then inUnit 9 "s" t
  else if 1000000 ≤ t then inUnit 6 "ms" t
  else if 1000 ≤ t then inUnit 3 "µs" t
  else inUnit 0 "ns" t

end Nanos

end ChipEight

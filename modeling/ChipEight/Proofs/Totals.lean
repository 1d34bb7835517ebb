import ChipEight.Proofs.Remainders
import Mathlib.Algebra.BigOperators.Group.List.Basic
import Mathlib.Algebra.GroupWithZero.Nat

/-!
What a cadence counts over many spans. The counts add up to the whole periods in all of the time,
and what is left is left of all of the time, so neither depends on how the time is split or in which
order its parts come. Of each count the last 64 bits are kept, which costs nothing unless a single
count has more.
-/
namespace ChipEight.Cadence

/-- One span after the other: the count of each, and the cadence behind them. -/
def elapseEach? (c : Cadence) : List Nanos → Option (List Nat × Cadence)
  | [] => some ([], c)
  | span :: spans => do
    let (ticks, next) ← c.elapse? span
    let (counts, last) ← next.elapseEach? spans
    pure (ticks :: counts, last)

/-- What the clock shows behind each span, on top of what the spans before it left of a period. The
first time that the clock can not count is the last one. -/
def readings (c : Cadence) : List Nanos → List Nanos
  | [] => []
  | span :: spans =>
    (c.leftover + span) ::
      match c.elapse? span with
      | none => []
      | some (_, next) => next.readings spans

/-- The clock can count all that it shows. -/
def Clocked (c : Cadence) (spans : List Nanos) : Prop :=
  ∀ reading ∈ c.readings spans, reading ≤ Nanos.longest

instance (c : Cadence) (spans : List Nanos) : Decidable (c.Clocked spans) :=
  inferInstanceAs (Decidable (∀ reading ∈ c.readings spans, reading ≤ Nanos.longest))

/-- The ticks due behind each span, however many. -/
def dueEach (c : Cadence) (spans : List Nanos) : List Nat :=
  (c.readings spans).map fun reading => reading / c.period

/-- No single count has more than 64 bits. -/
def Uncut (c : Cadence) (spans : List Nanos) : Prop :=
  ∀ ticks ∈ c.dueEach spans, ticks < countLimit

instance (c : Cadence) (spans : List Nanos) : Decidable (c.Uncut spans) :=
  inferInstanceAs (Decidable (∀ ticks ∈ c.dueEach spans, ticks < countLimit))

theorem readings_cons (c : Cadence) {span : Nanos} (clock : c.leftover + span ≤ Nanos.longest)
    (spans : List Nanos) :
    c.readings (span :: spans) = (c.leftover + span) :: (c.rest span).readings spans := by
  rw [readings, c.elapse?_of_clock clock]

theorem dueEach_cons (c : Cadence) {span : Nanos} (clock : c.leftover + span ≤ Nanos.longest)
    (spans : List Nanos) :
    c.dueEach (span :: spans) = c.due span :: (c.rest span).dueEach spans := by
  unfold dueEach
  rw [c.readings_cons clock, List.map_cons]
  rfl

theorem clocked_cons_iff {c : Cadence} {span : Nanos} {spans : List Nanos} :
    c.Clocked (span :: spans) ↔
      c.leftover + span ≤ Nanos.longest ∧ (c.rest span).Clocked spans := by
  have hfirst : c.Clocked (span :: spans) → c.leftover + span ≤ Nanos.longest :=
    fun h => h (c.leftover + span) List.mem_cons_self
  refine ⟨?_, ?_⟩
  · intro h
    refine ⟨hfirst h, ?_⟩
    intro reading hreading
    apply h
    rw [c.readings_cons (hfirst h)]
    exact List.mem_cons_of_mem _ hreading
  · rintro ⟨hclock, hlater⟩ reading hreading
    rw [c.readings_cons hclock] at hreading
    rcases List.mem_cons.mp hreading with rfl | hreading
    · exact hclock
    · exact hlater reading hreading

theorem elapseEach?_of_clocked (c : Cadence) {spans : List Nanos} (clocked : c.Clocked spans) :
    c.elapseEach? spans = some ((c.dueEach spans).map low64, c.rest (Nanos.total spans)) := by
  induction spans generalizing c with
  | nil =>
    have hnone : c.rest (Nanos.total []) = c := c.rest_zero
    rw [hnone]
    rfl
  | cons span spans ih =>
    obtain ⟨hclock, hlater⟩ := clocked_cons_iff.mp clocked
    rw [elapseEach?, c.elapse?_of_clock hclock, c.dueEach_cons hclock, Nanos.total_cons, rest_add]
    dsimp only [Option.bind_eq_bind, Option.bind_some]
    rw [ih (c.rest span) hlater]
    rfl

theorem dueTicks_of_clocked (c : Cadence) {spans : List Nanos} (clocked : c.Clocked spans) :
    c.dueTicks spans = ((c.dueEach spans).map low64).map some := by
  induction spans generalizing c with
  | nil => rfl
  | cons span spans ih =>
    obtain ⟨hclock, hlater⟩ := clocked_cons_iff.mp clocked
    rw [dueTicks, c.elapse?_of_clock hclock, c.dueEach_cons hclock]
    dsimp only
    rw [ih (c.rest span) hlater, List.map_cons, List.map_cons]

/-- What is due behind each of the spans is due behind all of them. -/
theorem sum_dueEach (c : Cadence) {spans : List Nanos} (clocked : c.Clocked spans) :
    (c.dueEach spans).sum = c.due (Nanos.total spans) := by
  induction spans generalizing c with
  | nil => exact c.due_zero.symm
  | cons span spans ih =>
    obtain ⟨hclock, hlater⟩ := clocked_cons_iff.mp clocked
    rw [c.dueEach_cons hclock, List.sum_cons, ih (c.rest span) hlater, Nanos.total_cons, due_add]

theorem sum_low64_mod (counts : List Nat) :
    (counts.map low64).sum % countLimit = counts.sum % countLimit :=
  (List.sum_nat_mod counts countLimit).symm

theorem sum_low64_le (counts : List Nat) : (counts.map low64).sum ≤ counts.sum := by
  induction counts with
  | nil => exact Nat.le_refl _
  | cons ticks counts ih => exact Nat.add_le_add (Nat.mod_le ticks countLimit) ih

/-- Cut counts fall short of the sum, so it is kept only if none is cut. -/
theorem sum_low64_eq_iff (counts : List Nat) :
    (counts.map low64).sum = counts.sum ↔ ∀ ticks ∈ counts, ticks < countLimit := by
  induction counts with
  | nil => simp
  | cons ticks counts ih =>
    have hrest := sum_low64_le counts
    have hcut : low64 ticks ≤ ticks := Nat.mod_le ticks countLimit
    have hlow : low64 ticks = ticks ↔ ticks < countLimit :=
      ⟨fun h => h ▸ Nat.mod_lt ticks (by decide), low64_of_lt⟩
    rw [List.forall_mem_cons, ← ih, ← hlow, List.map_cons, List.sum_cons, List.sum_cons]
    omega

/-- Over spans that the clock can count, a cadence that starts afresh loses no tick and doubles
none. Its counts are short of the whole periods by a multiple of `2 ^ 64`, and by nothing exactly
if no single count is cut. What is left of a period is never cut. The same time in other spans
comes to the same. -/
theorem counts_add_up (name : String) {hertz : Nat} (positive : 0 < hertz)
    (slow : hertz ≤ fastest) :
    ∃ c, ofHertz name hertz = .ok c ∧ c.period = 1000000000 / hertz ∧
      ∀ spans, c.Clocked spans →
        ∃ counts after, c.elapseEach? spans = some (counts, after) ∧
          c.dueTicks spans = counts.map some ∧
          after.period = c.period ∧ after.leftover = Nanos.total spans % c.period ∧
          after.leftover < c.period ∧
          (∀ reading ∈ c.readings spans, low64 (reading % c.period) = reading % c.period) ∧
          counts.sum % countLimit = Nanos.total spans / c.period % countLimit ∧
          (counts.sum = Nanos.total spans / c.period ↔ c.Uncut spans) ∧
          ∀ others, Nanos.total others = Nanos.total spans → c.Clocked others →
            ∃ again, c.elapseEach? others = some (again, after) ∧
              again.sum % countLimit = counts.sum % countLimit ∧
              (c.Uncut spans → c.Uncut others → again.sum = counts.sum) := by
  obtain ⟨c, haccepted, hperiod, hfresh⟩ := exists_ofHertz name positive slow
  have hsum : ∀ spans, c.Clocked spans →
      (c.dueEach spans).sum = Nanos.total spans / c.period := by
    intro spans clocked
    rw [c.sum_dueEach clocked, due_of_fresh hfresh]
  have hleftover : ∀ time, (c.rest time).leftover = time % c.period := by
    intro time
    rw [leftover_rest, hfresh, Nat.zero_add]
  refine ⟨c, haccepted, hperiod, ?_⟩
  intro spans clocked
  refine ⟨_, _, c.elapseEach?_of_clocked clocked, c.dueTicks_of_clocked clocked, rfl,
    hleftover _, (c.rest _).leftover_lt, fun reading _ => c.low64_mod_period reading, ?_, ?_, ?_⟩
  · rw [sum_low64_mod, hsum spans clocked]
  · rw [← hsum spans clocked]
    exact sum_low64_eq_iff _
  · intro others htotal hclocked
    have hagain := c.elapseEach?_of_clocked hclocked
    rw [htotal] at hagain
    refine ⟨_, hagain, ?_, ?_⟩
    · rw [sum_low64_mod, sum_low64_mod, hsum others hclocked, hsum spans clocked, htotal]
    · intro hspans hothers
      rw [(sum_low64_eq_iff _).mpr hothers, (sum_low64_eq_iff _).mpr hspans,
        hsum others hclocked, hsum spans clocked, htotal]

/-- A third of a second is no whole number of nanoseconds, so three thirds leave one. -/
theorem counts_add_up_in_thirds :
    let c : Cadence := ⟨333333333, 0, by decide, by decide⟩
    let spans : List Nanos := [1000000000, 333333331, 1]
    let others : List Nanos := [1, 0, 1333333331]
    0 < 3 ∧ 3 ≤ fastest ∧ ofHertz "timer" 3 = .ok c ∧ c.Clocked spans ∧ c.Uncut spans ∧
      c.Clocked others ∧ c.Uncut others ∧
      ∃ counts again after, c.elapseEach? spans = some (counts, after) ∧
        c.elapseEach? others = some (again, after) ∧ counts.sum = 4 ∧ again.sum = 4 ∧
        after.leftover = 0 := by
  intro c spans others
  have haccepted : ofHertz "timer" 3 = .ok c := rfl
  have hspans : c.Clocked spans := by decide
  have hothers : c.Clocked others := by decide
  have huncut : c.Uncut spans ∧ c.Uncut others := by decide
  obtain ⟨d, hd, -, h⟩ := counts_add_up "timer" (show 0 < 3 by decide) (by decide)
  cases haccepted.symm.trans hd
  obtain ⟨counts, after, hcounts, -, -, hleft, -, -, -, hsum, hagain⟩ := h spans hspans
  obtain ⟨again, hotherwise, -, hsame⟩ := hagain others rfl hothers
  have hfour : counts.sum = 4 := (hsum.mpr huncut.1).trans (by decide)
  have hnone : after.leftover = 0 := hleft.trans (by decide)
  exact ⟨by decide, by decide, haccepted, hspans, huncut.1, hothers, huncut.2, counts, again,
    after, hcounts, hotherwise, hfour, (hsame huncut.1 huncut.2).trans hfour, hnone⟩

/-- A count of `2 ^ 64` ticks is cut to none. -/
example : dueTicks ⟨1, 0, by decide, by decide⟩ [18446744073709551616, 1] = [some 0, some 1] := by
  decide

end ChipEight.Cadence

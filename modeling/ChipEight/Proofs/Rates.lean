import ChipEight.Proofs.Totals
import Mathlib.Algebra.Order.BigOperators.Group.List
import Mathlib.Algebra.Order.Group.Nat

/-!
The frequency that was asked for, and the one that a cadence keeps. A period is cut to whole
nanoseconds, so a cadence is never behind, and less than twice as fast. It keeps the frequency if
that divides a second into whole nanoseconds; if not, it is ahead from its first tick on.
-/
namespace ChipEight.Cadence

/-- The ticks of a frequency in some time, each of them due at its exact time. -/
def nominal (hertz : Nat) (time : Nanos) : Nat := time * hertz / 1000000000

theorem nominal_le {hertz : Nat} (positive : 0 < hertz) (slow : hertz ≤ fastest) (time : Nanos) :
    nominal hertz time ≤ time / (1000000000 / hertz) := by
  have hperiod : 0 < 1000000000 / hertz := Nat.div_pos slow positive
  apply (Nat.le_div_iff_mul_le hperiod).mpr
  apply Nat.le_of_mul_le_mul_right _ positive
  calc
    nominal hertz time * (1000000000 / hertz) * hertz =
        nominal hertz time * (1000000000 / hertz * hertz) := Nat.mul_assoc _ _ _
    _ ≤ nominal hertz time * 1000000000 :=
      Nat.mul_le_mul_left _ (Nat.div_mul_le_self 1000000000 hertz)
    _ ≤ time * hertz := Nat.div_mul_le_self (time * hertz) 1000000000

/-- The part of a period that is cut off is shorter than the rest of it. -/
theorem second_le_twice {hertz : Nat} (positive : 0 < hertz) (slow : hertz ≤ fastest) :
    1000000000 ≤ 2 * (1000000000 / hertz * hertz) := by
  have hperiod : 1 ≤ 1000000000 / hertz := Nat.div_pos slow positive
  have hwhole : hertz ≤ 1000000000 / hertz * hertz := Nat.le_mul_of_pos_left hertz hperiod
  have hrest : 1000000000 % hertz < hertz := Nat.mod_lt _ positive
  have hsecond := Nat.div_add_mod' 1000000000 hertz
  omega

theorem count_le_twice {hertz : Nat} (positive : 0 < hertz) (slow : hertz ≤ fastest)
    (time : Nanos) : time / (1000000000 / hertz) * 1000000000 ≤ 2 * (time * hertz) := by
  generalize hcount : time / (1000000000 / hertz) = count
  have hticks : count * (1000000000 / hertz) ≤ time := by
    rw [← hcount]
    exact Nat.div_mul_le_self time (1000000000 / hertz)
  calc
    count * 1000000000 ≤ count * (2 * (1000000000 / hertz * hertz)) :=
      Nat.mul_le_mul_left count (second_le_twice positive slow)
    _ = 2 * (count * (1000000000 / hertz) * hertz) := by ac_rfl
    _ ≤ 2 * (time * hertz) := Nat.mul_le_mul_left 2 (Nat.mul_le_mul_right hertz hticks)

theorem count_eq_nominal {hertz : Nat} (positive : 0 < hertz) (whole : hertz ∣ 1000000000)
    (time : Nanos) : time / (1000000000 / hertz) = nominal hertz time := by
  have hsecond : 1000000000 / hertz * hertz = 1000000000 := Nat.div_mul_cancel whole
  unfold nominal
  rw [← Nat.mul_div_mul_right time (1000000000 / hertz) positive, hsecond]

theorem nominal_period {hertz : Nat} (broken : ¬ hertz ∣ 1000000000) :
    nominal hertz (1000000000 / hertz) = 0 := by
  have hne : 1000000000 / hertz * hertz ≠ 1000000000 :=
    fun h => broken (Dvd.intro_left _ h)
  have hle : 1000000000 / hertz * hertz ≤ 1000000000 := Nat.div_mul_le_self _ _
  exact Nat.div_eq_of_lt (Nat.lt_of_le_of_ne hle hne)

theorem clocked_of_total_le {c : Cadence} {spans : List Nanos}
    (h : c.leftover + Nanos.total spans ≤ Nanos.longest) : c.Clocked spans := by
  induction spans generalizing c with
  | nil => intro reading hreading; cases hreading
  | cons span spans ih =>
    have hfirst : c.leftover + span ≤ c.leftover + (span + Nanos.total spans) :=
      Nat.add_le_add_left (Nat.le_add_right _ _) _
    rw [Nanos.total_cons] at h
    apply clocked_cons_iff.mpr
    exact ⟨Nat.le_trans hfirst h, ih (Nat.le_trans (c.leftover_rest_add_le _ _) h)⟩

theorem uncut_of_due_lt {c : Cadence} {spans : List Nanos} (clocked : c.Clocked spans)
    (h : c.due (Nanos.total spans) < countLimit) : c.Uncut spans := by
  intro ticks hticks
  rw [← c.sum_dueEach clocked] at h
  exact Nat.lt_of_le_of_lt (List.le_sum_of_mem hticks) h

/-- In the first second the clock does not run over and no count is cut. -/
theorem clocked_and_uncut_of_le {c : Cadence} (fresh : c.leftover = 0) {spans : List Nanos}
    (h : Nanos.total spans ≤ 1000000000) : c.Clocked spans ∧ c.Uncut spans := by
  have hclocked : c.Clocked spans := by
    apply clocked_of_total_le
    rw [fresh, Nat.zero_add]
    exact Nat.le_trans h (by decide)
  have hdue : c.due (Nanos.total spans) < countLimit :=
    Nat.lt_of_le_of_lt (Nat.le_trans (c.due_le _) h) (by decide)
  exact ⟨hclocked, uncut_of_due_lt hclocked hdue⟩

/-- A cadence that starts afresh is never behind its frequency and never more than twice as fast. It
has the ticks of its frequency at every time exactly if the frequency divides a second; for any
other frequency the first tick comes early. -/
theorem counts_track_nominal (name : String) {hertz : Nat} (positive : 0 < hertz)
    (slow : hertz ≤ fastest) :
    ∃ c, ofHertz name hertz = .ok c ∧
      (∀ spans, c.Clocked spans → c.Uncut spans →
        ∃ counts after, c.elapseEach? spans = some (counts, after) ∧
          nominal hertz (Nanos.total spans) ≤ counts.sum ∧
          counts.sum * 1000000000 ≤ 2 * (Nanos.total spans * hertz)) ∧
      ((∀ spans, c.Clocked spans → c.Uncut spans →
          ∃ counts after, c.elapseEach? spans = some (counts, after) ∧
            counts.sum = nominal hertz (Nanos.total spans)) ↔
        hertz ∣ 1000000000) ∧
      (¬ hertz ∣ 1000000000 → ∀ spans, Nanos.total spans = 1000000000 / hertz →
        ∃ counts after, c.elapseEach? spans = some (counts, after) ∧
          nominal hertz (Nanos.total spans) < counts.sum) := by
  obtain ⟨c, haccepted, hperiod, hfresh⟩ := exists_ofHertz name positive slow
  have hcount : ∀ spans, c.Clocked spans → c.Uncut spans →
      ∃ counts after, c.elapseEach? spans = some (counts, after) ∧
        counts.sum = Nanos.total spans / (1000000000 / hertz) := by
    intro spans clocked uncut
    refine ⟨_, _, c.elapseEach?_of_clocked clocked, ?_⟩
    rw [(sum_low64_eq_iff _).mpr uncut, c.sum_dueEach clocked, due_of_fresh hfresh, hperiod]
  have hpos : 0 < 1000000000 / hertz := Nat.div_pos slow positive
  have hahead : ¬ hertz ∣ 1000000000 → ∀ spans, Nanos.total spans = 1000000000 / hertz →
      ∃ counts after, c.elapseEach? spans = some (counts, after) ∧
        nominal hertz (Nanos.total spans) < counts.sum := by
    intro broken spans htotal
    have hsecond : Nanos.total spans ≤ 1000000000 := htotal ▸ Nat.div_le_self _ _
    obtain ⟨hclocked, huncut⟩ := clocked_and_uncut_of_le hfresh hsecond
    obtain ⟨counts, after, hcounts, hsum⟩ := hcount spans hclocked huncut
    refine ⟨counts, after, hcounts, ?_⟩
    rw [hsum, htotal, nominal_period broken, Nat.div_self hpos]
    exact Nat.zero_lt_one
  refine ⟨c, haccepted, ?_, ⟨?_, ?_⟩, hahead⟩
  · intro spans clocked uncut
    obtain ⟨counts, after, hcounts, hsum⟩ := hcount spans clocked uncut
    refine ⟨counts, after, hcounts, ?_⟩
    rw [hsum]
    exact ⟨nominal_le positive slow _, count_le_twice positive slow _⟩
  · intro hall
    by_contra broken
    have htotal : Nanos.total [1000000000 / hertz] = 1000000000 / hertz := Nat.add_zero _
    have hsecond : Nanos.total [1000000000 / hertz] ≤ 1000000000 := htotal ▸ Nat.div_le_self _ _
    obtain ⟨hclocked, huncut⟩ := clocked_and_uncut_of_le hfresh hsecond
    obtain ⟨counts, after, hcounts, hsum⟩ := hall _ hclocked huncut
    obtain ⟨again, later, hagain, hless⟩ := hahead broken _ htotal
    cases hcounts.symm.trans hagain
    exact Nat.ne_of_lt hless hsum.symm
  · intro whole spans clocked uncut
    obtain ⟨counts, after, hcounts, hsum⟩ := hcount spans clocked uncut
    exact ⟨counts, after, hcounts, hsum.trans (count_eq_nominal positive whole _)⟩

/-- At 600 MHz a period is cut from five thirds of a nanosecond to one. -/
theorem counts_track_nominal_at_600_megahertz :
    let c : Cadence := ⟨1, 0, by decide, by decide⟩
    0 < 600000000 ∧ 600000000 ≤ fastest ∧ ofHertz "cpu" 600000000 = .ok c ∧
      ¬ 600000000 ∣ 1000000000 ∧ c.Clocked [2, 0, 1] ∧ c.Uncut [2, 0, 1] ∧
      (∃ counts after, c.elapseEach? [2, 0, 1] = some (counts, after) ∧ 1 ≤ counts.sum ∧
        counts.sum * 1000000000 ≤ 3600000000) ∧
      (∃ counts after, c.elapseEach? [0, 1] = some (counts, after) ∧ 0 < counts.sum) ∧
      ¬ ∀ spans, c.Clocked spans → c.Uncut spans →
        ∃ counts after, c.elapseEach? spans = some (counts, after) ∧
          counts.sum = nominal 600000000 (Nanos.total spans) := by
  intro c
  have haccepted : ofHertz "cpu" 600000000 = .ok c := rfl
  have hbroken : ¬ 600000000 ∣ 1000000000 := by decide
  have hclocked : c.Clocked [2, 0, 1] := by decide
  have huncut : c.Uncut [2, 0, 1] := by decide
  obtain ⟨d, hd, htrack, hexact, hahead⟩ :=
    counts_track_nominal "cpu" (show 0 < 600000000 by decide) (by decide)
  cases haccepted.symm.trans hd
  exact ⟨by decide, by decide, haccepted, hbroken, hclocked, huncut, htrack _ hclocked huncut,
    hahead hbroken _ rfl, fun hall => hbroken (hexact.mp hall)⟩

end ChipEight.Cadence

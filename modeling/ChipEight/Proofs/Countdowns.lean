import ChipEight.Host.Console
import ChipEight.Proofs.Footprint
import ChipEight.Proofs.History

/-!
The timers over a history. One instruction sets a timer, a tick takes it one step down, and nothing
else touches it. So a timer shows the value it was last set to less the ticks since then, and the
sound is reported to end once for each time that it was set.
-/
namespace ChipEight

namespace Countdown

/-- The countdown some ticks later. -/
def lowered (c : Countdown) (n : Nat) : Countdown := ⟨UInt8.ofNat (c.value.toNat - n)⟩

@[simp] theorem toNat_lowered (c : Countdown) (n : Nat) :
    (c.lowered n).value.toNat = c.value.toNat - n := by
  have h := c.value.toNat_lt
  simp only [lowered, UInt8.toNat_ofNat']
  omega

theorem ext_toNat {c d : Countdown} (h : c.value.toNat = d.value.toNat) : c = d :=
  congrArg mk (UInt8.toNat_inj.mp h)

@[simp] theorem lowered_zero (c : Countdown) : c.lowered 0 = c := by
  apply ext_toNat
  simp

theorem lowered_one (c : Countdown) : c.lowered 1 = c.tick := by
  apply ext_toNat
  simp

theorem lowered_lowered (c : Countdown) (m n : Nat) :
    (c.lowered m).lowered n = c.lowered (m + n) := by
  apply ext_toNat
  simp only [toNat_lowered]
  omega

end Countdown

inductive Timer where
  | delay
  | sound
  deriving DecidableEq, Repr

/-- The instruction that sets the timer. -/
def Timer.setter : Timer → Transfer
  | .delay => .writeDelay
  | .sound => .writeSound

def Action.isTick {H : Type} : Action H → Bool
  | .countDown => true
  | _ => false

/-- The ticks of a history. -/
def ticks {H : Type} (actions : List (Action H)) : Nat := actions.countP Action.isTick

@[simp] theorem ticks_nil {H : Type} : ticks ([] : List (Action H)) = 0 := rfl

@[simp] theorem ticks_cons {H : Type} (action : Action H) (rest : List (Action H)) :
    ticks (action :: rest) = ticks rest + if action.isTick then 1 else 0 := List.countP_cons

theorem Host.Apart.unit {H : Type} [Host H] :
    Host.Apart (fun _ : H => ()) (fun _ : H => ()) := by
  constructor <;> intros <;> rfl

namespace Machine

variable {H : Type}

def timer (m : Machine H) : Timer → Countdown
  | .delay => m.delay
  | .sound => m.sound

/-- The next instruction sets the timer to this value. -/
def Sets (m : Machine H) (t : Timer) (v : UInt8) : Prop :=
  ∃ x, m.word.Encodes (.transfer t.setter x) ∧ m.reg x = v

theorem timer_countDown (m : Machine H) (t : Timer) :
    m.countDown.state.timer t = (m.timer t).tick := by
  cases t <;> rfl

/-- The tick that takes the sound from one to zero ends it. -/
theorem countDown_ends_iff (m : Machine H) :
    m.countDown.result = true ↔ (m.timer .sound).value.toNat = 1 := by
  have hresult : m.countDown.result = (m.sound.isRunning && ! m.sound.tick.isRunning) := rfl
  rw [hresult, Bool.and_eq_true, Bool.not_eq_true', ← Bool.not_eq_true, Countdown.isRunning_iff,
    Countdown.isRunning_iff, Countdown.toNat_tick]
  change _ ↔ m.sound.value.toNat = 1
  omega

variable [Host H]

theorem timer_cycle_of_sets {m : Machine H} {t : Timer} {v : UInt8} (h : m.Sets t v) :
    m.cycle.state.timer t = ⟨v⟩ := by
  obtain ⟨x, hi, rfl⟩ := h
  rw [cycle_of_encodes hi]
  cases t <;> rfl

theorem timer_cycle_of_not_sets {m : Machine H} {t : Timer} (h : ∀ v, ¬ m.Sets t v) :
    m.cycle.state.timer t = m.timer t := by
  rcases m.word_cases with hunused | ⟨i, hi⟩
  · rw [cycle_of_unused hunused]
    cases t <;> rfl
  · have hne : ∀ x, i ≠ .transfer t.setter x := fun x hx => h (m.reg x) ⟨x, hx ▸ hi, rfl⟩
    rw [cycle_of_encodes hi, Turn.state_after]
    cases hresult : (m.fetch.execute i).result with
    | error fault =>
      rw [state_execute_of_error hresult]
      cases t <;> rfl
    | ok signal =>
      obtain ⟨m', step, hstate, hframe⟩ := frame_execute Host.Apart.unit hresult
      rw [hstate]
      cases t with
      | delay => exact hframe.delay hne
      | sound => exact hframe.sound hne

/-- No instruction of the history sets the timer. -/
def Unset (m : Machine H) (t : Timer) (actions : List (Action H)) : Prop :=
  ∀ before after v, actions = before ++ .cycle :: after → ¬ (m.perform before).Sets t v

/-- The value that a history last set the timer to, and what has happened since. A timer that was
never set counts from zero. -/
inductive LastSet (m : Machine H) (t : Timer) :
    List (Action H) → UInt8 → List (Action H) → Prop where
  | never {actions : List (Action H)} (unset : m.Unset t actions) : LastSet m t actions 0 actions
  | since (before : List (Action H)) {after : List (Action H)} {v : UInt8}
    (sets : (m.perform before).Sets t v)
    (unset : (m.perform before).cycle.state.Unset t after) :
    LastSet m t (before ++ .cycle :: after) v after

theorem unset_nil (m : Machine H) (t : Timer) : m.Unset t [] := by
  intro before after v h
  simp at h

theorem unset_cons {m : Machine H} {t : Timer} {action : Action H} {rest : List (Action H)} :
    m.Unset t (action :: rest) ↔
      (action = .cycle → ∀ v, ¬ m.Sets t v) ∧ (m.act action).Unset t rest := by
  constructor
  · intro h
    refine ⟨?_, ?_⟩
    · intro haction v
      exact h [] rest v (by rw [haction]; rfl)
    · intro before after v hrest
      exact h (action :: before) after v (by rw [hrest]; rfl)
  · intro ⟨hfirst, hrest⟩ before after v h
    cases before with
    | nil =>
      obtain ⟨haction, -⟩ := List.cons.inj h
      exact hfirst haction v
    | cons earlier before =>
      obtain ⟨haction, hsplit⟩ := List.cons.inj h
      rw [← haction]
      exact hrest before after v hsplit

theorem timer_of_unset {m : Machine H} {t : Timer} {actions : List (Action H)}
    (h : m.Unset t actions) : (m.perform actions).timer t = (m.timer t).lowered (ticks actions) := by
  induction actions generalizing m with
  | nil => simp
  | cons action rest ih =>
    obtain ⟨hfirst, hrest⟩ := unset_cons.mp h
    rw [perform_cons, ih hrest]
    cases action with
    | cycle =>
      have hkeep : (m.act .cycle).timer t = m.timer t := timer_cycle_of_not_sets (hfirst rfl)
      simp [hkeep, Action.isTick]
    | countDown =>
      have htick : (m.act .countDown).timer t = (m.timer t).tick := m.timer_countDown t
      simp [htick, Action.isTick, ← Countdown.lowered_one, Countdown.lowered_lowered, Nat.add_comm]
    | passOver | host => cases t <;> simp [Action.isTick, act, passOver, move, timer]

theorem exists_lastSet (m : Machine H) (t : Timer) (actions : List (Action H)) :
    ∃ v since, m.LastSet t actions v since := by
  induction actions generalizing m with
  | nil => exact ⟨0, [], .never (m.unset_nil t)⟩
  | cons action rest ih =>
    obtain ⟨v, since, hlast⟩ := ih (m.act action)
    cases hlast with
    | @since before _ _ sets unset => exact ⟨v, since, .since (action :: before) sets unset⟩
    | never unset =>
      by_cases hsets : action = .cycle ∧ ∃ v, m.Sets t v
      · obtain ⟨rfl, v, hv⟩ := hsets
        exact ⟨v, rest, .since [] hv unset⟩
      · refine ⟨0, action :: rest, .never (unset_cons.mpr ⟨?_, unset⟩)⟩
        exact fun haction v hv => hsets ⟨haction, v, hv⟩

theorem toNat_timer_of_lastSet {m : Machine H} {t : Timer} (zero : (m.timer t).value = 0)
    {actions since : List (Action H)} {v : UInt8} (h : m.LastSet t actions v since) :
    ((m.perform actions).timer t).value.toNat = v.toNat - ticks since := by
  cases h with
  | never unset => rw [timer_of_unset unset, Countdown.toNat_lowered, zero]
  | since before sets unset =>
    rw [perform_append, perform_cons]
    change (((m.perform before).cycle.state.perform since).timer t).value.toNat = _
    rw [timer_of_unset unset, timer_cycle_of_sets sets, Countdown.toNat_lowered]

/-- After a tick that ends the sound, only an instruction that sets it can have it end again. -/
theorem sets_between_ends {m : Machine H} (before between : List (Action H))
    (first : (m.perform before).countDown.result = true)
    (second : (m.perform (before ++ .countDown :: between)).countDown.result = true) :
    ∃ early late v, between = early ++ .cycle :: late ∧
      (m.perform (before ++ .countDown :: early)).Sets .sound v ∧ 0 < v.toNat := by
  have hone := (m.perform before).countDown_ends_iff.mp first
  have hzero : ((m.perform before).countDown.state.timer .sound).value = 0 := by
    apply UInt8.toNat_inj.mp
    rw [timer_countDown, Countdown.toNat_tick, hone]
    rfl
  obtain ⟨v, since, hlast⟩ := exists_lastSet (m.perform before).countDown.state .sound between
  have hvalue := toNat_timer_of_lastSet hzero hlast
  rw [perform_append, perform_cons] at second
  have hend := (countDown_ends_iff _).mp second
  have hpos : 0 < v.toNat := by
    change (((m.perform before).countDown.state.perform between).timer .sound).value.toNat = 1 at hend
    omega
  cases hlast with
  | never unset => simp at hpos
  | since early sets unset =>
    refine ⟨early, since, v, rfl, ?_, hpos⟩
    rw [perform_append, perform_cons]
    exact sets

/-- The timers of a machine over any history from the start of a program: each shows the value that
it was last set to less the ticks since then, and never less than zero. A tick reports the end of
the sound exactly if it is the last of those that the sound was set to, so between two ends the
sound was set anew, and a sound that does not run can not end. -/
theorem timers_count_from_last_setting (program : Program) (host : H) (random : RandomStream)
    (actions : List (Action H)) :
    let start := initial program host random
    (∀ t, ∃ v since, start.LastSet t actions v since) ∧
    (∀ t v since, start.LastSet t actions v since →
      ((start.perform actions).timer t).value.toNat = v.toNat - ticks since) ∧
    (∀ v since, start.LastSet .sound actions v since →
      ((start.perform actions).countDown.result = true ↔
        0 < v.toNat ∧ ticks since + 1 = v.toNat)) ∧
    (∀ before between, actions = before ++ .countDown :: between →
      (start.perform before).countDown.result = true →
      (start.perform actions).countDown.result = true →
      ∃ early late v, between = early ++ .cycle :: late ∧
        (start.perform (before ++ .countDown :: early)).Sets .sound v ∧ 0 < v.toNat) ∧
    ((start.perform actions).sound.value = 0 →
      (start.perform actions).countDown.result = false) := by
  intro start
  have hzero : ∀ t, (start.timer t).value = 0 := by
    intro t
    cases t <;> rfl
  have hvalue : ∀ t v since, start.LastSet t actions v since →
      ((start.perform actions).timer t).value.toNat = v.toNat - ticks since :=
    fun t v since h => toNat_timer_of_lastSet (hzero t) h
  refine ⟨fun t => start.exists_lastSet t actions, hvalue, ?_, ?_, ?_⟩
  · intro v since h
    rw [countDown_ends_iff, hvalue .sound v since h]
    omega
  · intro before between hsplit first second
    rw [hsplit] at second
    exact sets_between_ends before between first second
  · intro hidle
    apply Bool.eq_false_iff.mpr
    intro hend
    have hone := (countDown_ends_iff _).mp hend
    change (start.perform actions).sound.value.toNat = 1 at hone
    rw [hidle] at hone
    cases hone

/-- The sound is set to three, and the third tick ends it. -/
theorem timers_count_from_three :
    let start : Machine Console :=
      initial ⟨"BEEP", [0x65, 0x03, 0xF5, 0x18], by decide⟩ Console.fresh RandomStream.zeros
    let since : List (Action Console) := [.countDown, .host Host.mark, .countDown]
    let actions := [.cycle] ++ .cycle :: since
    start.LastSet .sound actions 3 since ∧ (start.perform actions).sound.value.toNat = 1 ∧
      (start.perform actions).countDown.result = true := by
  intro start since actions
  have hword : (start.perform [.cycle]).word = 0xF518 := by decide +kernel
  have hreg : (start.perform [.cycle]).reg 5 = 3 := by decide +kernel
  have hencodes : Opcode.Encodes 0xF518 (.transfer .writeSound 5) := by
    unfold Opcode.Encodes
    decide
  have hsets : (start.perform [.cycle]).Sets .sound 3 := ⟨5, hword ▸ hencodes, hreg⟩
  have hquiet : ∀ m : Machine Console, m.Unset .sound since := by
    intro m
    simp [since, unset_cons, unset_nil]
  have hlast : start.LastSet .sound actions 3 since := .since [.cycle] hsets (hquiet _)
  have h := timers_count_from_last_setting ⟨"BEEP", [0x65, 0x03, 0xF5, 0x18], by decide⟩
    Console.fresh RandomStream.zeros actions
  exact ⟨hlast, h.2.1 .sound 3 since hlast, (h.2.2.1 3 since hlast).mpr (by decide)⟩

end Machine

end ChipEight

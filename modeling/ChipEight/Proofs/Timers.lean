import ChipEight.Emulation.Basic
import ChipEight.Proofs.Guises

/-!
The timers and the rest of the machine. Three instructions read or write a timer. All others do the
same whatever the timers show, so a tick can come before them or after them.
-/
namespace ChipEight

/-- The words `FX07`, `FX15` and `FX18`. -/
def Opcode.UsesTimers (w : Opcode) : Prop :=
  family w = 0xF ∧ (nn w = 0x07 ∨ nn w = 0x15 ∨ nn w = 0x18)

instance (w : Opcode) : Decidable w.UsesTimers :=
  inferInstanceAs (Decidable (_ ∧ _))

theorem Opcode.usesTimers_of_encodes {w : Opcode} {i : Instruction} (h : w.Encodes i)
    (uses : i.UsesTimers) : w.UsesTimers := by
  cases i with
  | transfer op x =>
    obtain ⟨hfamily, hcode, -⟩ := h
    refine ⟨hfamily, ?_⟩
    cases op with
    | readDelay => exact .inl hcode
    | writeDelay => exact .inr (.inl hcode)
    | writeSound => exact .inr (.inr hcode)
    | _ => cases uses
  | _ => cases uses

namespace Machine

variable {H : Type}

def withTimers (m : Machine H) (delay sound : Countdown) : Machine H :=
  { m with delay := delay, sound := sound }

theorem state_tick (m : Machine H) : m.tick.state = m.withTimers m.delay.tick m.sound.tick := rfl

variable [Host H]

theorem cycle_withTimers {m : Machine H} (delay sound : Countdown) (h : ¬ m.word.UsesTimers) :
    (m.withTimers delay sound).cycle = m.cycle.within (·.withTimers delay sound) := by
  let guise : Guise H H := ⟨id, fun _ => delay, fun _ => sound, id⟩
  have hunnoticed : ∀ i, m.word.Encodes i → Unnoticed guise m.index i := by
    intro i hi
    refine ⟨rfl, fun _ => rfl, fun uses => ?_, Host.View.same⟩
    exact absurd (Opcode.usesTimers_of_encodes hi uses) h
  exact cycle_inGuise hunnoticed

/-- An instruction that leaves the timers alone fails or succeeds whatever they show. -/
theorem attempt_withTimers {m : Machine H} (policy : Policy) (delay sound : Countdown)
    (h : ¬ m.word.UsesTimers) :
    (m.withTimers delay sound).attempt policy =
      (m.attempt policy).within (·.withTimers delay sound) := by
  unfold attempt
  rw [cycle_withTimers delay sound h]
  dsimp only [Turn.result_within]
  cases m.cycle.result with
  | ok signal => rfl
  | error fault => cases policy <;> rfl

theorem timers_attempt {m : Machine H} (policy : Policy) (h : ¬ m.word.UsesTimers) :
    (m.attempt policy).state.delay = m.delay ∧ (m.attempt policy).state.sound = m.sound := by
  have hself : m.attempt policy = (m.attempt policy).within (·.withTimers m.delay m.sound) :=
    attempt_withTimers policy m.delay m.sound h
  refine ⟨?_, ?_⟩
  · rw [hself]
    rfl
  · rw [hself]
    rfl

theorem attempt_tick {m : Machine H} (policy : Policy) (h : ¬ m.word.UsesTimers) :
    m.tick.state.attempt policy = (m.attempt policy).within fun m' => m'.tick.state := by
  have htimers := timers_attempt policy h
  rw [state_tick, attempt_withTimers policy _ _ h]
  unfold Turn.within
  dsimp only
  rw [state_tick, htimers.1, htimers.2]

end Machine

end ChipEight

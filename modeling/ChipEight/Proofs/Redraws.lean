import ChipEight.Proofs.Drawing
import ChipEight.Proofs.Pacing
import ChipEight.Proofs.Splitting
import ChipEight.Proofs.Waiting

/-!
What a host learns about its display. The signal of a call, the mark on the display and the pixels
themselves are written in different places, and they agree: a call that does not fail asks for a
redraw exactly if it drew, the mark is set by drawing and by nothing else, and no pixel changes
without it, not even in a call that fails.
-/
namespace ChipEight

/-- The words `00E0` and `DXYN`. -/
def Opcode.Draws (w : Opcode) : Prop := w = 0x00E0 ∨ family w = 0xD

instance (w : Opcode) : Decidable w.Draws := inferInstanceAs (Decidable (_ ∨ _))

theorem Host.Shows.apart {H : Type} [Host H] {screen : H → Screen} (shows : Host.Shows screen) :
    Host.Apart screen fun _ => () where
  keys_readCell _ _ := rfl
  keys_light _ _ := rfl
  keys_darken _ _ := rfl
  keys_mark _ := rfl
  keys_wipe _ := rfl
  keys_readKey _ _ := rfl
  display_readKey := shows.screen_readKey

namespace Machine

variable {H : Type} [Host H]

/-- The next instruction waits for a key and finds none down. -/
def Awaits (m : Machine H) : Prop := (∃ x, m.word = Opcode.awaitKey x) ∧ m.KeysUp

theorem draws_of_result {m : Machine H} {i : Instruction} (h : (m.execute i).result = .ok .draw) :
    i = .clear ∨ ∃ x y height, i = .draw x y height := by
  cases i with
  | clear => exact .inl rfl
  | draw x y height => exact .inr ⟨x, y, height, rfl⟩
  | call address | leave =>
    rw [result_execute] at h
    dsimp only at h
    split at h <;> cases h
  | transfer op x =>
    cases op with
    | awaitKey =>
      rw [result_execute] at h
      dsimp only at h
      split at h <;> cases h
    | _ => cases h
  | _ => cases h

theorem result_cycle_eq_draw_iff (m : Machine H) :
    m.cycle.result = .ok .draw ↔ m.word.Draws := by
  constructor
  · intro h
    rcases m.word_cases with hunused | ⟨i, hi⟩
    · rw [cycle_of_unused hunused] at h
      cases h
    · rw [cycle_of_encodes hi, Turn.result_after] at h
      rcases draws_of_result h with rfl | ⟨x, y, height, rfl⟩
      · exact .inl hi
      · exact .inr hi.1
  · rintro (hclear | hdraw)
    · have hi : m.word.Encodes .clear := hclear
      rw [cycle_of_encodes hi]
      rfl
    · have hi : m.word.Encodes (.draw m.word.x m.word.y m.word.n) := ⟨hdraw, rfl, rfl, rfl⟩
      rw [cycle_of_encodes hi]
      rfl

theorem result_cycle_eq_wait_iff (m : Machine H) : m.cycle.result = .ok .wait ↔ m.Awaits := by
  have hanswer : ∀ x, m.word.Encodes (.transfer .awaitKey x) →
      (m.cycle.result = .ok .wait ↔ m.KeysUp) := by
    intro x hi
    rw [cycle_of_encodes hi, Turn.result_after, result_execute]
    change (if m.KeysUp then Except.ok Signal.wait else .ok .idle) = .ok .wait ↔ _
    split <;> simp [*]
  constructor
  · intro h
    rcases m.word_cases with hunused | ⟨i, hi⟩
    · rw [cycle_of_unused hunused] at h
      cases h
    · have hexecute := h
      rw [cycle_of_encodes hi, Turn.result_after] at hexecute
      obtain ⟨x, rfl⟩ := eq_awaitKey_of_wait hexecute
      exact ⟨⟨x, Opcode.encodes_awaitKey_iff.mp hi⟩, (hanswer x hi).mp h⟩
  · rintro ⟨⟨x, hword⟩, hup⟩
    exact (hanswer x (Opcode.encodes_awaitKey_iff.mpr hword)).mpr hup

/-- A policy answers for a fault with no signal. -/
theorem result_attempt_iff (policy : Policy) (m : Machine H) {signal : Signal}
    (some : signal ≠ .idle) :
    (m.attempt policy).result = .ok signal ↔ m.cycle.result = .ok signal := by
  cases h : m.cycle.result with
  | ok now => rw [attempt_of_ok h, h]
  | error fault =>
    cases policy with
    | halt => simp [attempt_halt_of_error h]
    | skip => simp [attempt_skip_of_error h, some.symm]

theorem host_attempt (policy : Policy) (m : Machine H) :
    (m.attempt policy).state.host = m.cycle.state.host := by
  unfold attempt
  dsimp only
  cases m.cycle.result with
  | ok signal => rfl
  | error fault => cases policy <;> rfl

section Display

variable {screen : H → Screen}

theorem screen_cycle_of_not_draws (shows : Host.Shows screen) {m : Machine H}
    (h : ¬ m.word.Draws) : screen m.cycle.state.host = screen m.host := by
  rcases m.cycle_cases with ⟨fault, -, hstate⟩ | ⟨i, signal, m', step, hi, hexecute, -, -, -⟩
  · rw [hstate]
    rfl
  · obtain ⟨framed, last, hstate, hframe⟩ := frame_execute shows.apart hexecute
    have hclear : i ≠ .clear := by
      rintro rfl
      exact h (.inl hi)
    have hdraw : ∀ x y height, i ≠ .draw x y height := by
      rintro x y height rfl
      exact h (.inr hi.1)
    rw [cycle_of_encodes hi, Turn.state_after, hstate]
    exact hframe.display hclear hdraw

theorem changed_cycle_of_draws (shows : Host.Shows screen) {m : Machine H} (h : m.word.Draws) :
    (screen m.cycle.state.host).changed = true := by
  rcases h with hclear | hdraw
  · have hi : m.word.Encodes .clear := hclear
    rw [cycle_of_encodes hi]
    change (screen (Host.mark (Host.wipe m.host))).changed = true
    rw [shows.mark]
    rfl
  · have hi : m.word.Encodes (.draw m.word.x m.word.y m.word.n) := ⟨hdraw, rfl, rfl, rfl⟩
    rw [cycle_of_encodes hi]
    exact changed_execute_draw shows m.fetch _ _ _

end Display

/-- The machines that the attempts among some beats find. -/
def attempted (policy : Policy) : List Beat → Machine H → List (Machine H)
  | [], _ => []
  | .attempt :: beats, m => m :: attempted policy beats (m.attempt policy).state
  | .tick :: beats, m => attempted policy beats m.tick.state

theorem attempted_append (policy : Policy) (first second : List Beat) (m : Machine H) :
    m.attempted policy (first ++ second) =
      m.attempted policy first ++ (m.follow policy first).attempted policy second := by
  induction first generalizing m with
  | nil => rfl
  | cons b beats ih =>
    cases b with
    | attempt => exact congrArg (m :: ·) (ih _)
    | tick => exact ih _

/-- The words that a play fetches are those that its attempts find. -/
theorem words_play (policy : Policy) (beats : List Beat) (m : Machine H) :
    (m.play policy beats).words =
      (m.attempted policy (m.play policy beats).beats).map word := by
  induction beats generalizing m with
  | nil => rfl
  | cons b beats ih =>
    have hfirst : (m.beat policy b).words = (m.attempted policy [b]).map word := by
      cases b with
      | attempt => exact m.words_attempt policy
      | tick => exact m.words_tick
    change ((m.beat policy b).andThen (play policy beats)).words =
      (m.attempted policy ((m.beat policy b).andThen (play policy beats)).beats).map word
    cases h : (m.beat policy b).result with
    | error fault => rw [Turn.andThen_of_error h, beats_beat, hfirst]
    | ok signal =>
      rw [Turn.words_andThen_of_ok h, Turn.beats_andThen_of_ok h, beats_beat, attempted_append,
        List.map_append, hfirst, ih]
      rfl

theorem signal_attempt {policy : Policy} {m : Machine H} {signal : Signal}
    (h : (m.attempt policy).result = .ok signal) :
    (signal = .draw ↔ m.word.Draws) ∧ (signal = .wait ↔ m.Awaits) := by
  rw [← result_cycle_eq_draw_iff, ← result_cycle_eq_wait_iff, ← m.result_attempt_iff policy,
    ← m.result_attempt_iff policy, h]
  · simp
  · decide
  · decide

/-- The strongest signal of a play without a fault. -/
theorem signal_play {policy : Policy} {beats : List Beat} {m : Machine H} {signal : Signal}
    (h : (m.play policy beats).result = .ok signal) :
    (signal = .draw ↔ ∃ found ∈ m.attempted policy beats, found.word.Draws) ∧
      (signal = .idle ↔
        ∀ found ∈ m.attempted policy beats, ¬ found.word.Draws ∧ ¬ found.Awaits) := by
  induction beats generalizing m signal with
  | nil =>
    cases h
    simp [attempted]
  | cons b beats ih =>
    obtain ⟨now, later, hnow, hlater, rfl⟩ := Turn.ok_of_andThen h
    obtain ⟨hdraw, hidle⟩ := ih hlater
    rw [Signal.strongest_eq_draw_iff, Signal.strongest_eq_idle_iff, hdraw, hidle]
    cases b with
    | attempt =>
      obtain ⟨hnowDraw, hnowWait⟩ := signal_attempt hnow
      have hnowIdle : now = .idle ↔ ¬ m.word.Draws ∧ ¬ m.Awaits := by
        rw [← hnowDraw, ← hnowWait]
        cases now <;> simp
      rw [hnowDraw, hnowIdle]
      simp [attempted, beat]
    | tick =>
      cases hnow
      simp [attempted, beat]

section Display

variable {screen : H → Screen}

theorem screen_follow_of_not_draws (shows : Host.Shows screen) {policy : Policy}
    {beats : List Beat} {m : Machine H}
    (h : ∀ found ∈ m.attempted policy beats, ¬ found.word.Draws) :
    screen (m.follow policy beats).host = screen m.host := by
  induction beats generalizing m with
  | nil => rfl
  | cons b beats ih =>
    cases b with
    | attempt =>
      have hfirst : screen (m.attempt policy).state.host = screen m.host := by
        rw [host_attempt]
        exact screen_cycle_of_not_draws shows (h m (List.mem_cons_self ..))
      exact (ih fun found hfound => h found (List.mem_cons_of_mem _ hfound)).trans hfirst
    | tick => exact ih h

theorem changed_follow_iff (shows : Host.Shows screen) (policy : Policy) (beats : List Beat)
    (m : Machine H) :
    (screen (m.follow policy beats).host).changed = true ↔
      (screen m.host).changed = true ∨ ∃ found ∈ m.attempted policy beats, found.word.Draws := by
  induction beats generalizing m with
  | nil => simp [attempted, follow]
  | cons b beats ih =>
    cases b with
    | attempt =>
      have hfirst : (screen (m.attempt policy).state.host).changed = true ↔
          (screen m.host).changed = true ∨ m.word.Draws := by
        rw [host_attempt]
        by_cases hdraws : m.word.Draws
        · simp [changed_cycle_of_draws shows hdraws, hdraws]
        · rw [screen_cycle_of_not_draws shows hdraws]
          simp [hdraws]
      change (screen ((m.attempt policy).state.follow policy beats).host).changed = true ↔ _
      rw [ih, hfirst]
      simp [attempted, or_assoc]
    | tick => exact ih m.tick.state

end Display

end Machine

namespace Emulation

variable {H : Type} [Host H] {screen : H → Screen}

/-- In a call that gives a result, the words fetched are those that its attempts find. The signal of
the call tells if one of them drew, or else if one waited in vain; the display is marked if it was
marked before or if one of them drew, and only a marked display has changed. -/
theorem changes_announced (shows : Host.Shows screen) {e : Emulation H} {elapsed : Nanos}
    {turn : Turn (Emulation H) (Except Fault Signal)} (h : e.elapse? elapsed = some turn) :
    let executed := e.machine.attempted e.settings.policy turn.beats
    let before := screen e.machine.host
    let after := screen turn.state.machine.host
    turn.words = executed.map Machine.word ∧
      (∀ m ∈ executed, m.word.Draws → m.cycle.result = .ok .draw) ∧
      (∀ signal, turn.result = .ok signal →
        (signal = .draw ↔ ∃ m ∈ executed, m.word.Draws) ∧
        (signal = .wait ↔ (¬ ∃ m ∈ executed, m.word.Draws) ∧ ∃ m ∈ executed, m.Awaits) ∧
        (signal = .idle ↔ (¬ ∃ m ∈ executed, m.word.Draws) ∧ ¬ ∃ m ∈ executed, m.Awaits)) ∧
      (after.changed = true ↔ before.changed = true ∨ ∃ m ∈ executed, m.word.Draws) ∧
      ((∃ c, after.get c ≠ before.get c) →
        after.changed = true ∧ ∀ signal, turn.result = .ok signal → signal = .draw) := by
  obtain ⟨cycles, cpu, ticks, timer, -, -, rfl⟩ := eq_play_of_elapse? h
  intro executed before after
  have hafter : after = screen (e.machine.follow e.settings.policy
      (e.machine.play e.settings.policy (schedule cycles ticks)).beats).host :=
    congrArg (fun m => screen m.host) (e.machine.state_play e.settings.policy _)
  have hchanged : after.changed = true ↔
      before.changed = true ∨ ∃ m ∈ executed, m.word.Draws := by
    rw [hafter]
    exact Machine.changed_follow_iff shows e.settings.policy _ e.machine
  have hsignal : ∀ signal,
      (e.machine.play e.settings.policy (schedule cycles ticks)).result = .ok signal →
        (signal = .draw ↔ ∃ m ∈ executed, m.word.Draws) ∧
        (signal = .idle ↔ (¬ ∃ m ∈ executed, m.word.Draws) ∧ ¬ ∃ m ∈ executed, m.Awaits) := by
    intro signal hok
    have hexecuted : executed = e.machine.attempted e.settings.policy (schedule cycles ticks) :=
      congrArg (fun beats => e.machine.attempted e.settings.policy beats)
        (Machine.beats_play_of_ok hok)
    obtain ⟨hdraw, hidle⟩ := Machine.signal_play hok
    rw [hexecuted, hdraw, hidle]
    simp [forall_and]
  have hdrew : (∃ c, after.get c ≠ before.get c) → ∃ m ∈ executed, m.word.Draws := by
    intro ⟨c, hc⟩
    apply Classical.byContradiction
    intro hnone
    have hsame : after = before := by
      rw [hafter]
      exact Machine.screen_follow_of_not_draws shows fun m hm hdraws => hnone ⟨m, hm, hdraws⟩
    exact hc (congrArg (Screen.get · c) hsame)
  refine ⟨e.machine.words_play e.settings.policy _, ?_, ?_, hchanged, ?_⟩
  · intro m _ hdraws
    exact m.result_cycle_eq_draw_iff.mpr hdraws
  · intro signal hok
    obtain ⟨hdraw, hidle⟩ := hsignal signal hok
    refine ⟨hdraw, ?_, hidle⟩
    have hwait : signal = .wait ↔ signal ≠ .draw ∧ signal ≠ .idle := by cases signal <;> simp
    rw [hwait, ne_eq, ne_eq, hdraw, hidle]
    grind
  · intro hpixel
    refine ⟨hchanged.mpr (.inr (hdrew hpixel)), ?_⟩
    intro signal hok
    exact (hsignal signal hok).1.mpr (hdrew hpixel)

/-- A glyph is drawn, a return without a call is passed over, and no key is down. -/
theorem changes_announced_of_a_glyph :
    let e : Emulation Console :=
      ⟨Machine.initial ⟨"GLYPH", [0xD0, 0x05, 0x00, 0xEE, 0xF0, 0x0A], by decide⟩ Console.fresh
          RandomStream.zeros,
        ⟨2000000, 0, by decide, by decide⟩, ⟨16666666, 0, by decide, by decide⟩,
        ⟨500, 60, .skip⟩⟩
    Host.Shows Console.screen ∧ ∃ turn, e.elapse? 6000000 = some turn ∧
      turn.words = [0xD005, 0x00EE, 0xF00A] ∧ turn.result = .ok .draw ∧
      turn.state.machine.host.screen.changed = true := by
  intro e
  have hfits : e.Fits 6000000 := by constructor <;> decide
  have hcycles : e.cpu.due 6000000 = 3 := by decide
  have hticks : e.timer.due 6000000 = 0 := by decide
  have helapse : e.elapse? 6000000 =
      some ((e.machine.play .skip (schedule 3 0)).within (e.settle 6000000)) := by
    rw [e.elapse?_eq hfits, hcycles, hticks]
  obtain ⟨hwords, -, -, -, hpixel⟩ := changes_announced Console.shows helapse
  have hlit : (e.machine.play .skip (schedule 3 0)).state.host.screen.get ⟨0, 0⟩ ≠
      e.machine.host.screen.get ⟨0, 0⟩ := by decide +kernel
  obtain ⟨hmark, hdraw⟩ := hpixel ⟨⟨0, 0⟩, hlit⟩
  have hok := e.machine.result_play_skip (schedule 3 0)
  exact ⟨Console.shows, _, helapse, hwords.trans (by decide +kernel),
    hok.trans (congrArg Except.ok (hdraw _ hok)), hmark⟩

end Emulation

end ChipEight

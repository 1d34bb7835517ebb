import ChipEight.Proofs.Policies
import ChipEight.Proofs.Schedule

/-!
Where beats lead. The beats that took place in a turn can be read off its messages, and a play has
led to the machine that these beats lead to, one after the other. Where faults are passed over,
nothing ends a play before its last beat.
-/
namespace ChipEight

/-- The beat that a message reports. -/
def Message.beat? : Message → Option Beat
  | .fetched _ _ => some .attempt
  | .ticked _ _ => some .tick
  | _ => none

theorem Message.OfInstruction.beat?_eq_none {message : Message} (h : message.OfInstruction) :
    message.beat? = none := by
  cases message with
  | fetched | ticked => cases h
  | _ => rfl

namespace Turn

variable {S A : Type}

/-- The attempts and the ticks of a turn, in order, read off its messages. -/
def beats (turn : Turn S A) : List Beat := turn.messages.filterMap Message.beat?

variable {turn : Turn S (Except Fault Signal)} {next : S → Turn S (Except Fault Signal)}

theorem beats_andThen_of_ok {signal : Signal} (h : turn.result = .ok signal) :
    (turn.andThen next).beats = turn.beats ++ (next turn.state).beats := by
  rw [andThen_of_ok h]
  exact List.filterMap_append

end Turn

namespace Machine

variable {H : Type}

theorem beats_tick (m : Machine H) : m.tick.beats = [.tick] := filterMap_messages_tick rfl m

variable [Host H]

theorem beats_attempt (policy : Policy) (m : Machine H) :
    (m.attempt policy).beats = [.attempt] :=
  filterMap_messages_attempt (fun _ h => h.beat?_eq_none) (fun _ _ => rfl) (fun _ => rfl) policy m

theorem beats_beat (policy : Policy) (m : Machine H) (b : Beat) : (m.beat policy b).beats = [b] := by
  cases b with
  | attempt => exact m.beats_attempt policy
  | tick => exact m.beats_tick

/-- The machine behind some beats, whatever came of them. -/
def follow (policy : Policy) (m : Machine H) (beats : List Beat) : Machine H :=
  beats.foldl (fun m b => (m.beat policy b).state) m

/-- The strongest signal that some beats give. A fault gives none. -/
def strongestOver (policy : Policy) (m : Machine H) : List Beat → Signal
  | [] => .idle
  | b :: beats =>
    let turn := m.beat policy b
    (turn.result.toOption.getD .idle).strongest (turn.state.strongestOver policy beats)

/-- A play leads where its beats lead. -/
theorem state_play (policy : Policy) (beats : List Beat) (m : Machine H) :
    (m.play policy beats).state = m.follow policy (m.play policy beats).beats := by
  induction beats generalizing m with
  | nil => rfl
  | cons b beats ih =>
    have hbeat : (m.beat policy b).beats = [b] := m.beats_beat policy b
    change ((m.beat policy b).andThen (play policy beats)).state =
      m.follow policy ((m.beat policy b).andThen (play policy beats)).beats
    cases h : (m.beat policy b).result with
    | error fault =>
      rw [Turn.andThen_of_error h, hbeat]
      rfl
    | ok signal =>
      rw [Turn.beats_andThen_of_ok h, hbeat, Turn.andThen_of_ok h]
      exact ih _

/-- A play without a fault is played to its end. -/
theorem beats_play_of_ok {policy : Policy} {beats : List Beat} {m : Machine H} {signal : Signal}
    (h : (m.play policy beats).result = .ok signal) : (m.play policy beats).beats = beats := by
  induction beats generalizing m signal with
  | nil => rfl
  | cons b beats ih =>
    obtain ⟨now, later, hnow, hlater, -⟩ := Turn.ok_of_andThen h
    change ((m.beat policy b).andThen (play policy beats)).beats = b :: beats
    rw [Turn.beats_andThen_of_ok hnow, m.beats_beat policy b, ih hlater]
    rfl

theorem state_play_of_ok {policy : Policy} {beats : List Beat} {m : Machine H} {signal : Signal}
    (h : (m.play policy beats).result = .ok signal) :
    (m.play policy beats).state = m.follow policy beats := by
  rw [state_play, beats_play_of_ok h]

theorem result_beat_skip (m : Machine H) (b : Beat) :
    ∃ signal, (m.beat .skip b).result = .ok signal := by
  cases b with
  | attempt => exact m.result_attempt_skip
  | tick => exact ⟨.idle, rfl⟩

/-- What is passed over does not end a play, so every beat counts. -/
theorem result_play_skip (beats : List Beat) (m : Machine H) :
    (m.play .skip beats).result = .ok (m.strongestOver .skip beats) := by
  induction beats generalizing m with
  | nil => rfl
  | cons b beats ih =>
    obtain ⟨signal, hsignal⟩ := m.result_beat_skip b
    change ((m.beat .skip b).andThen (play .skip beats)).result = _
    unfold strongestOver
    dsimp only
    rw [Turn.result_andThen_of_ok hsignal (ih _), hsignal]
    rfl

end Machine

end ChipEight

import ChipEight.Host.Console
import ChipEight.Proofs.Messages
import ChipEight.Proofs.Schedule
import ChipEight.Proofs.Timers

/-!
Splitting time does not change the machine. The schedules of several spans, one behind the other,
have the same beats as the schedule of their sum, in another order; and a tick can change places
with any instruction that leaves the timers alone.
-/
namespace ChipEight

def Message.word? : Message → Option Opcode
  | .fetched _ w => some w
  | _ => none

theorem Message.OfInstruction.word?_eq_none {message : Message} (h : message.OfInstruction) :
    message.word? = none := by
  cases message with
  | fetched => cases h
  | _ => rfl

/-- The words fetched in a turn. -/
def Turn.words {S A : Type} (turn : Turn S A) : List Opcode := turn.messages.filterMap Message.word?

/-- No word fetched in the turn reads or writes a timer. -/
def Turn.SparesTimers {S A : Type} (turn : Turn S A) : Prop := ∀ w ∈ turn.words, ¬ w.UsesTimers

instance {S A : Type} (turn : Turn S A) : Decidable turn.SparesTimers :=
  List.decidableBAll (fun w : Opcode => ¬ w.UsesTimers) turn.words

namespace Machine

variable {H : Type}

theorem words_tick (m : Machine H) : m.tick.words = [] := filterMap_messages_tick rfl m

variable [Host H]

/-- An attempt fetches the word at the program counter, and no other. -/
theorem words_attempt (policy : Policy) (m : Machine H) : (m.attempt policy).words = [m.word] :=
  filterMap_messages_attempt (fun _ h => h.word?_eq_none) (fun _ _ => rfl) (fun _ => rfl) policy m

end Machine

namespace Turn

variable {S : Type}

/-- Two turns with the same end and the same words fetched. Where they failed may differ. -/
structure Agrees (t u : Turn S (Except Fault Signal)) : Prop where
  result : t.result = u.result
  state : ∀ signal, t.result = .ok signal → t.state = u.state
  words : t.words = u.words

theorem Agrees.refl (t : Turn S (Except Fault Signal)) : t.Agrees t := ⟨rfl, fun _ _ => rfl, rfl⟩

theorem Agrees.symm {t u : Turn S (Except Fault Signal)} (h : t.Agrees u) : u.Agrees t where
  result := h.result.symm
  state := fun signal hu => (h.state signal (h.result.trans hu)).symm
  words := h.words.symm

theorem Agrees.trans {t u v : Turn S (Except Fault Signal)} (h : t.Agrees u) (h' : u.Agrees v) :
    t.Agrees v where
  result := h.result.trans h'.result
  state := fun signal ht => (h.state signal ht).trans (h'.state signal (h.result ▸ ht))
  words := h.words.trans h'.words

theorem words_andThen_of_ok {t : Turn S (Except Fault Signal)}
    {next : S → Turn S (Except Fault Signal)} {signal : Signal} (h : t.result = .ok signal) :
    (t.andThen next).words = t.words ++ (next t.state).words := by
  rw [andThen_of_ok h]
  exact List.filterMap_append

theorem Agrees.andThen {t : Turn S (Except Fault Signal)}
    {next next' : S → Turn S (Except Fault Signal)}
    (h : ∀ signal, t.result = .ok signal → (next t.state).Agrees (next' t.state)) :
    (t.andThen next).Agrees (t.andThen next') := by
  cases ht : t.result with
  | error fault =>
    rw [andThen_of_error ht, andThen_of_error ht]
    exact .refl t
  | ok signal =>
    have hnext := h signal ht
    refine ⟨?_, ?_, ?_⟩
    · rw [andThen_of_ok ht, andThen_of_ok ht, hnext.result]
    · intro both hboth
      rcases ok_of_andThen hboth with ⟨now, later, -, hlater, -⟩
      rw [andThen_of_ok ht, andThen_of_ok ht]
      exact hnext.state later hlater
    · rw [words_andThen_of_ok ht, words_andThen_of_ok ht, hnext.words]

end Turn

namespace Machine

variable {H : Type} [Host H]

theorem words_play_tick (policy : Policy) (beats : List Beat) (m : Machine H) :
    (m.play policy (.tick :: beats)).words = (m.tick.state.play policy beats).words := by
  have hnone : m.tick.messages.filterMap Message.word? = [] := m.words_tick
  rw [play_tick]
  unfold Turn.words
  rw [Turn.messages_after, List.filterMap_append, hnone, List.nil_append]

theorem word_mem_words (policy : Policy) (beats : List Beat) (m : Machine H) :
    m.word ∈ (m.play policy (.attempt :: beats)).words := by
  have hword : m.word ∈ (m.attempt policy).words := by
    rw [words_attempt]
    exact List.mem_singleton_self _
  change m.word ∈ ((m.attempt policy).andThen (play policy beats)).words
  cases h : (m.attempt policy).result with
  | error fault =>
    rw [Turn.andThen_of_error h]
    exact hword
  | ok signal =>
    rw [Turn.words_andThen_of_ok h]
    exact List.mem_append_left _ hword

/-- A tick can come before an instruction that leaves the timers alone, or behind it. -/
theorem agrees_swap {m : Machine H} (policy : Policy) (beats : List Beat)
    (h : ¬ m.word.UsesTimers) :
    (m.play policy (.attempt :: .tick :: beats)).Agrees
      (m.play policy (.tick :: .attempt :: beats)) := by
  have hfirst : m.play policy (.attempt :: .tick :: beats) =
      (m.attempt policy).andThen (play policy (.tick :: beats)) := rfl
  have hsecond : m.tick.state.play policy (.attempt :: beats) =
      ((m.attempt policy).within fun m' => m'.tick.state).andThen (play policy beats) := by
    rw [← attempt_tick policy h]
    rfl
  have hsame : ((m.attempt policy).within fun m' => m'.tick.state).result =
      (m.attempt policy).result := rfl
  cases ht : (m.attempt policy).result with
  | error fault =>
    rw [Turn.andThen_of_error ht] at hfirst
    rw [Turn.andThen_of_error (hsame.trans ht)] at hsecond
    refine ⟨?_, ?_, ?_⟩
    · rw [hfirst, play_tick, hsecond]
      rfl
    · intro signal hok
      rw [hfirst, ht] at hok
      cases hok
    · rw [hfirst, words_play_tick, hsecond]
      rfl
  | ok signal =>
    refine ⟨?_, ?_, ?_⟩
    · rw [hfirst, play_tick, hsecond, Turn.andThen_of_ok ht, Turn.result_after,
        Turn.andThen_of_ok (hsame.trans ht), play_tick]
      rfl
    · intro _ _
      rw [hfirst, play_tick, hsecond, Turn.andThen_of_ok ht, Turn.state_after,
        Turn.andThen_of_ok (hsame.trans ht), play_tick]
      rfl
    · rw [hfirst, words_play_tick, hsecond, Turn.words_andThen_of_ok ht, words_play_tick,
        Turn.words_andThen_of_ok (hsame.trans ht)]
      rfl

theorem agrees_of_perm {policy : Policy} {first second : List Beat} (h : first.Perm second)
    (m : Machine H) (spares : (m.play policy first).SparesTimers) :
    (m.play policy first).Agrees (m.play policy second) := by
  -- A permutation is made of swaps of neighbours, and only unequal neighbours matter.
  induction h generalizing m with
  | nil => exact .refl _
  | cons b h ih =>
    apply Turn.Agrees.andThen
    intro signal hok
    apply ih
    intro w hw
    apply spares w
    change w ∈ ((m.beat policy b).andThen (play policy _)).words
    rw [Turn.words_andThen_of_ok hok]
    exact List.mem_append_right _ hw
  | swap b c beats =>
    cases b with
    | attempt =>
      cases c with
      | attempt => exact .refl _
      | tick =>
        have hword : ¬ m.word.UsesTimers := by
          apply spares
          rw [words_play_tick]
          exact word_mem_words policy beats m.tick.state
        exact (agrees_swap policy beats hword).symm
    | tick =>
      cases c with
      | attempt => exact agrees_swap policy beats (spares _ (word_mem_words policy _ m))
      | tick => exact .refl _
  | trans h h' ih ih' =>
    have hagrees := ih m spares
    apply hagrees.trans
    apply ih' m
    intro w hw
    rw [← hagrees.words] at hw
    exact spares w hw

end Machine

def schedules (cpu timer : Cadence) : List Nanos → List Beat
  | [] => []
  | span :: spans =>
    schedule (cpu.due span) (timer.due span) ++ schedules (cpu.rest span) (timer.rest span) spans

theorem count_attempt_schedules (cpu timer : Cadence) (spans : List Nanos) :
    (schedules cpu timer spans).count .attempt = cpu.due (Nanos.total spans) := by
  induction spans generalizing cpu timer with
  | nil => exact cpu.due_zero.symm
  | cons span spans ih =>
    unfold schedules
    rw [List.count_append, count_attempt_schedule, ih, Nanos.total_cons, Cadence.due_add]

theorem count_tick_schedules (cpu timer : Cadence) (spans : List Nanos) :
    (schedules cpu timer spans).count .tick = timer.due (Nanos.total spans) := by
  induction spans generalizing cpu timer with
  | nil => exact timer.due_zero.symm
  | cons span spans ih =>
    unfold schedules
    rw [List.count_append, count_tick_schedule, ih, Nanos.total_cons, Cadence.due_add]

theorem schedule_perm (cpu timer : Cadence) (spans : List Nanos) :
    (schedule (cpu.due (Nanos.total spans)) (timer.due (Nanos.total spans))).Perm
      (schedules cpu timer spans) := by
  apply List.perm_iff_count.mpr
  intro b
  cases b with
  | attempt => rw [count_attempt_schedule, count_attempt_schedules]
  | tick => rw [count_tick_schedule, count_tick_schedules]

theorem Signal.foldl_strongest (first : Signal) (signals : List Signal) :
    signals.foldl Signal.strongest first =
      first.strongest (signals.foldl Signal.strongest .idle) := by
  induction signals generalizing first with
  | nil => exact (Signal.strongest_idle first).symm
  | cons signal signals ih =>
    rw [List.foldl_cons, List.foldl_cons, ih, ih (Signal.idle.strongest signal),
      Signal.idle_strongest, Signal.strongest_assoc]

namespace Emulation

variable {H : Type}

theorem Fits.first {e : Emulation H} {span later : Nanos} (h : e.Fits (span + later)) :
    e.Fits span where
  cpuClock := Nat.le_trans (Nat.add_le_add_left (Nat.le_add_right _ _) _) h.cpuClock
  timerClock := Nat.le_trans (Nat.add_le_add_left (Nat.le_add_right _ _) _) h.timerClock
  cycles := Nat.lt_of_le_of_lt (e.cpu.due_mono (Nat.le_add_right _ _)) h.cycles
  ticks := Nat.lt_of_le_of_lt (e.timer.due_mono (Nat.le_add_right _ _)) h.ticks
  product := Nat.lt_of_le_of_lt
    (Nat.mul_le_mul (e.cpu.due_mono (Nat.le_add_right _ _))
      (e.timer.due_mono (Nat.le_add_right _ _))) h.product

theorem Fits.later {e : Emulation H} {span later : Nanos} (h : e.Fits (span + later))
    (m : Machine H) : (e.settle span m).Fits later where
  cpuClock := Nat.le_trans (Cadence.leftover_rest_add_le _ _ _) h.cpuClock
  timerClock := Nat.le_trans (Cadence.leftover_rest_add_le _ _ _) h.timerClock
  cycles := Nat.lt_of_le_of_lt (Cadence.due_rest_le _ _ _) h.cycles
  ticks := Nat.lt_of_le_of_lt (Cadence.due_rest_le _ _ _) h.ticks
  product := Nat.lt_of_le_of_lt
    (Nat.mul_le_mul (Cadence.due_rest_le _ _ _) (Cadence.due_rest_le _ _ _)) h.product

theorem settle_settle (e : Emulation H) (span later : Nanos) (m m' : Machine H) :
    (e.settle span m).settle later m' = e.settle (span + later) m' := by
  unfold settle
  rw [Cadence.rest_add, Cadence.rest_add]

theorem settle_zero (e : Emulation H) : e.settle 0 e.machine = e := by
  unfold settle
  rw [Cadence.rest_zero, Cadence.rest_zero]

variable [Host H]

def elapseEach? (e : Emulation H) : List Nanos → Option (Emulation H × List (Except Fault Signal))
  | [] => some (e, [])
  | span :: spans => do
    let turn ← e.elapse? span
    let (last, results) ← turn.state.elapseEach? spans
    pure (last, turn.result :: results)

theorem elapseEach?_eq (e : Emulation H) {spans : List Nanos} (fits : e.Fits (Nanos.total spans))
    {signal : Signal}
    (h : (e.machine.play e.settings.policy (schedules e.cpu e.timer spans)).result = .ok signal) :
    ∃ signals : List Signal,
      e.elapseEach? spans =
        some (e.settle (Nanos.total spans)
          (e.machine.play e.settings.policy (schedules e.cpu e.timer spans)).state,
          signals.map .ok) ∧
      signals.foldl Signal.strongest .idle = signal := by
  -- The next call starts where this one ends, so both the machine and the leftovers move on.
  induction spans generalizing e signal with
  | nil =>
    cases h
    refine ⟨[], ?_, rfl⟩
    unfold elapseEach?
    exact congrArg some (Prod.ext e.settle_zero.symm rfl)
  | cons span spans ih =>
    have hfirst := e.elapse?_eq fits.first
    unfold schedules at h ⊢
    rw [Machine.play_append] at h ⊢
    rcases Turn.ok_of_andThen h with ⟨now, later, hnow, hlater, rfl⟩
    rw [Turn.andThen_of_ok hnow]
    generalize e.machine.play e.settings.policy
      (schedule (e.cpu.due span) (e.timer.due span)) = turn at hfirst hnow hlater ⊢
    have hrest : (e.settle span turn.state).Fits (Nanos.total spans) := fits.later turn.state
    rcases ih (e.settle span turn.state) hrest hlater with ⟨signals, hrun, hfold⟩
    refine ⟨now :: signals, ?_, ?_⟩
    · unfold elapseEach?
      rw [hfirst, Option.bind_eq_bind, Option.bind_some, Turn.state_within, hrun,
        settle_settle, Turn.result_within, hnow]
      rfl
    · rw [List.foldl_cons, Signal.idle_strongest, Signal.foldl_strongest, hfold]

/-- One call with the sum of some spans, unless it fails or uses the timers, does the same as a
call with each of them. -/
theorem elapseEach?_of_elapse?_total (e : Emulation H) (spans : List Nanos)
    (fits : e.Fits (Nanos.total spans)) :
    ∃ turn, e.elapse? (Nanos.total spans) = some turn ∧
      ∀ signal, turn.result = .ok signal → turn.SparesTimers →
        ∃ signals : List Signal,
          e.elapseEach? spans = some (turn.state, signals.map .ok) ∧
          signals.foldl Signal.strongest .idle = signal := by
  refine ⟨_, e.elapse?_eq fits, ?_⟩
  intro signal hresult hspares
  have hagrees := Machine.agrees_of_perm (schedule_perm e.cpu e.timer spans) e.machine hspares
  have hstate := hagrees.state signal hresult
  have heach := e.elapseEach?_eq fits (hagrees.result.symm.trans hresult)
  rw [← hstate] at heach
  exact heach

/-- Of a program with a fault that is passed over, with both timers running. -/
theorem elapseEach?_in_four_spans :
    let m : Machine Console :=
      { Machine.initial ⟨"SPLIT", [0x01, 0x23, 0xC2, 0xFF, 0xF3, 0x0A], by decide⟩
          Console.fresh RandomStream.zeros with
        delay := ⟨9⟩
        sound := ⟨2⟩ }
    let e : Emulation Console :=
      ⟨m, ⟨2000000, 500000, by decide, by decide⟩, ⟨3000000, 0, by decide, by decide⟩,
        ⟨500, 333, .skip⟩⟩
    let spans : List Nanos := [3000000, 0, 1000000, 3000000]
    e.Fits (Nanos.total spans) ∧ ∃ turn, ∃ signals : List Signal,
      e.elapse? (Nanos.total spans) = some turn ∧ turn.result = .ok .wait ∧
      e.elapseEach? spans = some (turn.state, signals.map .ok) := by
  intro m e spans
  have hfits : e.Fits (Nanos.total spans) := by constructor <;> decide
  have hwait : ∀ turn ∈ e.elapse? (Nanos.total spans), turn.result.toOption = some .wait := by
    decide +kernel
  have hspares : ∀ turn ∈ e.elapse? (Nanos.total spans), turn.SparesTimers := by decide +kernel
  rcases e.elapseEach?_of_elapse?_total spans hfits with ⟨turn, hturn, h⟩
  have hresult := hwait turn hturn
  cases hok : turn.result with
  | error fault =>
    rw [hok] at hresult
    cases hresult
  | ok signal =>
    rw [hok] at hresult
    cases hresult
    rcases h .wait hok (hspares turn hturn) with ⟨signals, heach, -⟩
    exact ⟨hfits, turn, signals, hturn, hok, heach⟩

end Emulation

end ChipEight

import ChipEight.Emulation.Basic
import ChipEight.Proofs.Effects

/-!
The messages of a turn. A cycle reports the word that it fetches, and then only what its instruction
says for itself; a warning or an error comes from the policy alone.
-/
namespace ChipEight

/-- The messages that an instruction sends while it is executed. -/
def Message.OfInstruction : Message → Prop
  | .returning _ | .routineRequested _ | .awaitingKey _ => True
  | _ => False

/-- The messages of one level. -/
def Turn.sentAt {S A : Type} (turn : Turn S A) (level : Level) : List Message :=
  turn.messages.filter fun message => message.level = level

@[simp] theorem Turn.sentAt_within {S T A : Type} (embed : S → T) (turn : Turn S A)
    (level : Level) : (turn.within embed).sentAt level = turn.sentAt level := rfl

theorem Message.OfInstruction.level {message : Message} (h : message.OfInstruction) :
    message.level = .debug ∨ message.level = .trace := by
  cases message with
  | returning | routineRequested => exact .inl rfl
  | awaitingKey => exact .inr rfl
  | _ => cases h

namespace Machine

variable {H : Type} [Host H]

theorem ofInstruction_of_mem_awaitKey {m : Machine H} {x : Register} {message : Message}
    (h : message ∈ (m.awaitKey x).messages) : message.OfInstruction := by
  unfold awaitKey at h
  cases hfound : Host.firstPressed m.host (List.finRange 16) with
  | mk found host =>
    rw [hfound] at h
    cases found with
    | some k => cases h
    | none =>
      change message ∈ (if m.run = .running then [Message.awaitingKey x] else []) ++ [] at h
      rw [List.append_nil] at h
      split at h
      · rw [List.mem_singleton.mp h]
        trivial
      · cases h

theorem ofInstruction_of_mem_execute {m : Machine H} {i : Instruction} {message : Message}
    (h : message ∈ (m.execute i).messages) : message.OfInstruction := by
  cases i with
  | leave =>
    dsimp only [execute, leave] at h
    cases hstack : m.stack with
    | nil =>
      rw [hstack] at h
      cases h
    | cons origin outer =>
      rw [hstack] at h
      rw [List.mem_singleton.mp h]
      trivial
  | routine address =>
    rw [List.mem_singleton.mp h]
    trivial
  | call address =>
    dsimp only [execute, call] at h
    split at h <;> cases h
  | draw x y height =>
    rcases m.draw_eq x y height with ⟨host, collision, hdraw⟩
    dsimp only [execute] at h
    rw [hdraw] at h
    cases h
  | transfer op x =>
    cases op with
    | awaitKey => exact ofInstruction_of_mem_awaitKey h
    | _ => cases h
  | _ => cases h

/-- The fetch is reported first, and only once. -/
theorem messages_cycle (m : Machine H) :
    ∃ sent, m.cycle.messages = .fetched m.pc m.word :: sent ∧
      ∀ message ∈ sent, message.OfInstruction := by
  rcases m.word_cases with hunused | ⟨i, hi⟩
  · rw [cycle_of_unused hunused]
    exact ⟨[], rfl, fun _ h => absurd h List.not_mem_nil⟩
  · rw [cycle_of_encodes hi]
    exact ⟨_, rfl, fun _ h => ofInstruction_of_mem_execute h⟩

section Readings

variable {A : Type} {f : Message → Option A}

/-- What can be read off a cycle by those who do not listen to instructions. -/
theorem filterMap_messages_cycle (silent : ∀ message, message.OfInstruction → f message = none)
    (m : Machine H) : m.cycle.messages.filterMap f = [.fetched m.pc m.word].filterMap f := by
  rcases m.messages_cycle with ⟨sent, hmessages, hsent⟩
  have hnone : sent.filterMap f = [] :=
    List.filterMap_eq_nil_iff.mpr fun message hmem => silent message (hsent message hmem)
  rw [hmessages, List.filterMap_cons, hnone]
  rfl

theorem filterMap_messages_attempt (silent : ∀ message, message.OfInstruction → f message = none)
    (halted : ∀ name fault, f (.halted name fault) = none)
    (skipped : ∀ fault, f (.skipped fault) = none) (policy : Policy) (m : Machine H) :
    (m.attempt policy).messages.filterMap f = [.fetched m.pc m.word].filterMap f := by
  have hcycle := filterMap_messages_cycle silent m
  unfold attempt
  dsimp only
  cases m.cycle.result with
  | ok signal => exact hcycle
  | error fault =>
    cases policy with
    | halt => rw [List.filterMap_append, hcycle, List.filterMap_cons_none (halted _ fault),
        List.filterMap_nil, List.append_nil]
    | skip => rw [List.filterMap_append, hcycle, List.filterMap_cons_none (skipped fault),
        List.filterMap_nil, List.append_nil]

omit [Host H] in
theorem filterMap_messages_tick (silent : f .soundEnded = none) (m : Machine H) :
    m.tick.messages.filterMap f = [.ticked m.delay.value m.sound.value].filterMap f := by
  have hnone : (m.countDown.messages).filterMap f = [] := by
    unfold countDown
    dsimp only
    split
    · rw [List.filterMap_cons_none silent, List.filterMap_nil]
    · rfl
  unfold tick
  rw [Turn.messages_after, List.filterMap_append, hnone, List.append_nil]

end Readings

theorem sentAt_cycle (m : Machine H) {level : Level} (debug : level ≠ .debug)
    (trace : level ≠ .trace) : m.cycle.sentAt level = [] := by
  rcases m.messages_cycle with ⟨sent, hmessages, hsent⟩
  unfold Turn.sentAt
  rw [hmessages]
  apply List.filter_eq_nil_iff.mpr
  intro message hmem
  have hlevel : message.level = .debug ∨ message.level = .trace := by
    rcases List.mem_cons.mp hmem with rfl | hmem
    · exact .inl rfl
    · exact (hsent message hmem).level
  rcases hlevel with hlevel | hlevel <;> rw [hlevel]
  · simpa using Ne.symm debug
  · simpa using Ne.symm trace

/-- What a policy adds to a cycle is all that there can be of a warning or an error. -/
theorem sentAt_cycle_append {A : Type} (m : Machine H) (state : Machine H) (result : A)
    (message : Message) {level : Level} (debug : level ≠ .debug) (trace : level ≠ .trace) :
    Turn.sentAt ⟨state, result, m.cycle.messages ++ [message]⟩ level =
      [message].filter fun message => message.level = level := by
  have hcycle := m.sentAt_cycle debug trace
  unfold Turn.sentAt at hcycle ⊢
  rw [List.filter_append, hcycle, List.nil_append]

end Machine

end ChipEight

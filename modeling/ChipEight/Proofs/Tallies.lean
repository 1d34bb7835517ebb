import ChipEight.Proofs.Redraws
import ChipEight.Tally

/-!
Tallies of steps in a row. Each step fetches one word, and so the words that were fetched tell what
has been counted: the draws are the words that draw, and a tally without a fault has counted every
step that was asked for.
-/
namespace ChipEight

namespace Tally

/-- The steps that gave a signal. -/
def total (t : Tally) : Nat := t.idle + t.wait + t.draw

theorem total_count (t : Tally) (signal : Signal) : (t.count signal).total = t.total + 1 := by
  cases signal <;> simp only [total, count] <;> omega

theorem draw_count (t : Tally) (signal : Signal) :
    (t.count signal).draw = t.draw + if signal = .draw then 1 else 0 := by
  cases signal <;> rfl

theorem fault_count (t : Tally) (signal : Signal) : (t.count signal).fault = t.fault := by
  cases signal <;> rfl

variable {S : Type}

/-- A step that fetches one word, and asks for a redraw exactly if the word draws. -/
structure ByWords (step : S → Turn S (Except Fault Signal)) (word : S → Opcode) : Prop where
  words : ∀ s, (step s).words = [word s]
  draws : ∀ s, (step s).result = .ok .draw ↔ (word s).Draws

/-- The state after some steps, whatever came of them. -/
def reached (step : S → Turn S (Except Fault Signal)) : Nat → S → S
  | 0, s => s
  | n + 1, s => reached step n (step s).state

/-- How the words of a turn tell its tally and its state, where the turn has begun with the tally `t`
and has made up to `n` steps from `s`. The draws are the words that draw, every step is counted but
one that failed, and only such a step ends the turn early. -/
structure Tells (step : S → Turn S (Except Fault Signal)) (n : Nat) (s : S) (t : Tally)
    (turn : Turn S Tally) (words : List Opcode) : Prop where
  draws : turn.result.draw = t.draw + words.countP (·.Draws)
  steps : turn.result.total + turn.result.fault.toList.length = t.total + words.length
  le : words.length ≤ n
  all : turn.result.fault = none → words.length = n
  state : turn.state = reached step words.length s
  last : ∀ fault, turn.result.fault = some fault →
    ∃ k, words.length = k + 1 ∧ (step (reached step k s)).result = .error fault

section Further

variable {step : S → Turn S (Except Fault Signal)} {word : S → Opcode} {n : Nat} {s : S} {t : Tally}
  {words : List Opcode}

theorem tells_nil (free : t.fault = none) (log : List Message) : Tells step 0 s t ⟨s, t, log⟩ [] where
  draws := rfl
  steps := congrArg (t.total + ·.toList.length) free
  le := Nat.le_refl 0
  all _ := rfl
  state := rfl
  last fault h := by cases free.symm.trans h

theorem tells_of_error (byWords : ByWords step word) {fault : Fault}
    (h : (step s).result = .error fault) (log : List Message) :
    Tells step (n + 1) s t ⟨(step s).state, { t with fault := some fault }, log⟩ [word s] where
  draws := by
    have hlast : ¬ (word s).Draws := by
      rw [← byWords.draws, h]
      simp
    simp [hlast]
  steps := rfl
  le := Nat.succ_pos n
  all hnone := by cases hnone
  state := rfl
  last := by
    rintro _ ⟨⟩
    exact ⟨0, rfl, h⟩

theorem tells_of_ok (byWords : ByWords step word) {signal : Signal}
    (h : (step s).result = .ok signal) {turn : Turn S Tally}
    (later : Tells step n (step s).state (t.count signal) turn words) :
    Tells step (n + 1) s t turn (word s :: words) where
  draws := by
    have hword : (word s).Draws ↔ signal = .draw := by
      rw [← byWords.draws, h]
      simp
    rw [later.draws, draw_count, List.countP_cons]
    simp only [decide_eq_true_eq, hword]
    omega
  steps := by
    rw [later.steps, total_count, List.length_cons]
    omega
  le := Nat.succ_le_succ later.le
  all hnone := by rw [List.length_cons, later.all hnone]
  state := later.state
  last fault hfault := by
    obtain ⟨k, hk, hlast⟩ := later.last fault hfault
    exact ⟨k + 1, congrArg (· + 1) hk, hlast⟩

/-- What further steps add to a tally is told by the words that they add to the log. -/
theorem further_by_words (byWords : ByWords step word) (n : Nat) (s : S) (free : t.fault = none)
    (log : Array Message) :
    ∃ words, (further step n s t log).words = log.toList.filterMap Message.word? ++ words ∧
      Tells step n s t (further step n s t log) words := by
  induction n generalizing s t log with
  | zero => exact ⟨[], (List.append_nil _).symm, tells_nil free _⟩
  | succ n ih =>
    have hfetched : (log ++ (step s).messages).toList.filterMap Message.word? =
        log.toList.filterMap Message.word? ++ [word s] := by
      rw [Array.toList_appendList, List.filterMap_append]
      exact congrArg (_ ++ ·) (byWords.words s)
    unfold further
    dsimp only
    cases h : (step s).result with
    | error fault => exact ⟨[word s], hfetched, tells_of_error byWords h _⟩
    | ok signal =>
      obtain ⟨words, hwords, hlater⟩ :=
        ih (step s).state ((t.fault_count signal).trans free) (log ++ (step s).messages)
      refine ⟨word s :: words, ?_, tells_of_ok byWords h hlater⟩
      rw [hwords, hfetched, List.append_assoc]
      rfl

/-- Steps in a row, up to the first fault: the tally and the state are told by the words that were
fetched. -/
theorem ofSteps_by_words (byWords : ByWords step word) (n : Nat) (s : S) :
    Tells step n s zero (ofSteps step n s) (ofSteps step n s).words := by
  obtain ⟨words, hwords, htells⟩ := further_by_words byWords n s (t := zero) rfl #[]
  have hfetched : (ofSteps step n s).words = words := hwords
  rw [hfetched]
  exact htells

end Further

end Tally

variable {H : Type} [Host H]

theorem Machine.byWords_cycle : Tally.ByWords (Machine.cycle (H := H)) Machine.word where
  words m := filterMap_messages_cycle (fun _ h => h.word?_eq_none) m
  draws m := m.result_cycle_eq_draw_iff

theorem Emulation.byWords_step :
    Tally.ByWords (Emulation.step (H := H)) fun e => e.machine.word where
  words e := e.machine.words_attempt e.settings.policy
  draws e := (e.machine.result_attempt_iff e.settings.policy (by decide)).trans
    e.machine.result_cycle_eq_draw_iff

end ChipEight

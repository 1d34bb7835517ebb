import ChipEight.Proofs.History

/-!
Sessions: one input after the other, and what is heard of each. Two machines are in lockstep if an
input that finds them related sounds alike on both and leaves them related; then whole sessions
sound alike, however long they are.
-/
namespace ChipEight

/-- What is heard of one input. -/
inductive Answer where
  | outcome (result : Except Fault Signal)
  | flag (value : Bool)
  | done

namespace Turn

variable {S T A B : Type}

/-- The same turn, with another reading of what came of it. -/
def map (f : A → B) (t : Turn S A) : Turn S B := ⟨t.state, f t.result, t.messages⟩

@[simp] theorem state_map (f : A → B) (t : Turn S A) : (t.map f).state = t.state := rfl

/-- Two turns that sound alike and end in related states. -/
structure Matches (R : S → T → Prop) (t : Turn S A) (u : Turn T A) : Prop where
  state : R t.state u.state
  result : t.result = u.result
  messages : t.messages = u.messages

theorem matches_within {R : S → T → Prop} {embed : S → T} {t : Turn S A}
    (h : R t.state (embed t.state)) : t.Matches R (t.within embed) := ⟨h, rfl, rfl⟩

theorem Matches.map {R : S → T → Prop} {t : Turn S A} {u : Turn T A} (h : t.Matches R u)
    (f : A → B) : (t.map f).Matches R (u.map f) :=
  ⟨h.state, congrArg f h.result, h.messages⟩

theorem Matches.after {R : S → T → Prop} {t : Turn S A} {u : Turn T A} (h : t.Matches R u)
    (earlier : List Message) : (t.after earlier).Matches R (u.after earlier) :=
  ⟨h.state, h.result, congrArg (earlier ++ ·) h.messages⟩

end Turn

namespace Session

variable {S T I A : Type}

def final (step : S → I → Turn S A) (s : S) (inputs : List I) : S :=
  inputs.foldl (fun s input => (step s input).state) s

/-- What is answered to each input, and the messages sent with it. -/
def transcript (step : S → I → Turn S A) : S → List I → List (A × List Message)
  | _, [] => []
  | s, input :: rest =>
    ((step s input).result, (step s input).messages) :: transcript step (step s input).state rest

/-- All messages of a session, the first one first. -/
def log (step : S → I → Turn S A) (s : S) (inputs : List I) : List Message :=
  (transcript step s inputs).flatMap Prod.snd

variable (step : S → I → Turn S A)

@[simp] theorem log_nil (s : S) : log step s [] = [] := rfl

@[simp] theorem log_cons (s : S) (input : I) (rest : List I) :
    log step s (input :: rest) = (step s input).messages ++ log step (step s input).state rest := by
  simp [log, transcript]

theorem log_append (s : S) (first second : List I) :
    log step s (first ++ second) = log step s first ++ log step (final step s first) second := by
  induction first generalizing s with
  | nil => rfl
  | cons input rest ih =>
    rw [List.cons_append, log_cons, log_cons, ih, List.append_assoc]
    rfl

/-- An input that finds two states related sounds alike on both and leaves them related. -/
def Lockstep (R : S → T → Prop) (step : S → I → Turn S A) (other : T → I → Turn T A) : Prop :=
  ∀ s t, R s t → ∀ input, (step s input).Matches R (other t input)

theorem Lockstep.session {R : S → T → Prop} {step : S → I → Turn S A} {other : T → I → Turn T A}
    (lockstep : Lockstep R step other) {s : S} {t : T} (start : R s t) (inputs : List I) :
    transcript step s inputs = transcript other t inputs ∧
      R (final step s inputs) (final other t inputs) := by
  induction inputs generalizing s t with
  | nil => exact ⟨rfl, start⟩
  | cons input rest ih =>
    have hfirst := lockstep s t start input
    have hrest := ih hfirst.state
    refine ⟨?_, hrest.2⟩
    simp only [transcript, hfirst.result, hfirst.messages, hrest.1]

end Session

namespace Machine

variable {H : Type} [Host H]

/-- An action with what is heard of it. -/
def heed (m : Machine H) : Action H → Turn (Machine H) Answer
  | .cycle => m.cycle.map .outcome
  | .countDown => m.countDown.map .flag
  | .passOver => ⟨m.passOver, .done, []⟩
  | .host change => ⟨{ m with host := change m.host }, .done, []⟩

theorem state_heed (m : Machine H) (action : Action H) : (m.heed action).state = m.act action := by
  cases action <;> rfl

theorem final_heed (m : Machine H) (actions : List (Action H)) :
    Session.final heed m actions = m.perform actions := by
  unfold Session.final perform
  congr 1
  funext m action
  exact m.state_heed action

end Machine

end ChipEight

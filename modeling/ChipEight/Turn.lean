import ChipEight.Message

/-!
One turn of something with a state: the state afterwards, what came of it, and the messages sent on
the way, the first one first.
-/
namespace ChipEight

structure Turn (S A : Type) where
  state : S
  result : A
  messages : List Message

namespace Turn

variable {S T A B : Type}

/-- The same turn, with the state seen as part of a larger one. -/
def within (embed : S → T) (t : Turn S A) : Turn T A := ⟨embed t.state, t.result, t.messages⟩

/-- Messages sent before the turn. -/
def after (earlier : List Message) (t : Turn S A) : Turn S A :=
  { t with messages := earlier ++ t.messages }

@[simp] theorem state_within (embed : S → T) (t : Turn S A) :
    (t.within embed).state = embed t.state := rfl

@[simp] theorem result_within (embed : S → T) (t : Turn S A) :
    (t.within embed).result = t.result := rfl

@[simp] theorem messages_within (embed : S → T) (t : Turn S A) :
    (t.within embed).messages = t.messages := rfl

@[simp] theorem state_after (earlier : List Message) (t : Turn S A) :
    (t.after earlier).state = t.state := rfl

@[simp] theorem result_after (earlier : List Message) (t : Turn S A) :
    (t.after earlier).result = t.result := rfl

@[simp] theorem messages_after (earlier : List Message) (t : Turn S A) :
    (t.after earlier).messages = earlier ++ t.messages := rfl

end Turn

end ChipEight

/-!
What an instruction asks of the surroundings. The signals are ordered by weight: a redraw outweighs
a wait for a key, and both outweigh nothing.
-/
namespace ChipEight

inductive Signal where
  | idle
  | wait
  | draw
  deriving DecidableEq, Repr

namespace Signal

/-- The heavier of two signals. -/
def strongest : Signal → Signal → Signal
  | .draw, _ => .draw
  | _, .draw => .draw
  | .wait, _ => .wait
  | _, .wait => .wait
  | .idle, .idle => .idle

/-- The strongest signal so far, after each of a list. -/
def running (strong : Signal) : List Signal → List Signal
  | [] => []
  | signal :: rest => strongest strong signal :: running (strongest strong signal) rest

@[simp] theorem strongest_idle (s : Signal) : strongest s .idle = s := by cases s <;> rfl

@[simp] theorem idle_strongest (s : Signal) : strongest .idle s = s := by cases s <;> rfl

theorem strongest_comm (s t : Signal) : strongest s t = strongest t s := by
  cases s <;> cases t <;> rfl

theorem strongest_assoc (s t u : Signal) :
    strongest (strongest s t) u = strongest s (strongest t u) := by
  cases s <;> cases t <;> cases u <;> rfl

theorem strongest_eq_draw_iff (s t : Signal) : strongest s t = .draw ↔ s = .draw ∨ t = .draw := by
  cases s <;> cases t <;> simp [strongest]

theorem strongest_eq_idle_iff (s t : Signal) : strongest s t = .idle ↔ s = .idle ∧ t = .idle := by
  cases s <;> cases t <;> simp [strongest]

end Signal

end ChipEight

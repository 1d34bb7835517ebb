import ChipEight.Proofs.Effects

/-!
Histories of a machine: cycles, timer ticks, instructions passed over, and changes that the host
makes to what it owns, in any order. The stack grows and shrinks at its inner end only, and the
program counter stays within twelve bits.
-/
namespace ChipEight

inductive Action (H : Type) where
  | cycle
  | countDown
  | passOver
  | host (change : H → H)

namespace Machine

variable {H : Type} [Host H]

def act (m : Machine H) : Action H → Machine H
  | .cycle => m.cycle.state
  | .countDown => m.countDown.state
  | .passOver => m.passOver
  | .host change => { m with host := change m.host }

def perform (m : Machine H) (actions : List (Action H)) : Machine H := actions.foldl act m

/-- Some history leads to the machine from the start of a program. -/
def Reachable (m : Machine H) : Prop :=
  ∃ program host random actions, m = (initial program host random).perform actions

@[simp] theorem perform_nil (m : Machine H) : m.perform [] = m := rfl

@[simp] theorem perform_cons (m : Machine H) (action : Action H) (rest : List (Action H)) :
    m.perform (action :: rest) = (m.act action).perform rest := rfl

theorem perform_append (m : Machine H) (first second : List (Action H)) :
    m.perform (first ++ second) = (m.perform first).perform second :=
  List.foldl_append

theorem perform_induction {P : Machine H → Prop} (step : ∀ m action, P m → P (m.act action))
    {m : Machine H} (start : P m) (actions : List (Action H)) : P (m.perform actions) := by
  induction actions generalizing m with
  | nil => exact start
  | cons action rest ih => exact ih (step m action start)

theorem toNat_pc_cycle_lt {m : Machine H} (h : m.pc.toNat < 4096) :
    m.cycle.state.pc.toNat < 4096 := by
  rcases m.cycle_cases with ⟨fault, -, hstate⟩ | ⟨i, signal, m', step, -, -, -, hstate, -⟩
  · rw [hstate]
    exact h
  · rw [hstate]
    exact step.apply_lt m'.pc

theorem toNat_pc_act_lt {m : Machine H} (h : m.pc.toNat < 4096) (action : Action H) :
    (m.act action).pc.toNat < 4096 := by
  cases action with
  | cycle => exact toNat_pc_cycle_lt h
  | countDown => exact h
  | passOver => exact Step.apply_lt .next m.pc
  | host change => exact h

/-- A cycle leaves the stack alone, puts the program counter on it, or takes one address off. -/
theorem stack_cycle (m : Machine H) :
    m.cycle.state.stack = m.stack ∨
    (m.cycle.state.stack = m.pc :: m.stack ∧ m.stack.length < stackLimit) ∨
    (∃ origin, m.stack = origin :: m.cycle.state.stack) := by
  rcases m.cycle_cases with
    ⟨fault, -, hstate⟩ | ⟨i, signal, m', step, -, hresult, -, hstate, heffect⟩
  · rw [hstate]
    exact .inl rfl
  · have hstack : m.cycle.state.stack = m'.stack := by rw [hstate]; rfl
    rw [hstack, heffect.stack]
    cases i with
    | call address =>
      rw [result_execute] at hresult
      dsimp only at hresult
      by_cases hroom : m.fetch.stack.length < stackLimit
      · exact .inr (.inl ⟨rfl, hroom⟩)
      · rw [if_neg hroom] at hresult
        cases hresult
    | leave =>
      change m.stack.tail = m.stack ∨ _ ∨ ∃ origin, m.stack = origin :: m.stack.tail
      cases m.stack with
      | nil => exact .inl rfl
      | cons origin outer => exact .inr (.inr ⟨origin, rfl⟩)
    | _ => exact .inl rfl

theorem stack_act (m : Machine H) (action : Action H) :
    (m.act action).stack = m.stack ∨
    ((m.act action).stack = m.pc :: m.stack ∧ m.stack.length < stackLimit) ∨
    (∃ origin, m.stack = origin :: (m.act action).stack) := by
  cases action with
  | cycle => exact m.stack_cycle
  | countDown | passOver | host => exact .inl rfl

end Machine

end ChipEight

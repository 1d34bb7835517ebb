import ChipEight.Host.Console
import ChipEight.Proofs.History
import Mathlib.Data.List.Infix

/-!
Calls and returns are brackets. From a call to the return that takes the stack back to its depth,
whatever happens in between, the stack of the call and the address of the call stay at the bottom,
and the return goes on behind the call.
-/
namespace ChipEight

namespace Machine

variable {H : Type} [Host H]

theorem stack_cycle_of_call {m : Machine H} (call : m.word.family = 0x2)
    (room : m.stack.length < stackLimit) : m.cycle.state.stack = m.pc :: m.stack := by
  have hi : m.word.Encodes (.call m.word.nnn) := ⟨call, rfl⟩
  have hroom : m.fetch.stack.length < stackLimit := room
  rw [cycle_of_encodes hi, Turn.state_after]
  unfold execute Machine.call
  dsimp only
  rw [if_pos hroom]
  rfl

theorem cycle_of_leave {m : Machine H} {origin : UInt16} {outer : List UInt16}
    (leave : m.word = 0x00EE) (h : m.stack = origin :: outer) :
    m.cycle.state.stack = outer ∧
      m.cycle.state.pc = Step.apply m.pc (.jump (Step.next.apply origin)) := by
  have hi : m.word.Encodes .leave := leave
  have hstack : m.fetch.stack = origin :: outer := h
  rw [cycle_of_encodes hi, Turn.state_after]
  unfold execute Machine.leave
  dsimp only
  rw [hstack]
  exact ⟨rfl, rfl⟩

theorem toNat_apply_jump_next (pc origin : UInt16) :
    (Step.apply pc (.jump (Step.next.apply origin))).toNat = (origin.toNat + 2) % 4096 := by
  rw [Step.apply_jump, Step.apply_next]
  simp only [UInt16.toNat_mod, UInt16.toNat_add, UInt16.reduceToNat]
  omega

/-- One action can not take away the lower part of the stack unless it goes below it. -/
theorem suffix_act {m : Machine H} {base : List UInt16} (start : base <:+ m.stack)
    (action : Action H) (deep : (m.act action).stack.length + 1 ≠ base.length) :
    base <:+ (m.act action).stack := by
  rcases m.stack_act action with hsame | ⟨hpush, -⟩ | ⟨origin, hpop⟩
  · rw [hsame]
    exact start
  · rw [hpush]
    exact start.trans (List.suffix_cons m.pc m.stack)
  · rw [hpop] at start
    rcases List.suffix_cons_iff.mp start with hall | hrest
    · rw [hall] at deep
      exact absurd rfl deep
    · exact hrest

theorem suffix_perform {m : Machine H} {base : List UInt16} (start : base <:+ m.stack)
    {actions : List (Action H)}
    (deep : ∀ before, before <+: actions → (m.perform before).stack.length + 1 ≠ base.length) :
    base <:+ (m.perform actions).stack := by
  induction actions generalizing m with
  | nil => exact start
  | cons action rest ih =>
    have hfirst : (m.act action).stack.length + 1 ≠ base.length :=
      deep [action] (List.prefix_append [action] rest)
    apply ih (suffix_act start action hfirst)
    intro before hbefore
    exact deep (action :: before) (List.cons_prefix_cons.mpr ⟨rfl, hbefore⟩)

theorem eq_of_suffix_of_length {origin : UInt16} {outer stack : List UInt16}
    (h : origin :: outer <:+ stack) (depth : stack.length = outer.length + 1) :
    stack = origin :: outer :=
  (h.eq_of_length (by rw [depth]; rfl)).symm

/-- A return that takes the stack back to the depth at a call is the return of that call, whatever
was done in between without going back to this depth. Up to it the stack of the call stays at the
bottom, and the return goes on behind the call. -/
theorem return_behind_call (m : Machine H) (call : m.word.family = 0x2)
    (room : m.stack.length < stackLimit) (actions : List (Action H))
    (inside : ∀ before, before <+: actions →
      (m.cycle.state.perform before).stack.length ≠ m.stack.length)
    (leave : (m.cycle.state.perform actions).word = 0x00EE)
    (back : (m.cycle.state.perform actions).cycle.state.stack.length = m.stack.length) :
    (∀ before, before <+: actions → m.pc :: m.stack <:+ (m.cycle.state.perform before).stack) ∧
    (m.cycle.state.perform actions).cycle.state.stack = m.stack ∧
    (m.cycle.state.perform actions).cycle.state.pc.toNat = (m.pc.toNat + 2) % 0x1000 := by
  have hbottom : ∀ before, before <+: actions →
      m.pc :: m.stack <:+ (m.cycle.state.perform before).stack := by
    intro before hbefore
    apply suffix_perform
    · rw [stack_cycle_of_call call room]
    · intro earlier hearlier
      have hdepth := inside earlier (hearlier.trans hbefore)
      rw [List.length_cons]
      omega
  have hlast := hbottom actions (List.prefix_refl actions)
  generalize m.cycle.state.perform actions = last at *
  cases hstack : last.stack with
  | nil =>
    rw [hstack] at hlast
    cases List.suffix_nil.mp hlast
  | cons origin outer =>
    have hreturn := cycle_of_leave leave hstack
    rw [hreturn.1] at back
    have hexact : last.stack = m.pc :: m.stack :=
      eq_of_suffix_of_length hlast (by rw [hstack, List.length_cons, back])
    rw [hstack] at hexact
    cases hexact
    refine ⟨hbottom, hreturn.1, ?_⟩
    rw [hreturn.2]
    exact toNat_apply_jump_next last.pc m.pc

/-- The routine calls another one, and the timers and the host act in between. -/
theorem return_behind_call_nested :
    let m : Machine Console :=
      initial ⟨"NEST", [0x22, 0x04, 0x00, 0x00, 0x22, 0x08, 0x00, 0xEE, 0x00, 0xEE], by decide⟩
        Console.fresh RandomStream.zeros
    let actions : List (Action Console) := [.cycle, .countDown, .host Host.mark, .cycle]
    m.word.family = 0x2 ∧ (m.cycle.state.perform actions).word = 0x00EE ∧
      (m.cycle.state.perform actions).cycle.state.stack = m.stack ∧
      (m.cycle.state.perform actions).cycle.state.pc.toNat = 0x202 := by
  intro m actions
  have hcall : m.word.family = 0x2 := by decide +kernel
  have hroom : m.stack.length < stackLimit := by decide
  have hinside : ∀ before ∈ actions.inits,
      (m.cycle.state.perform before).stack.length ≠ m.stack.length := by decide +kernel
  have hleave : (m.cycle.state.perform actions).word = 0x00EE := by decide +kernel
  have hback : (m.cycle.state.perform actions).cycle.state.stack.length = m.stack.length := by
    decide +kernel
  have hprefix : ∀ before, before <+: actions →
      (m.cycle.state.perform before).stack.length ≠ m.stack.length :=
    fun before hbefore => hinside before ((List.mem_inits before actions).mpr hbefore)
  have h := return_behind_call m hcall hroom actions hprefix hleave hback
  exact ⟨hcall, hleave, h.2⟩

end Machine

end ChipEight

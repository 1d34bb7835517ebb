import ChipEight.Machine.Basic
import Mathlib.Data.List.DropRight

/-!
Steps of the program counter, one after the other. Counted in bytes they add up from the target of
the last jump on, and it makes no difference whether a sum is cut to sixteen bits, or to the size of
memory, at every step or at the end only.
-/
namespace ChipEight

namespace Step

def target? : Step → Option UInt16
  | .jump target => some target
  | _ => none

/-- The target of the last jump, or the start if there is none. -/
def lastTarget (pc : UInt16) (steps : List Step) : UInt16 := (steps.filterMap target?).getLastD pc

/-- The steps behind the last jump. -/
def sinceJump (steps : List Step) : List Step := steps.rtakeWhile fun step => step.target?.isNone

/-- Where a step leads if memory and words have no end. -/
def unbounded (a : Nat) : Step → Nat
  | .stay => a
  | .next => a + 2
  | .skip => a + 4
  | .jump target => target.toNat

/-- Where a step leads in sixteen bits, not cut to the size of memory. -/
def uncut (pc : UInt16) : Step → UInt16
  | .stay => pc
  | .next => pc + 2
  | .skip => pc + 4
  | .jump target => target

theorem toNat_apply (step : Step) (pc : UInt16) :
    (step.apply pc).toNat = step.unbounded pc.toNat % 4096 := by
  cases step with
  | stay => exact congrArg UInt16.toNat (apply_stay pc)
  | jump target => exact congrArg UInt16.toNat (apply_jump pc target)
  | next =>
    simp only [apply_next, unbounded, UInt16.toNat_mod, UInt16.toNat_add, UInt16.reduceToNat]
    omega
  | skip =>
    simp only [apply_skip, unbounded, UInt16.toNat_mod, UInt16.toNat_add, UInt16.reduceToNat]
    omega

theorem toNat_apply_when (condition : Bool) (pc : UInt16) :
    ((Step.when condition).apply pc).toNat = (pc.toNat + if condition then 4 else 2) % 4096 := by
  cases condition with
  | false => exact toNat_apply .next pc
  | true => exact toNat_apply .skip pc

theorem toNat_uncut_mod (step : Step) (pc : UInt16) :
    (step.uncut pc).toNat % 4096 = step.unbounded pc.toNat % 4096 := by
  cases step with
  | stay | jump => rfl
  | next | skip =>
    simp only [uncut, unbounded, UInt16.toNat_add, UInt16.reduceToNat]
    omega

theorem apply_stay_of_lt {pc : UInt16} (h : pc.toNat < 4096) : stay.apply pc = pc := by
  apply UInt16.toNat_inj.mp
  rw [toNat_apply]
  exact Nat.mod_eq_of_lt h

theorem apply_skip_eq (pc : UInt16) : skip.apply pc = next.apply (next.apply pc) := by
  apply UInt16.toNat_inj.mp
  simp only [toNat_apply, unbounded]
  omega

theorem apply_comm {first second : Step} (h : first.target? = none) (h' : second.target? = none)
    (pc : UInt16) : second.apply (first.apply pc) = first.apply (second.apply pc) := by
  apply UInt16.toNat_inj.mp
  rw [toNat_apply, toNat_apply, toNat_apply, toNat_apply]
  cases first with
  | jump => cases h
  | stay | next | skip =>
    cases second with
    | jump => cases h'
    | stay | next | skip => simp only [unbounded] <;> omega

theorem foldl_apply_perm {steps steps' : List Step} (perm : steps.Perm steps')
    (h : ∀ step ∈ steps, step.target? = none) (pc : UInt16) :
    steps.foldl apply pc = steps'.foldl apply pc :=
  perm.foldl_eq' (fun _ first _ second pc => apply_comm (h _ first) (h _ second) pc) pc

theorem unbounded_congr (step : Step) {a b : Nat} (h : a % 4096 = b % 4096) :
    step.unbounded a % 4096 = step.unbounded b % 4096 := by
  cases step with
  | stay => exact h
  | next | skip =>
    simp only [unbounded]
    omega
  | jump => rfl

/-- Whatever is done to the addresses in between, the end is the same up to the size of memory if
each step is. -/
theorem foldl_mod_eq {A : Type} (address : A → Nat) (go : A → Step → A)
    (h : ∀ a step, address (go a step) % 4096 = step.unbounded (address a) % 4096) (a : A)
    (steps : List Step) :
    address (steps.foldl go a) % 4096 = steps.foldl unbounded (address a) % 4096 := by
  induction steps using List.reverseRecOn with
  | nil => rfl
  | append_singleton steps step ih =>
    rw [List.foldl_concat, List.foldl_concat, h]
    exact step.unbounded_congr ih

theorem lastTarget_append_singleton (pc : UInt16) (steps : List Step) (step : Step) :
    lastTarget pc (steps ++ [step]) = step.target?.getD (lastTarget pc steps) := by
  rw [lastTarget, lastTarget, List.filterMap_append]
  cases step <;> simp [target?]

theorem sinceJump_append_singleton (steps : List Step) (step : Step) :
    sinceJump (steps ++ [step]) = if step.target?.isNone then sinceJump steps ++ [step] else [] :=
  List.rtakeWhile_concat _ _ _

theorem foldl_unbounded (pc : UInt16) (steps : List Step) :
    steps.foldl unbounded pc.toNat = (lastTarget pc steps).toNat +
      2 * (sinceJump steps).count .next + 4 * (sinceJump steps).count .skip := by
  -- by the last step, because a jump makes all the steps before it count for nothing
  induction steps using List.reverseRecOn with
  | nil => rfl
  | append_singleton steps step ih =>
    rw [List.foldl_concat, ih, lastTarget_append_singleton, sinceJump_append_singleton]
    cases step with
    | stay | jump => simp [unbounded, target?]
    | next | skip =>
      simp only [unbounded, target?, Option.getD_none, Option.isNone_none, ↓reduceIte,
        List.count_append, List.count_cons_self, List.count_nil, Nat.zero_add, ne_eq, reduceCtorEq,
        not_false_eq_true, List.count_cons_of_ne, Nat.add_zero]
      omega

theorem foldl_eq_of_cut {A : Type} (address : A → Nat) (go : A → Step → A)
    (h : ∀ a step, address (go a step) = step.unbounded (address a) % 4096) (a : A)
    {steps : List Step} (h' : steps ≠ []) :
    address (steps.foldl go a) = steps.foldl unbounded (address a) % 4096 := by
  induction steps using List.reverseRecOn with
  | nil => exact absurd rfl h'
  | append_singleton steps step =>
    have hmod := foldl_mod_eq address go (fun a step => by rw [h, Nat.mod_mod]) a steps
    rw [List.foldl_concat, List.foldl_concat, h]
    exact step.unbounded_congr hmod

theorem toNat_foldl_apply (pc : UInt16) {steps : List Step} (h : steps ≠ []) :
    (steps.foldl apply pc).toNat = steps.foldl unbounded pc.toNat % 4096 :=
  foldl_eq_of_cut UInt16.toNat apply (fun pc step => step.toNat_apply pc) pc h

theorem foldl_move {H : Type} (m : Machine H) (steps : List Step) :
    steps.foldl Machine.move m = { m with pc := steps.foldl apply m.pc } := by
  induction steps generalizing m with
  | nil => rfl
  | cons step rest ih => exact ih (m.move step)

/-- Any steps, one after the other, from any sixteen bit address. The bytes since the last jump add
up to an address that there is. Between jumps only the number of bytes counts, and to cut the sums
at every step comes to the same as to cut the last of them. -/
theorem steps_add_up (pc : UInt16) (steps : List Step) (h : steps ≠ []) :
    let reached := steps.foldl apply pc
    reached.toNat = ((lastTarget pc steps).toNat + 2 * (sinceJump steps).count .next +
        4 * (sinceJump steps).count .skip) % 4096 ∧
      reached.toNat < 4096 ∧
      (∀ earlier later, steps = earlier ++ .skip :: later →
        (earlier ++ .next :: .next :: later).foldl apply pc = reached) ∧
      (∀ earlier between between' later, steps = earlier ++ between ++ later →
        (∀ step ∈ between, step.target? = none) → between.Perm between' →
        (earlier ++ between' ++ later).foldl apply pc = reached) ∧
      (∀ a : UInt16, a.toNat < 4096 → Step.stay.apply a = a) ∧
      reached.toNat = steps.foldl unbounded pc.toNat % 4096 ∧
      reached.toNat = steps.foldl (fun a step => step.unbounded a % 4096) pc.toNat ∧
      reached = steps.foldl uncut pc % 4096 ∧
      ∀ (H : Type) (m : Machine H), m.pc = pc →
        steps.foldl Machine.move m = { m with pc := reached } := by
  intro reached
  have hreached := toNat_foldl_apply pc h
  have hcut : ∀ a step, id (unbounded a step % 4096) = step.unbounded (id a) % 4096 :=
    fun _ _ => rfl
  refine ⟨?_, ?_, ?_, ?_, fun a ha => apply_stay_of_lt ha, hreached, ?_, ?_, ?_⟩
  · rw [hreached, foldl_unbounded]
  · rw [hreached]
    exact Nat.mod_lt _ (by decide)
  · rintro earlier later rfl
    simp only [reached, List.foldl_append, List.foldl_cons, apply_skip_eq]
  · rintro earlier between between' later rfl hnone perm
    simp only [reached, List.foldl_append, foldl_apply_perm perm hnone]
  · rw [hreached]
    exact (foldl_eq_of_cut id _ hcut pc.toNat h).symm
  · apply UInt16.toNat_inj.mp
    rw [hreached, UInt16.toNat_mod]
    exact (foldl_mod_eq UInt16.toNat uncut (fun pc step => step.toNat_uncut_mod pc) pc steps).symm
  · rintro H m rfl
    exact foldl_move m steps

/-- From the last of the sixteen bit addresses, with a jump past the end of memory. -/
theorem steps_add_up_past_the_end :
    let steps : List Step := [.next, .jump 0xFFFE, .skip, .stay, .next]
    steps ≠ [] ∧ sinceJump steps = [.skip, .stay, .next] ∧
      (steps.foldl apply 0xFFFF).toNat = (0xFFFE + 2 * 1 + 4 * 1) % 4096 ∧
      [Step.next, .jump 0xFFFE, .next, .stay, .skip].foldl apply 0xFFFF = 4 := by
  intro steps
  have hsome : steps ≠ [] := by decide
  obtain ⟨hreached, -, -, horder, -⟩ := steps_add_up 0xFFFF steps hsome
  have hother := horder [.next, .jump 0xFFFE] [.skip, .stay, .next] [.next, .stay, .skip] [] rfl
    (by decide) (by decide)
  exact ⟨hsome, by decide, hreached, hother.trans (by decide)⟩

end Step

end ChipEight

import ChipEight.Keypad
import Mathlib.Data.List.Basic
import Mathlib.Data.List.Induction

/-!
The keypad over a history. Every update gives new flags to some keys: one key, or all of them. A key
has the flag that it was given last, and there is a record of the last change exactly if the latest
update was of one key.
-/
namespace ChipEight.Keypad

inductive Update where
  | set (k : Key) (down : Bool)
  | toggle (k : Key)
  | setAll (flags : Vector Bool 16)
  | release

namespace Update

/-- The key of an update of a single key. -/
def key? : Update → Option Key
  | .set k _ | .toggle k => some k
  | .setAll _ | .release => none

/-- An update of all keys affects every one of them. -/
def Affects (u : Update) (k : Key) : Prop := u.key? = none ∨ u.key? = some k

instance (u : Update) (k : Key) : Decidable (u.Affects k) :=
  inferInstanceAs (Decidable (_ ∨ _))

/-- The flag that a key is given, by what it was before. -/
def gives : Update → Key → Bool → Bool
  | .set _ down, _, _ => down
  | .toggle _, _, before => ! before
  | .setAll flags, k, _ => flags.get k
  | .release, _, _ => false

end Update

def update (p : Keypad) : Update → Keypad
  | .set k down => p.set k down
  | .toggle k => p.toggle k
  | .setAll flags => setAll flags
  | .release => released

/-- A new keypad after some updates. -/
def updated (updates : List Update) : Keypad := updates.foldl update released

theorem updated_append_singleton (updates : List Update) (u : Update) :
    updated (updates ++ [u]) = (updated updates).update u :=
  List.foldl_append

theorem isDown_update (p : Keypad) (u : Update) (k : Key) :
    (p.update u).isDown k = if u.Affects k then u.gives k (p.isDown k) else p.isDown k := by
  cases u with
  | set j down => simp [update, isDown_set, Update.Affects, Update.key?, Update.gives]
  | toggle j =>
    simp only [update, toggle, isDown_set, Update.Affects, Update.key?, Update.gives,
      Option.some.injEq, reduceCtorEq, false_or]
    by_cases h : j = k
    · rw [if_pos h, if_pos h, h]
    · rw [if_neg h, if_neg h]
  | setAll flags => rfl
  | release => exact isDown_released k

/-- An update of one key records its flag before and after, an update of all keys nothing. -/
theorem lastChange_update (p : Keypad) (u : Update) :
    (p.update u).lastChange = u.key?.map fun k => ⟨k, p.isDown k, (p.update u).isDown k⟩ := by
  cases u with
  | set k down | toggle k => simp [update, toggle, set, Update.key?, isDown]
  | setAll flags | release => rfl

theorem flags_toggle_toggle (p : Keypad) (k : Key) : ((p.toggle k).toggle k).flags = p.flags := by
  simp [toggle, set, isDown]

/-- Either no update affects a key, or there is one that does and none behind it. -/
theorem isDown_updated (updates : List Update) (k : Key) :
    ((∀ u ∈ updates, ¬ u.Affects k) ∧ (updated updates).isDown k = false) ∨
    ∃ earlier u later, updates = earlier ++ u :: later ∧ u.Affects k ∧
      (∀ v ∈ later, ¬ v.Affects k) ∧
      (updated updates).isDown k = u.gives k ((updated earlier).isDown k) := by
  induction updates using List.reverseRecOn with
  | nil => exact .inl ⟨fun _ h => absurd h List.not_mem_nil, isDown_released k⟩
  | append_singleton updates u ih =>
    rw [updated_append_singleton, isDown_update]
    by_cases haffects : u.Affects k
    · rw [if_pos haffects]
      exact .inr ⟨updates, u, [], rfl, haffects, fun _ h => absurd h List.not_mem_nil, rfl⟩
    · rw [if_neg haffects]
      rcases ih with ⟨hnone, hfalse⟩ | ⟨earlier, v, later, rfl, hv, hlater, hvalue⟩
      · refine .inl ⟨?_, hfalse⟩
        rw [List.forall_mem_append, List.forall_mem_singleton]
        exact ⟨hnone, haffects⟩
      · refine .inr ⟨earlier, v, later ++ [u], by simp, hv, ?_, hvalue⟩
        rw [List.forall_mem_append, List.forall_mem_singleton]
        exact ⟨hlater, haffects⟩

theorem lastChange_append_singleton (earlier : List Update) (u : Update) :
    (updated (earlier ++ [u])).lastChange = u.key?.map fun k =>
      ⟨k, (updated earlier).isDown k, (updated (earlier ++ [u])).isDown k⟩ := by
  rw [updated_append_singleton]
  exact lastChange_update _ u

theorem lastChange_eq_none_iff (updates : List Update) :
    (updated updates).lastChange = none ↔
      updates = [] ∨ ∃ earlier u, updates = earlier ++ [u] ∧ u.key? = none := by
  constructor
  · intro hnone
    refine updates.eq_nil_or_concat'.imp id ?_
    rintro ⟨earlier, u, rfl⟩
    rw [lastChange_append_singleton, Option.map_eq_none_iff] at hnone
    exact ⟨earlier, u, rfl, hnone⟩
  · rintro (rfl | ⟨earlier, u, rfl, hall⟩)
    · rfl
    · rw [lastChange_append_singleton, hall]
      rfl

/-- What is recorded of a key is still so. -/
theorem isDown_of_lastChange {updates : List Update} {change : KeyChange}
    (h : (updated updates).lastChange = some change) :
    (updated updates).isDown change.key = change.after := by
  rcases updates.eq_nil_or_concat' with rfl | ⟨earlier, u, rfl⟩
  · cases h
  · rw [lastChange_append_singleton] at h
    obtain ⟨k, -, rfl⟩ := Option.map_eq_some_iff.mp h
    rfl

theorem pressed_of_le (p : Keypad) {k : Nat} (h : 16 ≤ k) : p.pressed k = false := by
  rw [pressed, Key.ofNat?, dif_neg (Nat.not_lt_of_le h)]
  rfl

/-- The flags and the record of the last change after any updates of a new keypad. Each key has what
it was given last. The record is of the latest update, if this was of a single key: it tells the
flag of the key just before and the one that it has now. -/
theorem keys_after_updates (updates : List Update) :
    let now := updated updates
    (∀ k : Key,
      ((∀ u ∈ updates, ¬ u.Affects k) ∧ now.pressed k.val = false) ∨
      ∃ earlier u later, updates = earlier ++ u :: later ∧ u.Affects k ∧
        (∀ v ∈ later, ¬ v.Affects k) ∧
        now.pressed k.val = u.gives k ((updated earlier).pressed k.val)) ∧
      (∀ k, 16 ≤ k → now.pressed k = false) ∧
      (now.lastChange = none ↔
        updates = [] ∨ ∃ earlier u, updates = earlier ++ [u] ∧ u.key? = none) ∧
      (∀ earlier u k, updates = earlier ++ [u] → u.key? = some k →
        now.lastChange = some ⟨k, (updated earlier).pressed k.val, now.pressed k.val⟩) ∧
      (∀ change, now.lastChange = some change → now.pressed change.key.val = change.after) ∧
      ∀ k, (updated (updates ++ [.toggle k, .toggle k])).flags = now.flags := by
  intro now
  simp only [pressed_val]
  refine ⟨isDown_updated updates, fun k hk => now.pressed_of_le hk, lastChange_eq_none_iff updates,
    ?_, fun change h => isDown_of_lastChange h, ?_⟩
  · rintro earlier u k rfl hkey
    exact (lastChange_append_singleton earlier u).trans (hkey ▸ rfl)
  · intro k
    have htwice : updated (updates ++ [.toggle k, .toggle k]) = (now.toggle k).toggle k :=
      List.foldl_append
    rw [htwice, flags_toggle_toggle]

/-- Two keys are pressed and the first is let go again. -/
theorem keys_after_letting_go :
    let updates : List Update := [.set 0xA true, .set 0x3 true, .toggle 0xA]
    updates = [.set 0xA true, .set 0x3 true] ++ [.toggle 0xA] ∧
      (Update.toggle 0xA).key? = some 0xA ∧
      (updated updates).lastChange = some ⟨0xA, true, false⟩ ∧
      (updated updates).pressed 0x3 = true ∧ (updated updates).pressed 0x13 = false := by
  intro updates
  obtain ⟨-, hout, -, hrecord, -⟩ := keys_after_updates updates
  have hchange := hrecord [.set 0xA true, .set 0x3 true] (.toggle 0xA) 0xA rfl rfl
  exact ⟨rfl, rfl, hchange.trans (by decide), by decide, hout 0x13 (by decide)⟩

end ChipEight.Keypad

import ChipEight.Host.Recorder
import ChipEight.Proofs.Drawing
import ChipEight.Proofs.Polling

/-!
What a cycle asks of its host, call by call. Only four kinds of instruction ask for anything: a
sprite turns over the cells under its set pixels in the order of the display, clearing goes through
all cells in that order, and keys are asked for up to the first that settles the matter.
-/
namespace ChipEight

namespace Host

variable {H : Type} [Host H]

def isLit (h : H) (c : Cell) : Bool := (readCell h c).1

/-- A host that writes down every call. It may answer as it likes, but a question changes none of
its answers, and what is done to a cell changes at most the answer for that cell. It has no way of
its own to clear the display. -/
structure Records (calls : H → List Call) : Prop where
  readCell : ∀ h c, calls (Host.readCell h c).2 = calls h ++ [.read c]
  light : ∀ h c, calls (Host.light h c) = calls h ++ [.light c]
  darken : ∀ h c, calls (Host.darken h c) = calls h ++ [.darken c]
  mark : ∀ h : H, calls (Host.mark h) = calls h ++ [.mark]
  readKey : ∀ h k, calls (Host.readKey h k).2 = calls h ++ [.key k]
  wipe : ∀ h : H, Host.wipe h = Screen.cells.foldl Host.darken h
  isLit_readCell : ∀ (h : H) c d, isLit (Host.readCell h c).2 d = isLit h d
  isLit_light : ∀ (h : H) c d, c ≠ d → isLit (Host.light h c) d = isLit h d
  isLit_darken : ∀ (h : H) c d, c ≠ d → isLit (Host.darken h c) d = isLit h d
  isDown_readKey : ∀ (h : H) j k, isDown (Host.readKey h j).2 k = isDown h k

/-- The calls that turn a cell over: a question, and what the answer asks for. -/
def turnOver (h : H) (c : Cell) : List Call :=
  [.read c, if isLit h c then .darken c else .light c]

/-- The keys up to the first that is down, or all of them. -/
def asked (h : H) (keys : List Key) : List Key := keys.take (keys.findIdx (isDown h) + 1)

theorem asked_of_isLowest {h : H} {k : Key} (lowest : IsLowest h k) :
    asked h (List.finRange 16) = (List.finRange 16).take (k.val + 1) := by
  have hlength : k.val < (List.finRange 16).length := by simp
  have hindex : (List.finRange 16).findIdx (isDown h) = k.val := by
    rw [List.findIdx_eq hlength]
    refine ⟨by simpa using lowest.1, ?_⟩
    intro j hj
    simpa using lowest.2 ⟨j, Nat.lt_trans hj k.isLt⟩ hj
  unfold asked
  rw [hindex]

theorem asked_of_up {h : H} (up : ∀ k, isDown h k = false) (keys : List Key) :
    asked h keys = keys := by
  have hindex : keys.findIdx (isDown h) = keys.length :=
    List.findIdx_eq_length.mpr fun k _ => up k
  unfold asked
  rw [hindex]
  exact List.take_of_length_le (Nat.le_succ _)

namespace Records

variable {calls : H → List Call} (records : Records calls)

include records

theorem calls_flip (drawn : H × Bool) (c : Cell) :
    calls (flip drawn c).1 = calls drawn.1 ++ turnOver drawn.1 c := by
  unfold flip turnOver isLit
  dsimp only
  cases (Host.readCell drawn.1 c).1 with
  | true =>
    simp only [if_true]
    rw [records.darken, records.readCell, List.append_assoc]
    rfl
  | false =>
    simp only [Bool.false_eq_true, if_false]
    rw [records.light, records.readCell, List.append_assoc]
    rfl

theorem isLit_flip (drawn : H × Bool) {c d : Cell} (h : c ≠ d) :
    isLit (flip drawn c).1 d = isLit drawn.1 d := by
  unfold flip
  dsimp only
  split
  · rw [records.isLit_darken _ _ _ h, records.isLit_readCell]
  · rw [records.isLit_light _ _ _ h, records.isLit_readCell]

/-- A cell that is turned over does not change what the others are asked for. -/
theorem flatMap_turnOver_flip (drawn : H × Bool) {c : Cell} {cells : List Cell} (h : c ∉ cells) :
    cells.flatMap (turnOver (flip drawn c).1) = cells.flatMap (turnOver drawn.1) := by
  rw [List.flatMap_def, List.flatMap_def]
  apply congrArg
  apply List.map_congr_left
  intro d hd
  have hne : c ≠ d := fun hcd => h (hcd ▸ hd)
  unfold turnOver
  rw [records.isLit_flip drawn hne]

/-- Cells that are turned over once each: every answer is about the display as it was. -/
theorem calls_flipAll {cells : List Cell} (once : cells.Nodup) (h : H) :
    calls (flipAll h cells).1 = calls h ++ cells.flatMap (turnOver h) := by
  have hfold : ∀ drawn : H × Bool,
      calls (cells.foldl flip drawn).1 = calls drawn.1 ++ cells.flatMap (turnOver drawn.1) := by
    induction cells with
    | nil => simp
    | cons c rest ih =>
      intro drawn
      obtain ⟨hnew, hrest⟩ := List.nodup_cons.mp once
      rw [List.foldl_cons, ih hrest, records.calls_flip, records.flatMap_turnOver_flip drawn hnew,
        List.flatMap_cons, List.append_assoc]
  exact hfold (h, false)

theorem calls_wipe (h : H) : calls (Host.wipe h) = calls h ++ Screen.cells.map .darken := by
  have hfold : ∀ (cells : List Cell) (h : H),
      calls (cells.foldl Host.darken h) = calls h ++ cells.map .darken := by
    intro cells
    induction cells with
    | nil => simp
    | cons c rest ih =>
      intro h
      rw [List.foldl_cons, ih, records.darken, List.map_cons, List.append_assoc]
      rfl
  rw [records.wipe, hfold]

theorem calls_firstPressed (h : H) (keys : List Key) :
    calls (firstPressed h keys).2 = calls h ++ (asked h keys).map .key := by
  induction keys generalizing h with
  | nil => simp [firstPressed, asked]
  | cons k rest ih =>
    have hlater : isDown (Host.readKey h k).2 = isDown h := by
      funext j
      exact records.isDown_readKey h k j
    have hdown : (Host.readKey h k).1 = isDown h k := rfl
    unfold firstPressed
    dsimp only
    rw [hdown]
    cases hk : isDown h k with
    | true => simp [asked, List.findIdx_cons, hk, records.readKey]
    | false => simp [asked, List.findIdx_cons, hk, records.readKey, ih, hlater]

end Records

end Host

theorem Recorder.records : Host.Records fun h : Recorder => h.calls.toList where
  readCell _ _ := Array.toList_push
  light _ _ := Array.toList_push
  darken _ _ := Array.toList_push
  mark _ := Array.toList_push
  readKey _ _ := Array.toList_push
  wipe _ := rfl
  isLit_readCell _ _ _ := rfl
  isLit_light _ _ _ hne := (Screen.get_put _ _ _ _).trans (if_neg hne)
  isLit_darken _ _ _ hne := (Screen.get_put _ _ _ _).trans (if_neg hne)
  isDown_readKey _ _ _ := rfl

/-- Cells in the order of the display are the same list if they are the same cells. -/
theorem Cell.eq_of_pairwise {first second : List Cell} (hfirst : first.Pairwise Cell.Before)
    (hsecond : second.Pairwise Cell.Before) (h : ∀ c, c ∈ first ↔ c ∈ second) : first = second := by
  have hperm : first.Perm second :=
    (List.perm_ext_iff_of_nodup (nodup_of_pairwise hfirst) (nodup_of_pairwise hsecond)).mpr h
  refine List.Perm.eq_of_pairwise ?_ hfirst hsecond hperm
  intro c d _ _ hcd hdc
  unfold Before at hcd hdc
  omega

namespace Screen

theorem pairwise_cells : cells.Pairwise Cell.Before := by
  unfold cells
  apply List.pairwise_flatMap.mpr
  constructor
  · intro y _
    apply List.pairwise_map.mpr
    refine List.Pairwise.imp ?_ (List.pairwise_lt_finRange 64)
    intro i j hij
    exact .inr ⟨rfl, hij⟩
  · refine List.Pairwise.imp ?_ (List.pairwise_lt_finRange 32)
    intro i j hij c hc d hd
    obtain ⟨-, -, rfl⟩ := List.mem_map.mp hc
    obtain ⟨-, -, rfl⟩ := List.mem_map.mp hd
    exact .inl hij

end Screen

/-- Whether an instruction leaves the host alone. -/
def Instruction.Silent : Instruction → Prop
  | .clear | .draw _ _ _ | .skipKey _ _ | .transfer .awaitKey _ => False
  | _ => True

namespace Machine

variable {H : Type}

theorem spriteCells_eq_filter (m : Machine H) (x y : Register) (height : UInt8) :
    m.spriteCells x y height = Screen.cells.filter (m.covers x y height) := by
  apply Cell.eq_of_pairwise
  · exact Sprite.pairwise_cells _ _ _ _
  · exact Screen.pairwise_cells.filter _
  · intro c
    simp [mem_spriteCells, Screen.mem_cells]

variable [Host H]

theorem host_execute_of_silent (m : Machine H) {i : Instruction} (h : i.Silent) :
    (m.execute i).state.host = m.host := by
  cases i with
  | clear | draw | skipKey => exact absurd h id
  | call address =>
    dsimp only [execute, call]
    split <;> rfl
  | leave =>
    dsimp only [execute, leave]
    cases m.stack <;> rfl
  | combine op x y =>
    rw [execute_combine]
    rfl
  | transfer op x =>
    cases op with
    | awaitKey => exact absurd h id
    | loadRegisters => exact congrArg (fun t => t.state.host) (m.transfer_loadRegisters x)
    | _ => rfl
  | _ => rfl

theorem host_execute_awaitKey (m : Machine H) (x : Register) :
    (m.execute (.transfer .awaitKey x)).state.host =
      (Host.firstPressed m.host (List.finRange 16)).2 := by
  dsimp only [execute, transfer, awaitKey]
  cases Host.firstPressed m.host (List.finRange 16) with
  | mk found host => cases found <;> rfl

theorem host_cycle_of_error {m : Machine H} {fault : Fault} (h : m.cycle.result = .error fault) :
    m.cycle.state.host = m.host := by
  rcases m.cycle_cases with ⟨-, -, hstate⟩ | ⟨i, signal, m', step, -, -, hok, -⟩
  · rw [hstate]
    rfl
  · rw [hok] at h
    cases h

theorem host_cycle_of_encodes {m : Machine H} {i : Instruction} (h : m.word.Encodes i) :
    m.cycle.state.host = (m.fetch.execute i).state.host := by
  rw [cycle_of_encodes h, Turn.state_after]

section

variable {calls : H → List Call} (records : Host.Records calls) {m : Machine H}

include records

theorem calls_cycle_of_draw {x y : Register} {height : UInt8}
    (h : m.word.Encodes (.draw x y height)) :
    calls m.cycle.state.host = calls m.host ++
      (Screen.cells.filter (m.covers x y height)).flatMap (Host.turnOver m.host) ++ [.mark] := by
  have honce := m.fetch.nodup_spriteCells x y height
  rw [host_cycle_of_encodes h, host_execute_draw, records.mark, records.calls_flipAll honce,
    spriteCells_eq_filter]
  rfl

theorem calls_cycle_of_clear (h : m.word.Encodes .clear) :
    calls m.cycle.state.host = calls m.host ++ Screen.cells.map .darken ++ [.mark] := by
  have hhost : (m.fetch.execute .clear).state.host = Host.mark (Host.wipe m.host) := rfl
  rw [host_cycle_of_encodes h, hhost, records.mark, records.calls_wipe]

theorem calls_cycle_of_skipKey {test : KeyTest} {x : Register}
    (h : m.word.Encodes (.skipKey test x)) :
    calls m.cycle.state.host =
      calls m.host ++ [.key ⟨(m.reg x).toNat % 16, Nat.mod_lt _ (by decide)⟩] := by
  rw [host_cycle_of_encodes h]
  exact records.readKey m.host _

theorem calls_cycle_of_awaitKey {x : Register} (h : m.word.Encodes (.transfer .awaitKey x)) :
    calls m.cycle.state.host =
      calls m.host ++ (Host.asked m.host (List.finRange 16)).map .key := by
  rw [host_cycle_of_encodes h, host_execute_awaitKey]
  exact records.calls_firstPressed m.host _

end

/-- Every call that a cycle makes of a host, in order. An instruction that draws turns over the
cells under the set pixels of its sprite, row by row, each of them once; one that clears goes
through the whole display; a test of a key asks for that key, and a wait for the keys up to the
lowest that is down. No other word makes a call, nor does any word that fails. -/
theorem calls_of_cycle {calls : H → List Call} (records : Host.Records calls) (m : Machine H) :
    ((∀ c, c ∈ Screen.cells) ∧ Screen.cells.Pairwise Cell.Before) ∧
      (∀ x y height, m.word.Encodes (.draw x y height) →
        let turned := Screen.cells.filter (m.covers x y height)
        turned.Nodup ∧
          calls m.cycle.state.host = calls m.host ++
            turned.flatMap (fun c =>
              [.read c, if Host.isLit m.host c then .darken c else .light c]) ++ [.mark]) ∧
      (m.word.Encodes .clear →
        calls m.cycle.state.host = calls m.host ++ Screen.cells.map .darken ++ [.mark]) ∧
      (∀ test x, m.word.Encodes (.skipKey test x) →
        calls m.cycle.state.host =
          calls m.host ++ [.key ⟨(m.reg x).toNat % 16, Nat.mod_lt _ (by decide)⟩]) ∧
      (∀ x, m.word.Encodes (.transfer .awaitKey x) →
        (∀ k, Host.IsLowest m.host k →
          calls m.cycle.state.host =
            calls m.host ++ ((List.finRange 16).take (k.val + 1)).map .key) ∧
        ((∀ k, Host.isDown m.host k = false) →
          calls m.cycle.state.host = calls m.host ++ (List.finRange 16).map .key)) ∧
      (∀ i, m.word.Encodes i → i.Silent → calls m.cycle.state.host = calls m.host) ∧
      (∀ fault, m.cycle.result = .error fault → calls m.cycle.state.host = calls m.host) := by
  refine ⟨⟨Screen.mem_cells, Screen.pairwise_cells⟩, ?_,
    fun hword => calls_cycle_of_clear records hword,
    fun _ _ hword => calls_cycle_of_skipKey records hword, ?_, ?_, ?_⟩
  · intro x y height hword turned
    have honce : turned.Nodup := Cell.nodup_of_pairwise (Screen.pairwise_cells.filter _)
    exact ⟨honce, calls_cycle_of_draw records hword⟩
  · intro x hword
    rw [calls_cycle_of_awaitKey records hword]
    constructor
    · intro k hlowest
      rw [Host.asked_of_isLowest hlowest]
    · intro hup
      rw [Host.asked_of_up hup]
  · intro i hword hsilent
    rw [host_cycle_of_encodes hword, m.fetch.host_execute_of_silent hsilent]
    rfl
  · intro fault hfault
    rw [host_cycle_of_error hfault]

/-- A sprite that is cut off at both edges, over a pixel that is set: three of its pixels are on the
display, and one of the three goes out. -/
theorem calls_of_cycle_in_the_corner :
    let start : Machine Recorder :=
      initial ⟨"CORNER", [0xD0, 0x15], by decide⟩
        ⟨⟨Screen.blank.put ⟨63, 30⟩ true, Keypad.released⟩, #[]⟩ RandomStream.zeros
    let m := (start.writeReg 0 126).writeReg 1 30
    (Host.Records fun h : Recorder => h.calls.toList) ∧ m.word.Encodes (.draw 0 1 5) ∧
      m.cycle.state.host.calls.toList =
        [.read ⟨62, 30⟩, .light ⟨62, 30⟩, .read ⟨63, 30⟩, .darken ⟨63, 30⟩, .read ⟨62, 31⟩,
          .light ⟨62, 31⟩, .mark] := by
  intro start m
  have hfetch : m.word = 0xD015 := by decide +kernel
  have hword : m.word.Encodes (.draw 0 1 5) := by
    rw [hfetch]
    exact ⟨rfl, rfl, rfl, rfl⟩
  obtain ⟨-, hdraw, -⟩ := m.calls_of_cycle Recorder.records
  obtain ⟨-, hcalls⟩ := hdraw 0 1 5 hword
  exact ⟨Recorder.records, hword, hcalls.trans (by decide +kernel)⟩

end Machine

end ChipEight

import ChipEight.Proofs.Footprint

/-!
A machine in another guise: with another `I`, other timers, or at another host. An instruction that
is not concerned with what differs does the same in every guise, and its outcome is seen in the
same guise.
-/
namespace ChipEight

/-- One host seen as another: each answer is the same, and the view follows every change. -/
structure Host.View {H K : Type} [Host H] [Host K] (view : H → K) : Prop where
  readCell : ∀ h c, Host.readCell (view h) c = ((Host.readCell h c).1, view (Host.readCell h c).2)
  light : ∀ h c, Host.light (view h) c = view (Host.light h c)
  darken : ∀ h c, Host.darken (view h) c = view (Host.darken h c)
  mark : ∀ h, Host.mark (view h) = view (Host.mark h)
  wipe : ∀ h, Host.wipe (view h) = view (Host.wipe h)
  readKey : ∀ h k, Host.readKey (view h) k = ((Host.readKey h k).1, view (Host.readKey h k).2)

namespace Host.View

variable {H K : Type} [Host H] [Host K] {view : H → K}

theorem same : View (id : H → H) := by
  constructor <;> intros <;> rfl

theorem flip (seen : View view) (state : H × Bool) (c : Cell) :
    Host.flip (view state.1, state.2) c = (view (Host.flip state c).1, (Host.flip state c).2) := by
  simp only [Host.flip, seen.readCell, seen.darken, seen.light]
  split <;> rfl

theorem flipAll (seen : View view) (h : H) (cells : List Cell) :
    Host.flipAll (view h) cells = (view (Host.flipAll h cells).1, (Host.flipAll h cells).2) := by
  have hfold : ∀ state : H × Bool, cells.foldl Host.flip (view state.1, state.2) =
      (view (cells.foldl Host.flip state).1, (cells.foldl Host.flip state).2) := by
    induction cells with
    | nil => exact fun _ => rfl
    | cons c rest ih =>
      intro state
      simp only [List.foldl_cons, seen.flip, ih]
  exact hfold (h, false)

theorem firstPressed (seen : View view) (h : H) (keys : List Key) :
    Host.firstPressed (view h) keys =
      ((Host.firstPressed h keys).1, view (Host.firstPressed h keys).2) := by
  induction keys generalizing h with
  | nil => rfl
  | cons k rest ih =>
    simp only [Host.firstPressed, seen.readKey]
    split
    · rfl
    · exact ih _

end Host.View

/-- How `I`, the timers and the host look in another guise. -/
structure Guise (H K : Type) where
  index : UInt16 → UInt16
  delay : Countdown → Countdown
  sound : Countdown → Countdown
  host : H → K

/-- Whether an instruction reads or writes a timer. -/
def Instruction.UsesTimers : Instruction → Prop
  | .transfer .readDelay _ | .transfer .writeDelay _ | .transfer .writeSound _ => True
  | _ => False

namespace Machine

variable {H K : Type}

def inGuise (m : Machine H) (g : Guise H K) : Machine K where
  name := m.name
  opcode := m.opcode
  memory := m.memory
  registers := m.registers
  index := g.index m.index
  pc := m.pc
  stack := m.stack
  delay := g.delay m.delay
  sound := g.sound m.sound
  random := m.random
  run := m.run
  host := g.host m.host

@[simp] theorem host_inGuise (m : Machine H) (g : Guise H K) :
    (m.inGuise g).host = g.host m.host := rfl

@[simp] theorem index_inGuise (m : Machine H) (g : Guise H K) :
    (m.inGuise g).index = g.index m.index := rfl

@[simp] theorem delay_inGuise (m : Machine H) (g : Guise H K) :
    (m.inGuise g).delay = g.delay m.delay := rfl

@[simp] theorem memory_inGuise (m : Machine H) (g : Guise H K) :
    (m.inGuise g).memory = m.memory := rfl

@[simp] theorem stack_inGuise (m : Machine H) (g : Guise H K) :
    (m.inGuise g).stack = m.stack := rfl

@[simp] theorem reg_inGuise (m : Machine H) (g : Guise H K) (x : Register) :
    (m.inGuise g).reg x = m.reg x := rfl

theorem fetch_inGuise (m : Machine H) (g : Guise H K) :
    (m.inGuise g).fetch = m.fetch.inGuise g := rfl

theorem word_inGuise (m : Machine H) (g : Guise H K) : (m.inGuise g).word = m.word := rfl

/-- What an instruction is not to notice. Addresses have twelve bits, so a difference of `I` in the
upper four is no concern of an instruction that does not set `I`. -/
structure Unnoticed [Host H] [Host K] (g : Guise H K) (index : UInt16) (i : Instruction) : Prop where
  index : (g.index index).toNat % 4096 = index.toNat % 4096
  keeps : i.SetsIndex → g.index = id
  timers : i.UsesTimers → g.delay = id ∧ g.sound = id
  host : Host.View g.host

theorem combine_inGuise (m : Machine H) (g : Guise H K) (op : Combine) (x y : Register) :
    (m.inGuise g).combine op x y = (m.combine op x y).inGuise g := by
  simp only [combine, reg_inGuise]
  cases op.flag? (m.reg x) (m.reg y) <;> rfl

section

variable {g : Guise H K} {m : Machine H}
  (h : (g.index m.index).toNat % 4096 = m.index.toNat % 4096)

include h

theorem cell_inGuise (o : Nat) :
    m.memory.cell ((g.index m.index).toNat + o) = m.memory.cell (m.index.toNat + o) := by
  apply Memory.cell_congr
  omega

theorem spriteCells_inGuise (x y : Register) (height : UInt8) :
    (m.inGuise g).spriteCells x y height = m.spriteCells x y height := by
  unfold spriteCells
  congr 1
  funext row
  exact cell_inGuise h row

theorem loadRegisters_inGuise (x : Register) :
    (m.inGuise g).loadRegisters x = (m.loadRegisters x).inGuise g := by
  simp only [loadRegisters, memory_inGuise, index_inGuise, reg_inGuise, cell_inGuise h]
  rfl

end

variable [Host H] [Host K] {g : Guise H K}

theorem draw_inGuise {m : Machine H} (h : (g.index m.index).toNat % 4096 = m.index.toNat % 4096)
    (seen : Host.View g.host) (x y : Register) (height : UInt8) :
    (m.inGuise g).draw x y height = (m.draw x y height).within (·.inGuise g) := by
  simp only [draw, spriteCells_inGuise h, host_inGuise, seen.flipAll, seen.mark]
  rfl

theorem awaitKey_inGuise (m : Machine H) (seen : Host.View g.host) (x : Register) :
    (m.inGuise g).awaitKey x = (m.awaitKey x).within (·.inGuise g) := by
  simp only [awaitKey, host_inGuise, seen.firstPressed]
  cases Host.firstPressed m.host (List.finRange 16) with
  | mk found host => cases found <;> rfl

theorem transfer_inGuise {m : Machine H} {op : Transfer} {x : Register}
    (h : Unnoticed g m.index (.transfer op x)) :
    (m.inGuise g).transfer op x = (m.transfer op x).within (·.inGuise g) := by
  cases op with
  | readDelay =>
    simp only [transfer, delay_inGuise, (h.timers trivial).1]
    rfl
  | writeDelay =>
    simp [transfer, proceed, Turn.within, move, inGuise, (h.timers trivial).1, reg]
  | writeSound =>
    simp [transfer, proceed, Turn.within, move, inGuise, (h.timers trivial).2, reg]
  | awaitKey => exact m.awaitKey_inGuise h.host x
  | addToIndex | pointAtGlyph =>
    simp [transfer, proceed, Turn.within, move, inGuise, h.keeps trivial, reg]
  | storeDecimal | storeRegisters =>
    simp only [transfer, index_inGuise, memory_inGuise, m.memory.write_congr h.index]
    rfl
  | loadRegisters =>
    simp only [transfer, loadRegisters_inGuise h.index]
    rfl

/-- An instruction that does not notice the guise does the same in it. -/
theorem execute_inGuise {m : Machine H} {i : Instruction} (h : Unnoticed g m.index i) :
    (m.inGuise g).execute i = (m.execute i).within (·.inGuise g) := by
  cases i with
  | clear =>
    simp only [execute, clear, host_inGuise, h.host.wipe, h.host.mark]
    rfl
  | call address =>
    dsimp only [execute, call]
    rw [stack_inGuise]
    split <;> rfl
  | leave =>
    simp only [execute, leave, stack_inGuise]
    cases m.stack <;> rfl
  | combine op x y =>
    simp only [execute, combine_inGuise]
    rfl
  | pointAt address =>
    simp [execute, proceed, Turn.within, move, inGuise, h.keeps trivial]
  | draw x y height => exact draw_inGuise h.index h.host x y height
  | skipKey test x =>
    simp only [execute, skipKey, host_inGuise, reg_inGuise, h.host.readKey]
    rfl
  | transfer op x => exact transfer_inGuise h
  | _ => rfl

theorem cycle_inGuise {m : Machine H} (h : ∀ i, m.word.Encodes i → Unnoticed g m.index i) :
    (m.inGuise g).cycle = m.cycle.within (·.inGuise g) := by
  have hword := m.word_inGuise g
  rcases m.word_cases with hunused | ⟨i, hi⟩
  · rw [cycle_of_unused hunused, cycle_of_unused (hword ▸ hunused)]
    rfl
  · have hsame : (m.fetch.inGuise g).execute i = (m.fetch.execute i).within (·.inGuise g) :=
      execute_inGuise (h i hi)
    rw [cycle_of_encodes hi, cycle_of_encodes (hword ▸ hi), fetch_inGuise, hsame]
    rfl

end Machine

end ChipEight

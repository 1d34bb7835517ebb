import ChipEight.Host.Console
import ChipEight.Proofs.Effects
import ChipEight.Proofs.Steps

/-!
The footprint of an instruction: what it may change, and that it changes nothing else. Memory is
written within a window at `I`, the registers are those that the instruction names and `VF`, and of
the host a display and a keypad are told apart. The program counter goes where the instruction
sends it.
-/
namespace ChipEight

/-- A display and a keypad that are separate parts of a host. Asking for a key changes neither. -/
structure Host.Apart {H D K : Type} [Host H] (display : H → D) (keys : H → K) : Prop where
  keys_readCell : ∀ h c, keys (readCell h c).2 = keys h
  keys_light : ∀ h c, keys (light h c) = keys h
  keys_darken : ∀ h c, keys (darken h c) = keys h
  keys_mark : ∀ h : H, keys (mark h) = keys h
  keys_wipe : ∀ h : H, keys (wipe h) = keys h
  keys_readKey : ∀ h k, keys (readKey h k).2 = keys h
  display_readKey : ∀ h k, display (readKey h k).2 = display h

namespace Host.Apart

variable {H D K : Type} [Host H] {display : H → D} {keys : H → K}

theorem keys_flip (apart : Apart display keys) (state : H × Bool) (c : Cell) :
    keys (flip state c).1 = keys state.1 := by
  unfold flip
  dsimp only
  split
  · rw [apart.keys_darken, apart.keys_readCell]
  · rw [apart.keys_light, apart.keys_readCell]

theorem keys_flipAll (apart : Apart display keys) (h : H) (cells : List Cell) :
    keys (flipAll h cells).1 = keys h := by
  have hfold : ∀ state : H × Bool, keys (cells.foldl flip state).1 = keys state.1 := by
    induction cells with
    | nil => exact fun _ => rfl
    | cons c cells ih =>
      intro state
      rw [List.foldl_cons, ih, apart.keys_flip]
  exact hfold (h, false)

theorem keys_firstPressed (apart : Apart display keys) (h : H) (asked : List Key) :
    keys (firstPressed h asked).2 = keys h := by
  induction asked generalizing h with
  | nil => rfl
  | cons k rest ih =>
    unfold firstPressed
    dsimp only
    split
    · exact apart.keys_readKey h k
    · rw [ih, apart.keys_readKey]

theorem display_firstPressed (apart : Apart display keys) (h : H) (asked : List Key) :
    display (firstPressed h asked).2 = display h := by
  induction asked generalizing h with
  | nil => rfl
  | cons k rest ih =>
    unfold firstPressed
    dsimp only
    split
    · exact apart.display_readKey h k
    · rw [ih, apart.display_readKey]

end Host.Apart

theorem Console.apart : Host.Apart Console.screen Console.keypad := by
  constructor <;> intros <;> rfl

/-- The operations on two registers that leave a flag in `VF`. -/
def Combine.HasFlag : Combine → Prop
  | .add | .subtract | .shiftRight | .subtractFrom | .shiftLeft => True
  | .copy | .or | .and | .xor => False

namespace Instruction

/-- How many cells of memory from `I` on an instruction may change. -/
def stored : Instruction → Nat
  | .transfer .storeDecimal _ => 3
  | .transfer .storeRegisters x => x.val + 1
  | _ => 0

/-- The registers that an instruction may change; one of them waits for a key that is down. -/
def Writes (pressed : Prop) : Instruction → Register → Prop
  | .load x _, r | .increase x _, r | .random x _, r | .transfer .readDelay x, r => r = x
  | .combine op x _, r => r = x ∨ op.HasFlag ∧ r = flagRegister
  | .draw _ _ _, r => r = flagRegister
  | .transfer .awaitKey x, r => pressed ∧ r = x
  | .transfer .loadRegisters x, r => r ≤ x
  | _, _ => False

/-- Whether an instruction may change `I`. -/
def SetsIndex : Instruction → Prop
  | .pointAt _ | .transfer .addToIndex _ | .transfer .pointAtGlyph _ => True
  | _ => False

/-- What an instruction at `pc` makes of the stack. -/
def Stacks (pc : UInt16) (before after : List UInt16) : Instruction → Prop
  | .call _ => after = pc :: before
  | .leave => ∃ origin, before = origin :: after
  | _ => after = before

/-- What an instruction makes of the random stream. It takes one byte, which it masks, or none. -/
def Takes (before after : RandomStream) (registers : Register → UInt8) : Instruction → Prop
  | .random x mask =>
    after = { before with position := before.position + 1 } ∧
      registers x = mask &&& before.bytes before.position
  | _ => after = before

end Instruction

namespace Machine

variable {H D K : Type}

/-- `m'` differs from `m` only in what the instruction may change, and in the place and the word of
the instruction itself. -/
structure Frame [Host H] (display : H → D) (keys : H → K) (i : Instruction) (m m' : Machine H) :
    Prop where
  name : m'.name = m.name
  memory : ∀ a, (∀ o < i.stored, (m.index.toNat + o) % 4096 ≠ a % 4096) →
    m'.memory.cell a = m.memory.cell a
  registers : ∀ r, ¬ i.Writes (¬ m.KeysUp) r → m'.reg r = m.reg r
  index : ¬ i.SetsIndex → m'.index = m.index
  stack : i.Stacks m.pc m.stack m'.stack
  delay : (∀ x, i ≠ .transfer .writeDelay x) → m'.delay = m.delay
  sound : (∀ x, i ≠ .transfer .writeSound x) → m'.sound = m.sound
  random : i.Takes m.random m'.random m'.reg
  run : (∀ x, i ≠ .transfer .awaitKey x) → m'.run = m.run
  display : i ≠ .clear → (∀ x y height, i ≠ .draw x y height) → display m'.host = display m.host
  keys : keys m'.host = keys m.host

theorem reg_writeReg_of_ne (m : Machine H) {x r : Register} (v : UInt8) (h : r ≠ x) :
    (m.writeReg x v).reg r = m.reg r := by
  rw [reg_writeReg, if_neg (Ne.symm h)]

theorem reg_writeReg_self (m : Machine H) (x : Register) (v : UInt8) :
    (m.writeReg x v).reg x = v := by
  rw [reg_writeReg, if_pos rfl]

theorem reg_writeFlag (m : Machine H) (flag : Bool) :
    (m.writeFlag flag).reg flagRegister = if flag then 1 else 0 :=
  m.reg_writeReg_self flagRegister _

theorem reg_combine_of_not_writes (m : Machine H) {op : Combine} {x y r : Register}
    (h : ¬ (r = x ∨ op.HasFlag ∧ r = flagRegister)) : (m.combine op x y).reg r = m.reg r := by
  have hx : r ≠ x := fun hr => h (.inl hr)
  have hflag : op.HasFlag → r ≠ flagRegister := fun hop hr => h (.inr ⟨hop, hr⟩)
  unfold combine
  cases op with
  | copy | or | and | xor => exact reg_writeReg_of_ne m _ hx
  | add | subtract | shiftRight | subtractFrom | shiftLeft =>
    unfold writeFlag
    exact (reg_writeReg_of_ne _ _ (hflag trivial)).trans (reg_writeReg_of_ne m _ hx)

theorem reg_loadRegisters (m : Machine H) (x r : Register) :
    (m.loadRegisters x).reg r =
      if r.val ≤ x.val then m.memory.cell (m.index.toNat + r.val) else m.reg r := by
  simp [reg, loadRegisters]

theorem length_lowRegisters (m : Machine H) (x : Register) :
    (m.lowRegisters x).length = x.val + 1 := by
  have h := x.isLt
  simp only [lowRegisters, List.length_take, Vector.length_toList]
  omega

variable [Host H] {display : H → D} {keys : H → K}

theorem frame_draw (apart : Host.Apart display keys) (m : Machine H) (x y : Register)
    (height : UInt8) :
    ∃ m', (m.draw x y height).state = m'.move .next ∧
      Frame display keys (.draw x y height) m m' := by
  have hkeys := apart.keys_flipAll m.host (m.spriteCells x y height)
  unfold draw
  cases hflip : Host.flipAll m.host (m.spriteCells x y height) with
  | mk host collision =>
    rw [hflip] at hkeys
    refine ⟨writeFlag { m with host := Host.mark host } collision, rfl, ?_⟩
    constructor
    case registers => exact fun r hr => reg_writeReg_of_ne _ _ hr
    case display => exact fun _ hdraw => absurd rfl (hdraw x y height)
    case keys => exact (apart.keys_mark host).trans hkeys
    all_goals (intros; rfl)

theorem frame_awaitKey (apart : Host.Apart display keys) (m : Machine H) (x : Register) :
    ∃ m' step, (m.awaitKey x).state = m'.move step ∧
      Frame display keys (.transfer .awaitKey x) m m' := by
  have hkeys := apart.keys_firstPressed m.host (List.finRange 16)
  have hdisplay := apart.display_firstPressed m.host (List.finRange 16)
  cases hfound : Host.firstPressed m.host (List.finRange 16) with
  | mk found host =>
    rw [hfound] at hkeys hdisplay
    unfold awaitKey
    rw [hfound]
    cases found with
    | none =>
      refine ⟨{ m with host := host, run := .awaitingKey x }, .stay, rfl, ?_⟩
      constructor
      case run => exact fun hne => absurd rfl (hne x)
      case display => exact fun _ _ => hdisplay
      case keys => exact hkeys
      all_goals (intros; rfl)
    | some k =>
      have hdown : ¬ m.KeysUp := by
        unfold KeysUp
        rw [hfound]
        exact Option.some_ne_none k
      refine ⟨writeReg { m with host := host, run := .running } x (UInt8.ofNat k.val), .next, rfl,
        ?_⟩
      constructor
      case registers => exact fun r hr => reg_writeReg_of_ne _ _ fun hrx => hr ⟨hdown, hrx⟩
      case run => exact fun hne => absurd rfl (hne x)
      case display => exact fun _ _ => hdisplay
      case keys => exact hkeys
      all_goals (intros; rfl)

theorem frame_transfer (apart : Host.Apart display keys) (m : Machine H) (op : Transfer)
    (x : Register) :
    ∃ m' step, (m.transfer op x).state = m'.move step ∧
      Frame display keys (.transfer op x) m m' := by
  cases op with
  | readDelay =>
    refine ⟨_, _, rfl, ?_⟩
    constructor
    case registers => exact fun r hr => reg_writeReg_of_ne m _ hr
    all_goals (intros; rfl)
  | awaitKey => exact m.frame_awaitKey apart x
  | writeDelay =>
    refine ⟨_, _, rfl, ?_⟩
    constructor
    case delay => exact fun hne => absurd rfl (hne x)
    all_goals (intros; rfl)
  | writeSound =>
    refine ⟨_, _, rfl, ?_⟩
    constructor
    case sound => exact fun hne => absurd rfl (hne x)
    all_goals (intros; rfl)
  | addToIndex | pointAtGlyph =>
    refine ⟨_, _, rfl, ?_⟩
    constructor
    case index => exact fun hset => absurd trivial hset
    all_goals (intros; rfl)
  | storeDecimal =>
    refine ⟨_, _, rfl, ?_⟩
    constructor
    case memory => exact fun a ha => Memory.cell_write_of_ne _ _ _ _ ha
    all_goals (intros; rfl)
  | storeRegisters =>
    refine ⟨_, _, rfl, ?_⟩
    constructor
    case memory =>
      intro a ha
      apply Memory.cell_write_of_ne
      rw [length_lowRegisters]
      exact ha
    all_goals (intros; rfl)
  | loadRegisters =>
    have hreg : ∀ r, ¬ r ≤ x → (m.loadRegisters x).reg r = m.reg r :=
      fun r hr => (m.reg_loadRegisters x r).trans (if_neg hr)
    rw [transfer_loadRegisters]
    refine ⟨_, _, rfl, ?_⟩
    constructor
    case registers => exact hreg
    all_goals (intros; rfl)

theorem frame_execute (apart : Host.Apart display keys) {m : Machine H} {i : Instruction}
    {signal : Signal} (h : (m.execute i).result = .ok signal) :
    ∃ m' step, (m.execute i).state = m'.move step ∧ Frame display keys i m m' := by
  cases i with
  | clear =>
    refine ⟨_, _, rfl, ?_⟩
    constructor
    case display => exact fun hclear _ => absurd rfl hclear
    case keys => exact (apart.keys_mark _).trans (apart.keys_wipe _)
    all_goals (intros; rfl)
  | leave =>
    dsimp only [execute, leave] at h ⊢
    cases hstack : m.stack with
    | nil =>
      rw [hstack] at h
      cases h
    | cons origin outer =>
      refine ⟨_, _, rfl, ?_⟩
      constructor
      case stack => exact ⟨origin, hstack⟩
      all_goals (intros; rfl)
  | routine address => cases h
  | call address =>
    dsimp only [execute, call] at h ⊢
    split at h
    next hroom =>
      rw [if_pos hroom]
      refine ⟨_, _, rfl, ?_⟩
      constructor <;> intros <;> rfl
    next => cases h
  | load x v | increase x v =>
    refine ⟨_, _, rfl, ?_⟩
    constructor
    case registers => exact fun r hr => reg_writeReg_of_ne m _ hr
    all_goals (intros; rfl)
  | combine op x y =>
    have hreg : ∀ r, ¬ (r = x ∨ op.HasFlag ∧ r = flagRegister) →
        (m.combine op x y).reg r = m.reg r := fun r hr => m.reg_combine_of_not_writes hr
    rw [execute_combine]
    refine ⟨_, _, rfl, ?_⟩
    constructor
    case registers => exact hreg
    all_goals (intros; rfl)
  | pointAt address =>
    refine ⟨_, _, rfl, ?_⟩
    constructor
    case index => exact fun hset => absurd trivial hset
    all_goals (intros; rfl)
  | random x mask =>
    refine ⟨m.randomize x mask, .next, rfl, ?_⟩
    constructor
    case registers => exact fun r hr => reg_writeReg_of_ne _ _ hr
    case random => exact ⟨rfl, reg_writeReg_self _ x _⟩
    all_goals (intros; rfl)
  | draw x y height =>
    rcases m.frame_draw apart x y height with ⟨m', hstate, hframe⟩
    exact ⟨m', .next, hstate, hframe⟩
  | skipKey test x =>
    refine ⟨_, _, rfl, ?_⟩
    constructor
    case display => exact fun _ _ => apart.display_readKey _ _
    case keys => exact apart.keys_readKey _ _
    all_goals (intros; rfl)
  | transfer op x => exact m.frame_transfer apart op x
  | _ =>
    refine ⟨m, _, rfl, ?_⟩
    constructor <;> intros <;> rfl

/-- Whether the key is down that the low digit of `VX` names. -/
def keyDown (m : Machine H) (x : Register) : Bool :=
  (Host.readKey m.host (Fin.ofNat 16 (m.reg x).toNat)).1

/-- Whether an instruction tests for something that is so. -/
def holds (m : Machine H) : Instruction → Bool
  | .skipEqual x nn => m.reg x == nn
  | .skipUnequal x nn => m.reg x != nn
  | .skipSame x y => m.reg x == m.reg y
  | .skipDifferent x y => m.reg x != m.reg y
  | .skipKey .down x => m.keyDown x
  | .skipKey .up x => ! m.keyDown x
  | _ => false

/-- The number that an instruction sends the program counter to, however large. -/
def goal (m : Machine H) : Instruction → Nat
  | .jump nnn | .call nnn => nnn.toNat
  | .jumpBeyond nnn => nnn.toNat + (m.reg 0).toNat
  | .leave => (m.stack.headD 0).toNat + 2
  | .transfer .awaitKey _ => m.pc.toNat + if m.KeysUp then 0 else 2
  | i => m.pc.toNat + if m.holds i then 4 else 2

theorem toNat_pc_transfer (m : Machine H) (op : Transfer) (x : Register) :
    (m.transfer op x).state.pc.toNat = m.goal (.transfer op x) % 4096 := by
  cases op with
  | awaitKey =>
    unfold goal
    dsimp only
    rcases m.awaitKey_cases x with ⟨host, messages, hup, h⟩ | ⟨host, v, hdown, h⟩
    · rw [if_pos hup]
      exact (congrArg (fun turn => turn.state.pc.toNat) h).trans (Step.toNat_apply .stay m.pc)
    · rw [if_neg hdown]
      exact (congrArg (fun turn => turn.state.pc.toNat) h).trans (Step.toNat_apply .next m.pc)
  | loadRegisters =>
    rw [transfer_loadRegisters]
    exact Step.toNat_apply .next m.pc
  | _ => exact Step.toNat_apply .next m.pc

/-- An instruction that succeeds sends the program counter to its goal, cut to twelve bits. -/
theorem toNat_pc_execute {m : Machine H} {i : Instruction} {signal : Signal}
    (h : (m.execute i).result = .ok signal) :
    (m.execute i).state.pc.toNat = m.goal i % 4096 := by
  cases i with
  | routine address => cases h
  | leave =>
    dsimp only [execute, leave] at h ⊢
    cases hstack : m.stack with
    | nil =>
      rw [hstack] at h
      cases h
    | cons origin outer =>
      have hgoal : m.goal .leave = origin.toNat + 2 := by
        unfold goal
        rw [hstack, List.headD_cons]
      have hnext : (Step.next.apply origin).toNat = (origin.toNat + 2) % 4096 :=
        Step.toNat_apply .next origin
      rw [hgoal]
      refine (Step.toNat_apply (.jump (Step.next.apply origin)) m.pc).trans ?_
      change (Step.next.apply origin).toNat % 4096 = _
      rw [hnext, Nat.mod_mod]
  | call address =>
    dsimp only [execute, call] at h ⊢
    split at h
    next hroom =>
      rw [if_pos hroom]
      exact Step.toNat_apply (.jump address) m.pc
    next => cases h
  | jump address => exact Step.toNat_apply (.jump address) m.pc
  | jumpBeyond address =>
    have hcut : (address + (m.reg 0).toUInt16).toNat % 4096 =
        (address.toNat + (m.reg 0).toNat) % 4096 := by
      rw [UInt16.toNat_add, UInt8.toNat_toUInt16]
      omega
    exact (Step.toNat_apply (.jump (address + (m.reg 0).toUInt16)) m.pc).trans hcut
  | skipEqual | skipUnequal | skipSame | skipDifferent => exact Step.toNat_apply_when _ m.pc
  | skipKey test x =>
    cases test with
    | down | up => exact Step.toNat_apply_when _ m.pc
  | combine op x y =>
    rw [execute_combine]
    exact Step.toNat_apply .next m.pc
  | transfer op x => exact m.toNat_pc_transfer op x
  | _ => exact Step.toNat_apply .next m.pc

theorem frame_move_of_fetch {i : Instruction} {m m' : Machine H}
    (h : Frame display keys i m.fetch m') (step : Step) :
    Frame display keys i m (m'.move step) where
  name := h.name
  memory := h.memory
  registers := h.registers
  index := h.index
  stack := h.stack
  delay := h.delay
  sound := h.sound
  random := h.random
  run := h.run
  display := h.display
  keys := h.keys

/-- Whatever word is executed, the machine changes only within the frame of its instruction; the
word is kept, and the program counter goes where the instruction sends it. -/
theorem frame_cycle (apart : Host.Apart display keys) {m : Machine H} {signal : Signal}
    (h : m.cycle.result = .ok signal) :
    ∃ i, m.word.Encodes i ∧ Frame display keys i m m.cycle.state ∧
      m.cycle.state.opcode = m.memory.fetch m.pc ∧
      m.cycle.state.pc.toNat = m.goal i % 0x1000 := by
  rcases m.cycle_cases with ⟨fault, herror, -⟩ |
    ⟨i, signal', effect, step, hi, hexecute, -, hstate, heffect⟩
  · rw [herror] at h
    cases h
  · rcases frame_execute apart hexecute with ⟨m', step', hstate', hframe⟩
    have hcycle : m.cycle.state = m'.move step' := by
      rw [cycle_of_encodes hi]
      exact hstate'
    refine ⟨i, hi, ?_, ?_, ?_⟩
    · rw [hcycle]
      exact frame_move_of_fetch hframe step'
    · rw [hstate]
      exact heffect.opcode
    · rw [cycle_of_encodes hi]
      exact toNat_pc_execute hexecute

/-- Two registers are stored to the last cell of memory and to the first. -/
theorem frame_storing_across_the_end :
    let m : Machine Console :=
      { initial ⟨"STORE", [0xF1, 0x55], by decide⟩ Console.fresh RandomStream.zeros with
        index := 0xFFFF }
    m.cycle.result = .ok .idle ∧
      (∃ i, m.word.Encodes i ∧ Frame Console.screen Console.keypad i m m.cycle.state ∧
        m.cycle.state.opcode = m.memory.fetch m.pc ∧
        m.cycle.state.pc.toNat = m.goal i % 0x1000) ∧
      m.cycle.state.memory.cell 0x1000 ≠ m.memory.cell 0x1000 := by
  intro m
  have hok : m.cycle.result = .ok .idle := ok_of_toOption (by decide +kernel)
  have hstored : m.cycle.state.memory.cell 0x1000 ≠ m.memory.cell 0x1000 := by decide +kernel
  exact ⟨hok, frame_cycle Console.apart hok, hstored⟩

end Machine

end ChipEight

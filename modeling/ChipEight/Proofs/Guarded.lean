import ChipEight.Emulation.Basic
import ChipEight.Host.Console

/-!
What can be asked of a machine, and the machine with a guard before every access. Registers, cells,
pixels and keys are named by bare numbers, computed from words and registers with masks and
remainders. A number without a place is an overrun, and so is a push on a full stack, a sum of more
than sixteen bits, or a difference below zero. Nothing is cut to size behind a guard.
-/
namespace ChipEight

/-- What a host does with the display and the keypad. A key or a pixel that is not there has no
name. -/
inductive Touch where
  | look (c : Cell)
  | light (c : Cell)
  | darken (c : Cell)
  | wipe
  | mark
  | takeChanged
  | setKey (k : Key) (down : Bool)
  | toggleKey (k : Key)
  | setKeys (flags : Vector Bool 16)
  | releaseKeys

def Touch.apply (h : Console) : Touch → Console
  | .look _ => h
  | .light c => Host.light h c
  | .darken c => Host.darken h c
  | .wipe => Host.wipe h
  | .mark => Host.mark h
  | .takeChanged => { h with screen := h.screen.takeChanged.2 }
  | .setKey k down => { h with keypad := h.keypad.set k down }
  | .toggleKey k => { h with keypad := h.keypad.toggle k }
  | .setKeys flags => { h with keypad := Keypad.setAll flags }
  | .releaseKeys => { h with keypad := Keypad.released }

/-- What is asked of a machine from outside. -/
inductive Request where
  | cycle
  | attempt (policy : Policy)
  | countDown
  | passOver
  | touch (t : Touch)

def Machine.serve (m : Machine Console) : Request → Machine Console
  | .cycle => m.cycle.state
  | .attempt policy => (m.attempt policy).state
  | .countDown => m.countDown.state
  | .passOver => m.passOver
  | .touch t => { m with host := t.apply m.host }

inductive Overrun where
  | register (i : Nat)
  | memory (a : Nat)
  | pixel (x y : Nat)
  /-- A pixel beyond the eight of a sprite row. -/
  | column (c : Nat)
  | key (k : Nat)
  /-- Flags for more or fewer keys than there are. -/
  | flags (count : Nat)
  | push (depth : Nat)
  | word (n : Nat)
  | difference (a b : Nat)
  deriving DecidableEq, Repr

/-- What may fail with an overrun, and in no other way. -/
abbrev Guarded (A : Type) := Except Overrun A

namespace Guarded

variable {A : Type}

def check (p : Prop) [Decidable p] (overrun : Overrun) (access : p → A) : Guarded A :=
  if h : p then .ok (access h) else .error overrun

theorem check_of {p : Prop} [Decidable p] (h : p) (overrun : Overrun) (access : p → A) :
    check p overrun access = .ok (access h) := dif_pos h

/-- What a number names, if it names anything. -/
def named (overrun : Overrun) : Option A → Guarded A
  | some a => .ok a
  | none => .error overrun

def readRegister (r : Registers) (i : Nat) : Guarded UInt8 :=
  check (i < 16) (.register i) fun _ => r[i]

def setRegister (r : Registers) (i : Nat) (v : UInt8) : Guarded Registers :=
  check (i < 16) (.register i) fun _ => r.set i v

def readCell (m : Memory) (a : Nat) : Guarded UInt8 :=
  check (a < 4096) (.memory a) fun _ => m[a]

def setCell (m : Memory) (a : Nat) (b : UInt8) : Guarded Memory :=
  check (a < 4096) (.memory a) fun _ => m.set a b

/-- Copies a block that has to end within memory. -/
def copy (m : Memory) (a : Nat) (bytes : List UInt8) : Guarded Memory :=
  check (a + bytes.length ≤ 4096) (.memory (a + bytes.length)) fun _ => m.write a bytes

def readPixel (s : Screen) (x y : Nat) : Guarded Bool :=
  (named (.pixel x y) (Cell.ofNat? x y)).map s.get

def setPixel (s : Screen) (x y : Nat) (lit : Bool) : Guarded Screen :=
  (named (.pixel x y) (Cell.ofNat? x y)).map fun c => s.put c lit

def readBit (row : UInt8) (c : Nat) : Guarded Bool :=
  check (c < 8) (.column c) fun _ => Sprite.bit row c

def readKey (p : Keypad) (k : Nat) : Guarded Bool :=
  (named (.key k) (Key.ofNat? k)).map p.isDown

def setKey (p : Keypad) (k : Nat) (down : Bool) : Guarded Keypad :=
  (named (.key k) (Key.ofNat? k)).map fun k => p.set k down

def setKeys (flags : List Bool) : Guarded Keypad :=
  (named (.flags flags.length) (Keypad.flags? flags)).map Keypad.setAll

def push (stack : List UInt16) (origin : UInt16) : Guarded (List UInt16) :=
  check (stack.length < 16) (.push stack.length) fun _ => origin :: stack

def word (n : Nat) : Guarded UInt16 :=
  check (n < 65536) (.word n) fun _ => UInt16.ofNat n

def subtract (a b : UInt8) : Guarded UInt8 :=
  check (b.toNat ≤ a.toNat) (.difference a.toNat b.toNat) fun _ => a - b

/-- The register field `X` of a word, as a bare number. -/
def xField (w : Opcode) : Nat := ((w &&& 0x0FFF &&& 0xFF00) >>> 8).toNat

/-- The register field `Y` of a word. -/
def yField (w : Opcode) : Nat := ((w &&& 0x00F0) >>> 4).toNat

/-- The address at a distance from `I`. -/
def place (m : Machine Console) (o : Nat) : Nat := (m.index.toNat + o) % 4096

def fetch (m : Machine Console) : Guarded Opcode := do
  let high ← readCell m.memory (m.pc &&& 0x0FFF).toNat
  let low ← readCell m.memory ((m.pc + 1) &&& 0x0FFF).toNat
  pure (Opcode.ofBytes high low)

/-- The call is refused at sixteen addresses exactly, and pushes at any other number. -/
def call (m : Machine Console) (target : UInt16) : Guarded (Outcome Console) :=
  if m.stack.length = stackLimit then pure (m.refuse (.stack .full m.pc))
  else do
    let stack ← push m.stack m.pc
    pure (Machine.proceed { m with stack := stack } (.jump target) .idle)

def combine (m : Machine Console) (op : Combine) (x y : Nat) : Guarded (Machine Console) := do
  let vx ← readRegister m.registers x
  let vy ← readRegister m.registers y
  let registers ← setRegister m.registers x (op.result vx vy)
  match op.flag? vx vy with
  | none => pure { m with registers := registers }
  | some flag => do
    let registers ← setRegister registers 15 (if flag then 1 else 0)
    pure { m with registers := registers }

/-- Turns a pixel over, and notes in the flag if it was set. -/
def flip (drawn : Console × Bool) (x y : Nat) : Guarded (Console × Bool) := do
  let lit ← readPixel drawn.1.screen x y
  let screen ← setPixel drawn.1.screen x y (! lit)
  pure ({ drawn.1 with screen := screen }, lit || drawn.2)

/-- The columns of a sprite row, up to the first beyond the right edge. -/
def drawColumns (row : UInt8) (left y : Nat) : List Nat → Console × Bool → Guarded (Console × Bool)
  | [], drawn => pure drawn
  | c :: columns, drawn =>
    if 64 ≤ left + c then pure drawn
    else do
      let set ← readBit row c
      let drawn ← if set then flip drawn (left + c) y else pure drawn
      drawColumns row left y columns drawn

/-- The rows of a sprite, up to the first below the lower edge. -/
def drawRows (m : Machine Console) (left top : Nat) :
    List Nat → Console × Bool → Guarded (Console × Bool)
  | [], drawn => pure drawn
  | r :: rows, drawn =>
    if 32 ≤ top + r then pure drawn
    else do
      let row ← readCell m.memory (place m r)
      let drawn ← drawColumns row left (top + r) (List.range 8) drawn
      drawRows m left top rows drawn

def draw (m : Machine Console) (x y : Nat) (height : UInt8) : Guarded (Outcome Console) := do
  let vx ← readRegister m.registers x
  let vy ← readRegister m.registers y
  let (host, collision) ←
    drawRows m (vx.toNat % 64) (vy.toNat % 32) (List.range height.toNat) (m.host, false)
  let registers ← setRegister m.registers 15 (if collision then 1 else 0)
  pure (Machine.proceed { m with registers := registers, host := Host.mark host } .next .draw)

def skipKey (m : Machine Console) (test : KeyTest) (x : Nat) : Guarded (Outcome Console) := do
  let vx ← readRegister m.registers x
  let down ← readKey m.host.keypad (vx &&& 0x0F).toNat
  let holds := match test with
    | .down => down
    | .up => ! down
  pure (m.proceed (.when holds) .idle)

/-- The first of some keys that is down. -/
def firstPressed (p : Keypad) : List Nat → Guarded (Option Nat)
  | [] => pure none
  | k :: rest => do
    let down ← readKey p k
    if down then pure (some k) else firstPressed p rest

def awaitKey (m : Machine Console) (x : Nat) (name : Register) : Guarded (Outcome Console) := do
  match ← firstPressed m.host.keypad (List.range 16) with
  | some k => do
    let registers ← setRegister m.registers x (UInt8.ofNat k)
    pure (Machine.proceed { m with registers := registers, run := .running } .next .idle)
  | none =>
    pure ((Machine.proceed { m with run := .awaitingKey name } .stay .wait).after
      (if m.run = .running then [.awaitingKey name] else []))

/-- Writes bytes one behind the other, each as it comes, from the distance `o` from `I` on. -/
def store (m : Machine Console) (o : Nat) : List (Guarded UInt8) → Memory → Guarded Memory
  | [], memory => pure memory
  | source :: rest, memory => do
    let b ← source
    let memory ← setCell memory (place m o) b
    store m (o + 1) rest memory

/-- Loads registers one behind the other, each from its distance from `I`. -/
def load (m : Machine Console) (count : Nat) : Guarded Registers :=
  (List.range count).foldlM (fun registers o => do
    let b ← readCell m.memory (place m o)
    setRegister registers o b) m.registers

def transfer (m : Machine Console) (op : Transfer) (x : Nat) (name : Register) :
    Guarded (Outcome Console) :=
  match op with
  | .readDelay => do
    let registers ← setRegister m.registers x m.delay.value
    pure (Machine.proceed { m with registers := registers } .next .idle)
  | .awaitKey => awaitKey m x name
  | .writeDelay => do
    let vx ← readRegister m.registers x
    pure (Machine.proceed { m with delay := ⟨vx⟩ } .next .idle)
  | .writeSound => do
    let vx ← readRegister m.registers x
    pure (Machine.proceed { m with sound := ⟨vx⟩ } .next .idle)
  | .addToIndex => do
    let vx ← readRegister m.registers x
    pure (Machine.proceed { m with index := m.index + vx.toUInt16 } .next .idle)
  | .pointAtGlyph => do
    let vx ← readRegister m.registers x
    let index ← word (fontAddress + vx.toNat * glyphHeight)
    pure (Machine.proceed { m with index := index } .next .idle)
  | .storeDecimal => do
    let vx ← readRegister m.registers x
    let memory ← store m 0 [pure (vx / 100), pure (vx / 10 % 10), pure (vx % 10)] m.memory
    pure (Machine.proceed { m with memory := memory } .next .idle)
  | .storeRegisters => do
    let memory ← store m 0 ((List.range (x + 1)).map (readRegister m.registers)) m.memory
    pure (Machine.proceed { m with memory := memory } .next .idle)
  | .loadRegisters => do
    let registers ← load m (x + 1)
    pure (Machine.proceed { m with registers := registers } .next .idle)

/-- The instruction of a word, its registers found by the fields of the word. -/
def execute (m : Machine Console) (w : Opcode) : Instruction → Guarded (Outcome Console)
  | .clear => pure m.clear
  | .leave => pure m.leave
  | .routine nnn => pure ((m.refuse (.routineCall m.opcode m.pc)).after [.routineRequested nnn])
  | .jump nnn => pure (m.proceed (.jump nnn) .idle)
  | .call nnn => call m nnn
  | .skipEqual _ nn => do
    let vx ← readRegister m.registers (xField w)
    pure (m.proceed (.when (vx == nn)) .idle)
  | .skipUnequal _ nn => do
    let vx ← readRegister m.registers (xField w)
    pure (m.proceed (.when (vx != nn)) .idle)
  | .skipSame _ _ => do
    let vx ← readRegister m.registers (xField w)
    let vy ← readRegister m.registers (yField w)
    pure (m.proceed (.when (vx == vy)) .idle)
  | .load _ nn => do
    let registers ← setRegister m.registers (xField w) nn
    pure (Machine.proceed { m with registers := registers } .next .idle)
  | .increase _ nn => do
    let vx ← readRegister m.registers (xField w)
    let registers ← setRegister m.registers (xField w) (vx + nn)
    pure (Machine.proceed { m with registers := registers } .next .idle)
  | .combine op _ _ => do
    let m ← combine m op (xField w) (yField w)
    pure (m.proceed .next .idle)
  | .skipDifferent _ _ => do
    let vx ← readRegister m.registers (xField w)
    let vy ← readRegister m.registers (yField w)
    pure (m.proceed (.when (vx != vy)) .idle)
  | .pointAt nnn => pure (Machine.proceed { m with index := nnn } .next .idle)
  | .jumpBeyond nnn => do
    let v0 ← readRegister m.registers 0
    let target ← word (nnn.toNat + v0.toNat)
    pure (m.proceed (.jump target) .idle)
  | .random _ mask => do
    let (byte, random) := m.random.take
    let registers ← setRegister m.registers (xField w) (mask &&& byte)
    pure (Machine.proceed { m with registers := registers, random := random } .next .idle)
  | .draw _ _ height => draw m (xField w) (yField w) height
  | .skipKey test _ => skipKey m test (xField w)
  | .transfer op x => transfer m op (xField w) x

def cycle (m : Machine Console) : Guarded (Outcome Console) := do
  let w ← fetch m
  let m := { m with opcode := w }
  let turn ← match Instruction.decode? w with
    | some instruction => execute m w instruction
    | none => pure (m.refuse (.undecodable w m.pc))
  pure (turn.after [.fetched m.pc w])

def attempt (policy : Policy) (m : Machine Console) : Guarded (Outcome Console) := do
  let turn ← cycle m
  match turn.result, policy with
  | .ok _, _ => pure turn
  | .error fault, .halt =>
    pure ⟨turn.state, .error fault, turn.messages ++ [.halted turn.state.name fault]⟩
  | .error fault, .skip =>
    pure ⟨turn.state.passOver, .ok .idle, turn.messages ++ [.skipped fault]⟩

def tick (c : Countdown) : Guarded Countdown :=
  if 0 < c.value then do
    let value ← subtract c.value 1
    pure ⟨value⟩
  else pure c

/-- A sound that has ended is not counted down. -/
def countDown (m : Machine Console) : Guarded (Turn (Machine Console) Bool) := do
  let delay ← tick m.delay
  let sound ← if m.sound.isRunning then tick m.sound else pure m.sound
  let ended := m.sound.isRunning && ! sound.isRunning
  pure ⟨{ m with delay := delay, sound := sound }, ended, if ended then [.soundEnded] else []⟩

def boot (program : Program) (host : Console) (random : RandomStream) :
    Guarded (Machine Console) := do
  let memory ← copy Memory.blank fontAddress font
  let memory ← copy memory programStart.toNat program.image
  pure { Machine.initial program host random with memory := memory }

def touch (h : Console) : Touch → Guarded Console
  | .look c => do
    let _ ← readPixel h.screen c.x c.y
    pure h
  | .light c => do
    let screen ← setPixel h.screen c.x c.y true
    pure { h with screen := screen }
  | .darken c => do
    let screen ← setPixel h.screen c.x c.y false
    pure { h with screen := screen }
  | .wipe => pure { h with screen := h.screen.wipe }
  | .mark => pure { h with screen := h.screen.mark }
  | .takeChanged => pure { h with screen := h.screen.takeChanged.2 }
  | .setKey k down => do
    let keypad ← setKey h.keypad k down
    pure { h with keypad := keypad }
  | .toggleKey k => do
    let down ← readKey h.keypad k
    let keypad ← setKey h.keypad k (! down)
    pure { h with keypad := keypad }
  | .setKeys flags => do
    let keypad ← setKeys flags.toList
    pure { h with keypad := keypad }
  | .releaseKeys => pure { h with keypad := Keypad.released }

def serve (m : Machine Console) : Request → Guarded (Machine Console)
  | .cycle => do
    let turn ← cycle m
    pure turn.state
  | .attempt policy => do
    let turn ← attempt policy m
    pure turn.state
  | .countDown => do
    let turn ← countDown m
    pure turn.state
  | .passOver => pure m.passOver
  | .touch t => do
    let host ← touch m.host t
    pure { m with host := host }

end Guarded

end ChipEight

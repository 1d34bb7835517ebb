import ChipEight.Proofs.Guarded
import ChipEight.Proofs.Policies
import ChipEight.Proofs.Waiting

/-!
No guard is ever hit. Each guarded access is in its bounds where the machine makes it, by a mask or
a remainder on the way there, and gives what the plain access gives. The room on the stack is the
one bound that depends on the past of the machine.
-/
namespace ChipEight

namespace Guarded

theorem ok_bind {A B : Type} (a : A) (f : A → Guarded B) : (Except.ok a : Guarded A) >>= f = f a :=
  rfl

theorem readRegister_val (m : Machine Console) (x : Register) :
    readRegister m.registers x.val = .ok (m.reg x) := check_of x.isLt _ _

theorem setRegister_val (m : Machine Console) (x : Register) (v : UInt8) :
    setRegister m.registers x.val v = .ok (m.writeReg x v).registers := check_of x.isLt _ _

theorem readCell_mod (m : Memory) (a : Nat) : readCell m (a % 4096) = .ok (m.cell a) :=
  check_of (Nat.mod_lt a (by decide)) _ _

theorem setCell_mod (m : Memory) (a : Nat) (b : UInt8) :
    setCell m (a % 4096) b = .ok (m.setCell a b) := check_of (Nat.mod_lt a (by decide)) _ _

theorem readPixel_cell (s : Screen) (c : Cell) : readPixel s c.x c.y = .ok (s.get c) := by
  unfold readPixel
  rw [Cell.ofNat?_val]
  rfl

theorem setPixel_cell (s : Screen) (c : Cell) (lit : Bool) :
    setPixel s c.x c.y lit = .ok (s.put c lit) := by
  unfold setPixel
  rw [Cell.ofNat?_val]
  rfl

theorem readKey_val (p : Keypad) (k : Key) : readKey p k.val = .ok (p.isDown k) := by
  unfold readKey
  rw [Key.ofNat?_val]
  rfl

theorem setKey_val (p : Keypad) (k : Key) (down : Bool) :
    setKey p k.val down = .ok (p.set k down) := by
  unfold setKey
  rw [Key.ofNat?_val]
  rfl

theorem setKeys_toList (flags : Vector Bool 16) :
    setKeys flags.toList = .ok (Keypad.setAll flags) := by
  unfold setKeys
  rw [Keypad.flags?_toList]
  rfl

theorem word_of_lt {n : Nat} (h : n < 65536) : word n = .ok (UInt16.ofNat n) := check_of h _ _

theorem xField_eq (w : Opcode) : xField w = (Opcode.x w).val := by
  have hmask : xField w = (w.toNat &&& 0x0FFF &&& 0xFF00) >>> 8 := by simp [xField]
  have hx : (Opcode.x w).val = w.toNat / 256 % 16 := rfl
  rw [hmask, hx, Nat.shiftRight_and_distrib, Nat.shiftRight_and_distrib]
  change w.toNat >>> 8 &&& (2 ^ 4 - 1) &&& (2 ^ 8 - 1) = _
  rw [Nat.and_two_pow_sub_one_eq_mod, Nat.and_two_pow_sub_one_eq_mod, Nat.shiftRight_eq_div_pow]
  omega

theorem yField_eq (w : Opcode) : yField w = (Opcode.y w).val := by
  have hmask : yField w = (w.toNat &&& 0x00F0) >>> 4 := by simp [yField]
  have hy : (Opcode.y w).val = w.toNat / 16 % 16 := rfl
  rw [hmask, hy, Nat.shiftRight_and_distrib]
  change w.toNat >>> 4 &&& (2 ^ 4 - 1) = _
  rw [Nat.and_two_pow_sub_one_eq_mod, Nat.shiftRight_eq_div_pow]

theorem toNat_and_address (a : UInt16) : (a &&& 0x0FFF).toNat = a.toNat % 4096 := by
  rw [UInt16.toNat_and]
  exact Nat.and_two_pow_sub_one_eq_mod a.toNat 12

theorem toNat_and_key (v : UInt8) : (v &&& 0x0F).toNat = v.toNat % 16 := by
  rw [UInt8.toNat_and]
  exact Nat.and_two_pow_sub_one_eq_mod v.toNat 4

theorem fetch_eq (m : Machine Console) : fetch m = .ok m.word := by
  have hsucc : (m.pc + 1).toNat % 4096 = (m.pc.toNat + 1) % 4096 := by
    rw [UInt16.toNat_add]
    simp
  unfold fetch
  rw [toNat_and_address, toNat_and_address, readCell_mod, readCell_mod, ok_bind, ok_bind,
    Memory.cell_congr m.memory hsucc]
  rfl

theorem call_eq {m : Machine Console} (room : m.stack.length ≤ stackLimit) (target : UInt16) :
    call m target = .ok (m.call target) := by
  unfold call Machine.call
  by_cases hfull : m.stack.length = stackLimit
  · rw [if_pos hfull, if_neg (by omega)]
    rfl
  · have hroom : m.stack.length < stackLimit := by omega
    have hpush : push m.stack m.pc = .ok (m.pc :: m.stack) := check_of hroom _ _
    rw [if_neg hfull, if_pos hroom, hpush]
    rfl

theorem combine_eq (m : Machine Console) (op : Combine) (x y : Register) :
    combine m op x.val y.val = .ok (m.combine op x y) := by
  unfold combine Machine.combine
  rw [readRegister_val, readRegister_val, ok_bind, ok_bind, setRegister_val, ok_bind]
  dsimp only
  cases op.flag? (m.reg x) (m.reg y) with
  | none => rfl
  | some flag => rfl

theorem flip_cell (drawn : Console × Bool) (c : Cell) :
    flip drawn c.x c.y = .ok (Host.flip drawn c) := by
  unfold flip
  rw [readPixel_cell, ok_bind, setPixel_cell, ok_bind]
  have hread : Host.readCell drawn.1 c = (drawn.1.screen.get c, drawn.1) := rfl
  unfold Host.flip
  rw [hread]
  cases drawn.1.screen.get c with
  | false => rfl
  | true => rfl

theorem head_le_of_sorted {a : Nat} {rest : List Nat} (sorted : (a :: rest).Pairwise (· < ·)) :
    ∀ b ∈ a :: rest, a ≤ b := by
  intro b hb
  rcases List.mem_cons.mp hb with rfl | hb
  · exact Nat.le_refl b
  · exact Nat.le_of_lt (List.rel_of_pairwise_cons sorted hb)

/-- The columns beyond the edge are those that have no cell. -/
theorem drawColumns_eq (row : UInt8) (left : Nat) {y : Nat} (hy : y < 32) {columns : List Nat}
    (sorted : columns.Pairwise (· < ·)) (narrow : ∀ c ∈ columns, c < 8) (drawn : Console × Bool) :
    drawColumns row left y columns drawn =
      .ok ((columns.filterMap fun c =>
        if Sprite.bit row c then Cell.ofNat? (left + c) y else none).foldl Host.flip drawn) := by
  induction columns generalizing drawn with
  | nil => rfl
  | cons c columns ih =>
    have hrest := ih sorted.of_cons fun d hd => narrow d (List.mem_cons_of_mem c hd)
    unfold drawColumns
    by_cases hedge : 64 ≤ left + c
    · have hnone : ∀ d ∈ c :: columns,
          (if Sprite.bit row d then Cell.ofNat? (left + d) y else none) = none := by
        intro d hd
        have hle : c ≤ d := head_le_of_sorted sorted d hd
        have hright : 64 ≤ left + d := Nat.le_trans hedge (Nat.add_le_add_left hle left)
        have hcell : Cell.ofNat? (left + d) y = none := Cell.ofNat?_of_le (.inl hright)
        rw [hcell, ite_self]
      rw [if_pos hedge, List.filterMap_eq_nil_iff.mpr hnone]
      rfl
    · have hcell := Cell.ofNat?_of_lt (Nat.lt_of_not_le hedge) hy
      have hbit : readBit row c = .ok (Sprite.bit row c) :=
        check_of (narrow c List.mem_cons_self) _ _
      rw [if_neg hedge, hbit, ok_bind, List.filterMap_cons]
      cases Sprite.bit row c with
      | false => exact hrest drawn
      | true =>
        rw [if_pos rfl, if_pos rfl, hcell, List.foldl_cons,
          flip_cell drawn ⟨⟨left + c, _⟩, ⟨y, hy⟩⟩]
        exact hrest _

theorem drawRows_eq (m : Machine Console) (left top : Nat) {rows : List Nat}
    (sorted : rows.Pairwise (· < ·)) (drawn : Console × Bool) :
    drawRows m left top rows drawn =
      .ok ((rows.flatMap fun r =>
        Sprite.rowCells (m.memory.cell (m.index.toNat + r)) left (top + r)).foldl
          Host.flip drawn) := by
  induction rows generalizing drawn with
  | nil => rfl
  | cons r rows ih =>
    unfold drawRows
    by_cases hedge : 32 ≤ top + r
    · have hnone : ∀ s ∈ r :: rows,
          Sprite.rowCells (m.memory.cell (m.index.toNat + s)) left (top + s) = [] := by
        intro s hs
        have hle : r ≤ s := head_le_of_sorted sorted s hs
        have hbelow : 32 ≤ top + s := Nat.le_trans hedge (Nat.add_le_add_left hle top)
        apply List.filterMap_eq_nil_iff.mpr
        intro c _
        have hcell : Cell.ofNat? (left + c) (top + s) = none := Cell.ofNat?_of_le (.inr hbelow)
        rw [hcell, ite_self]
      rw [if_pos hedge, List.flatMap_eq_nil_iff.mpr hnone]
      rfl
    · have hcols : (List.range 8).Pairwise (· < ·) := List.pairwise_lt_range
      have hcolumns := drawColumns_eq (m.memory.cell (m.index.toNat + r)) left
        (Nat.lt_of_not_le hedge) hcols (fun c hc => List.mem_range.mp hc) drawn
      have hread : readCell m.memory (place m r) = .ok (m.memory.cell (m.index.toNat + r)) :=
        readCell_mod m.memory (m.index.toNat + r)
      rw [if_neg hedge, hread, ok_bind, hcolumns, ok_bind, ih sorted.of_cons, List.flatMap_cons,
        List.foldl_append]
      rfl

theorem draw_eq (m : Machine Console) (x y : Register) (height : UInt8) :
    draw m x.val y.val height = .ok (m.draw x y height) := by
  unfold draw
  rw [readRegister_val, readRegister_val, ok_bind, ok_bind,
    drawRows_eq m _ _ List.pairwise_lt_range, ok_bind]
  unfold Machine.draw Host.flipAll
  change (setRegister m.registers flagRegister.val _ >>= _) = _
  rw [setRegister_val, ok_bind]
  rfl

theorem skipKey_eq (m : Machine Console) (test : KeyTest) (x : Register) :
    skipKey m test x.val = .ok (m.skipKey test x) := by
  unfold skipKey
  rw [readRegister_val, ok_bind, toNat_and_key]
  have hkey := readKey_val m.host.keypad ⟨(m.reg x).toNat % 16, Nat.mod_lt _ (by decide)⟩
  dsimp only at hkey
  rw [hkey, ok_bind]
  rfl

theorem firstPressed_eq (h : Console) (keys : List Key) :
    firstPressed h.keypad (keys.map Fin.val) = .ok ((Host.firstPressed h keys).1.map Fin.val) ∧
      (Host.firstPressed h keys).2 = h := by
  induction keys with
  | nil => exact ⟨rfl, rfl⟩
  | cons k rest ih =>
    have hread : Host.readKey h k = (h.keypad.isDown k, h) := rfl
    rw [List.map_cons]
    unfold firstPressed Host.firstPressed
    rw [readKey_val, ok_bind, hread]
    cases h.keypad.isDown k with
    | false => exact ih
    | true => exact ⟨rfl, rfl⟩

theorem awaitKey_eq (m : Machine Console) (x : Register) :
    awaitKey m x.val x = .ok (m.awaitKey x) := by
  have hkeys : List.range 16 = (List.finRange 16).map Fin.val := by decide
  have hfirst := firstPressed_eq m.host (List.finRange 16)
  unfold awaitKey Machine.awaitKey
  rw [hkeys, hfirst.1, ok_bind]
  cases hfound : Host.firstPressed m.host (List.finRange 16) with
  | mk found host =>
    rw [hfound] at hfirst
    have hhost : host = m.host := hfirst.2
    subst hhost
    cases found with
    | none => rfl
    | some k =>
      dsimp only [Option.map_some]
      rw [setRegister_val, ok_bind]
      rfl

theorem store_eq (m : Machine Console) (o : Nat) (bytes : List UInt8) (memory : Memory) :
    store m o (bytes.map .ok) memory = .ok (memory.write (m.index.toNat + o) bytes) := by
  induction bytes generalizing o memory with
  | nil => rfl
  | cons b rest ih =>
    have hset : setCell memory (place m o) b = .ok (memory.setCell (m.index.toNat + o) b) :=
      setCell_mod memory (m.index.toNat + o) b
    rw [List.map_cons]
    unfold store Memory.write
    rw [ok_bind, hset, ok_bind, ih]
    rfl

theorem map_readRegister (m : Machine Console) (x : Register) :
    (List.range (x.val + 1)).map (readRegister m.registers) = (m.lowRegisters x).map .ok := by
  unfold Machine.lowRegisters
  apply List.ext_getElem
  · rw [List.length_map, List.length_range, List.length_map, List.length_take, Vector.length_toList]
    omega
  · intro i hi _
    have hx : x.val < 16 := x.isLt
    have hlt : i < 16 := by
      rw [List.length_map, List.length_range] at hi
      omega
    have hread : readRegister m.registers i = .ok m.registers[i] := readRegister_val m ⟨i, hlt⟩
    simpa using hread

/-- One register after the other, up to any number of them. -/
theorem load_eq (m : Machine Console) {count : Nat} (h : count ≤ 16) :
    load m count = .ok (Vector.ofFn fun i : Register =>
      if i.val < count then m.memory.cell (m.index.toNat + i.val) else m.reg i) := by
  induction count with
  | zero =>
    have hnone : (Vector.ofFn fun i : Register =>
        if i.val < 0 then m.memory.cell (m.index.toNat + i.val) else m.reg i) = m.registers := by
      apply Vector.ext
      intro i hi
      simp [Machine.reg]
    rw [hnone]
    rfl
  | succ count ih =>
    have hread : readCell m.memory (place m count) =
        .ok (m.memory.cell (m.index.toNat + count)) := readCell_mod m.memory _
    have hset : ∀ (r : Registers) (b : UInt8), setRegister r count b = .ok (r.set count b) :=
      fun _ _ => check_of h _ _
    unfold load at ih ⊢
    rw [List.range_succ, List.foldlM_append, ih (Nat.le_of_succ_le h), ok_bind, List.foldlM_cons,
      hread, ok_bind, hset, ok_bind]
    apply congrArg Except.ok
    apply Vector.ext
    intro i hi
    simp only [Vector.getElem_set, Vector.getElem_ofFn]
    grind

theorem transfer_eq (m : Machine Console) (op : Transfer) (x : Register) :
    transfer m op x.val x = .ok (m.transfer op x) := by
  cases op with
  | readDelay =>
    unfold transfer
    dsimp only
    rw [setRegister_val]
    rfl
  | awaitKey => exact awaitKey_eq m x
  | writeDelay | writeSound | addToIndex =>
    unfold transfer
    dsimp only
    rw [readRegister_val]
    rfl
  | pointAtGlyph =>
    have hlt := (m.reg x).toNat_lt
    have hbound : fontAddress + (m.reg x).toNat * glyphHeight < 65536 := by
      change 0 + (m.reg x).toNat * 5 < 65536
      omega
    unfold transfer
    dsimp only
    rw [readRegister_val, ok_bind, word_of_lt hbound, ok_bind]
    rfl
  | storeDecimal =>
    have hstore := store_eq m 0 (Machine.decimalDigits (m.reg x)) m.memory
    unfold transfer
    dsimp only
    rw [readRegister_val, ok_bind]
    exact congrArg (· >>= _) hstore
  | storeRegisters =>
    unfold transfer
    dsimp only
    rw [map_readRegister, store_eq]
    rfl
  | loadRegisters =>
    have hload := load_eq m x.isLt
    unfold transfer
    dsimp only
    rw [hload, ok_bind]
    simp only [Nat.lt_succ_iff]
    rfl

theorem word_jumpBeyond (m : Machine Console) (w : Opcode) :
    word ((Opcode.nnn w).toNat + (m.reg 0).toNat) =
      .ok (Opcode.nnn w + (m.reg 0).toUInt16) := by
  have hlt := (m.reg 0).toNat_lt
  have hbound : (Opcode.nnn w).toNat + (m.reg 0).toNat < 65536 := by
    rw [Opcode.toNat_nnn]
    omega
  rw [word_of_lt hbound]
  apply congrArg Except.ok
  apply UInt16.toNat_inj.mp
  simp

theorem execute_eq {m : Machine Console} {w : Opcode} {i : Instruction}
    (room : m.stack.length ≤ stackLimit) (h : w.Encodes i) :
    execute m w i = .ok (m.execute i) := by
  cases i with
  | clear | leave | routine | jump | pointAt => rfl
  | call address => exact call_eq room address
  | skipEqual | skipUnequal | load | increase | random =>
    rcases h with ⟨-, rfl, rfl⟩
    simp only [execute, xField_eq, readRegister_val, setRegister_val, ok_bind]
    rfl
  | skipSame | skipDifferent =>
    rcases h with ⟨-, rfl, rfl⟩
    simp only [execute, xField_eq, yField_eq, readRegister_val, ok_bind]
    rfl
  | combine =>
    rcases h with ⟨-, -, rfl, rfl⟩
    simp only [execute, xField_eq, yField_eq, combine_eq, ok_bind]
    rfl
  | jumpBeyond =>
    rcases h with ⟨-, rfl⟩
    have hread : readRegister m.registers 0 = .ok (m.reg 0) :=
      readRegister_val m 0
    simp only [execute, hread, word_jumpBeyond, ok_bind]
    rfl
  | draw =>
    rcases h with ⟨-, rfl, rfl, rfl⟩
    simp only [execute, xField_eq, yField_eq, draw_eq]
    rfl
  | skipKey =>
    rcases h with ⟨-, -, rfl⟩
    simp only [execute, xField_eq, skipKey_eq]
    rfl
  | transfer =>
    rcases h with ⟨-, -, rfl⟩
    simp only [execute, xField_eq, transfer_eq]
    rfl

theorem cycle_eq {m : Machine Console} (room : m.stack.length ≤ stackLimit) :
    cycle m = .ok m.cycle := by
  unfold cycle
  rw [fetch_eq, ok_bind]
  dsimp only
  rcases m.word_cases with hunused | ⟨i, hi⟩
  · rw [Instruction.decode?_eq_none_iff.mpr hunused, Machine.cycle_of_unused hunused]
    rfl
  · have hexecute : execute m.fetch m.word i = .ok (m.fetch.execute i) := execute_eq room hi
    rw [Instruction.decode?_of_encodes hi, Machine.cycle_of_encodes hi]
    exact congrArg (· >>= _) hexecute

theorem attempt_eq {m : Machine Console} (room : m.stack.length ≤ stackLimit) (policy : Policy) :
    attempt policy m = .ok (m.attempt policy) := by
  unfold attempt Machine.attempt
  rw [cycle_eq room, ok_bind]
  dsimp only
  cases m.cycle.result with
  | ok signal => rfl
  | error fault => cases policy <;> rfl

theorem tick_eq (c : Countdown) : tick c = .ok c.tick := by
  by_cases h : 0 < c.value
  · have hone : (1 : UInt8).toNat ≤ c.value.toNat := UInt8.lt_iff_toNat_lt.mp h
    have hsubtract : subtract c.value 1 = .ok (c.value - 1) := check_of hone _ _
    unfold tick Countdown.tick
    rw [if_pos h, if_pos h, hsubtract]
    rfl
  · have hsame := Countdown.tick_of_not_running fun hrunning => h (of_decide_eq_true hrunning)
    rw [hsame]
    exact if_neg h

theorem countDown_eq (m : Machine Console) : countDown m = .ok m.countDown := by
  unfold countDown Machine.countDown
  rw [tick_eq, ok_bind]
  dsimp only
  by_cases h : m.sound.isRunning
  · rw [if_pos h, tick_eq]
    rfl
  · rw [if_neg h, Countdown.tick_of_not_running h]
    rfl

theorem boot_eq (program : Program) (host : Console) (random : RandomStream) :
    boot program host random = .ok (Machine.initial program host random) := by
  have hfont : copy Memory.blank fontAddress font = .ok (Memory.blank.write fontAddress font) :=
    check_of (by decide) _ _
  have hend : programStart.toNat + program.image.length ≤ 4096 := by
    have hlength : program.image.length ≤ 3584 := program.length_le
    change 512 + program.image.length ≤ 4096
    omega
  have himage := check_of hend (.memory (programStart.toNat + program.image.length)) fun _ =>
    (Memory.blank.write fontAddress font).write programStart.toNat program.image
  unfold boot
  rw [hfont, ok_bind]
  exact congrArg (· >>= _) himage

theorem touch_eq (h : Console) (t : Touch) : touch h t = .ok (t.apply h) := by
  cases t with
  | wipe | mark | takeChanged | releaseKeys => rfl
  | look | light | darken =>
    simp only [touch, readPixel_cell, setPixel_cell, ok_bind]
    rfl
  | setKey | toggleKey | setKeys =>
    simp only [touch, readKey_val, setKey_val, setKeys_toList, ok_bind]
    rfl

theorem serve_eq {m : Machine Console} (room : m.stack.length ≤ stackLimit) (request : Request) :
    serve m request = .ok (m.serve request) := by
  cases request with
  | cycle =>
    simp only [serve, cycle_eq room, ok_bind]
    rfl
  | attempt policy =>
    simp only [serve, attempt_eq room policy, ok_bind]
    rfl
  | countDown =>
    simp only [serve, countDown_eq, ok_bind]
    rfl
  | passOver => rfl
  | touch t =>
    simp only [serve, touch_eq, ok_bind]
    rfl

end Guarded

namespace Machine

/-- A request is a piece of a history. -/
theorem serve_eq_perform (m : Machine Console) (request : Request) :
    ∃ actions, m.serve request = m.perform actions := by
  cases request with
  | cycle => exact ⟨[.cycle], rfl⟩
  | attempt policy =>
    cases hresult : m.cycle.result with
    | ok signal => exact ⟨[.cycle], congrArg Turn.state (attempt_of_ok hresult policy)⟩
    | error fault =>
      cases policy with
      | halt =>
        exact ⟨[.cycle], (congrArg Turn.state (attempt_halt_of_error hresult)).trans
          (state_cycle_of_error hresult).symm⟩
      | skip =>
        have hstate := state_cycle_of_error hresult
        refine ⟨[.cycle, .passOver], ?_⟩
        change (m.attempt .skip).state = m.cycle.state.passOver
        rw [attempt_skip_of_error hresult, hstate]
  | countDown => exact ⟨[.countDown], rfl⟩
  | passOver => exact ⟨[.passOver], rfl⟩
  | touch t => exact ⟨[.host t.apply], rfl⟩

theorem sound_serve {m : Machine Console} (h : m.Sound) (request : Request) :
    (m.serve request).Sound := by
  rcases m.serve_eq_perform request with ⟨actions, hactions⟩
  rw [hactions]
  exact perform_induction (P := Sound) (fun _ action hm => sound_act hm action) h actions

end Machine

namespace Guarded

theorem serveAll_eq {m : Machine Console} (h : m.Sound) (requests : List Request) :
    requests.foldlM serve m = .ok (requests.foldl Machine.serve m) := by
  induction requests generalizing m with
  | nil => rfl
  | cons request rest ih =>
    rw [List.foldlM_cons, serve_eq h.depth_le, ok_bind]
    exact ih (m.sound_serve h request)

/-- From the start of a program on, whatever is asked of the machine, no guard is hit, and the
machine comes to what it comes to without them. -/
theorem run_without_overrun (program : Program) (host : Console) (random : RandomStream)
    (requests : List Request) :
    (boot program host random >>= fun m => requests.foldlM serve m) =
      .ok (requests.foldl Machine.serve (Machine.initial program host random)) := by
  rw [boot_eq, ok_bind]
  exact serveAll_eq (Machine.sound_initial program host random) requests

/-- A deeper stack would be an overrun: the call is refused at its limit only. -/
example (m : Machine Console) :
    call { m with stack := List.replicate 17 0x200 } 0x300 = .error (.push 17) := rfl

end Guarded

end ChipEight

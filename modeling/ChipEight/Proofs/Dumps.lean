import ChipEight.Proofs.Legibility

/-!
A dump determines all that it shows. Only the name may break the line. The lines are cut off from
the end: the blocks below the memory are always as many, the rows of memory end where its title
stands, and what is then left over at the front is the name.
-/
namespace ChipEight

namespace Dump

/-- The lines of a text. -/
def cut (text : String) : List String := (text.toList.splitOn '\n').map String.ofList

theorem cut_inj {s t : String} (h : cut s = cut t) : s = t := by
  have h := List.map_inj_right (fun _ _ => String.ofList_inj.mp) |>.mp h
  have h := congrArg (List.intercalate ['\n']) h
  rw [List.intercalate_splitOn, List.intercalate_splitOn] at h
  exact String.toList_inj.mp h

theorem cut_of_oneLine {line : String} (h : OneLine line) : cut line = [line] := by
  rw [cut, List.splitOn_eq_singleton h, List.map_singleton, String.ofList_toList]

theorem cut_append (s t : String) : cut (s ++ "\n" ++ t) = cut s ++ cut t := by
  have hcut : (s.toList ++ '\n' :: t.toList).splitOn '\n' =
      s.toList.splitOn '\n' ++ t.toList.splitOn '\n' := List.splitOnP_append_cons _ _ rfl
  simpa [cut] using congrArg (List.map String.ofList) hcut

theorem cut_intercalate {lines : List String} (h : lines ≠ []) :
    cut ("\n".intercalate lines) = lines.flatMap cut := by
  induction lines with
  | nil => exact absurd rfl h
  | cons line rest ih =>
    cases rest with
    | nil => simp
    | cons next rest =>
      rw [String.intercalate_cons_cons, cut_append, ih (List.cons_ne_nil _ _)]
      rfl

theorem flatMap_cut {lines : List String} (h : ∀ line ∈ lines, OneLine line) :
    lines.flatMap cut = lines := by
  induction lines with
  | nil => rfl
  | cons line rest ih =>
    rw [List.forall_mem_cons] at h
    rw [List.flatMap_cons, cut_of_oneLine h.1, ih h.2, List.singleton_append]

@[simp] theorem indented_inj {s t : String} : indented s = indented t ↔ s = t :=
  String.append_right_inj _

@[simp] theorem oneLine_indented {line : String} : OneLine (indented line) ↔ OneLine line := by
  rw [indented, oneLine_append]
  exact and_iff_right (by decide)

@[simp] theorem titled_inj {name : String} {body body' : List String} :
    titled name body = titled name body' ↔ body = body' := by
  simp only [titled, List.cons.injEq, true_and]
  exact List.map_inj_right fun _ _ => indented_inj.mp

@[simp] theorem length_titled (name : String) (body : List String) :
    (titled name body).length = body.length + 1 := by
  simp [titled]

theorem oneLine_titled {name : String} {body : List String} (hname : OneLine (title name))
    (hbody : ∀ line ∈ body, OneLine line) : ∀ line ∈ titled name body, OneLine line := by
  simpa [titled, hname] using hbody

/-- What no line of the second part is cuts a list at one place only. -/
theorem append_cons_inj {A : Type} {a : A} {xs xs' ys ys' : List A} (last : a ∉ ys)
    (last' : a ∉ ys') (h : xs ++ a :: ys = xs' ++ a :: ys') : xs = xs' ∧ ys = ys' := by
  -- one of the two places is not behind the other, and what lies between them ends in `a`
  obtain ⟨between, rfl, hys⟩ | ⟨between, rfl, hys'⟩ := List.append_eq_append_iff.mp h
  · cases between with
    | nil => simpa using hys
    | cons _ between =>
      obtain ⟨-, rfl⟩ := List.cons.inj hys
      simp at last
  · cases between with
    | nil => simpa using hys'.symm
    | cons _ between =>
      obtain ⟨-, rfl⟩ := List.cons.inj hys'
      simp at last'

theorem title_memory_not_mem (body : List String) : title "Memory" ∉ body.map indented := by
  intro h
  obtain ⟨line, -, hline⟩ := List.mem_map.mp h
  have hsecond := congrArg (fun line : String => line.toList[1]?) hline
  simp [title, indented] at hsecond

end Dump

/-- The listing is read off from its text line by line. -/
theorem Memory.listing_text_inj {p q : Memory}
    (h : "\n".intercalate (p.listing.map Row.text) = "\n".intercalate (q.listing.map Row.text)) :
    p = q := by
  have hcut := congrArg Dump.cut h
  have oneLine (m : Memory) : ∀ line ∈ m.listing.map Row.text, Dump.OneLine line := by
    simp [Row.oneLine_text]
  have ne_nil (m : Memory) : m.listing.map Row.text ≠ [] := by
    simpa using m.listing_ne_nil
  rw [Dump.cut_intercalate (ne_nil p), Dump.cut_intercalate (ne_nil q),
    Dump.flatMap_cut (oneLine p), Dump.flatMap_cut (oneLine q)] at hcut
  exact map_text_listing_inj.mp hcut

namespace Machine

variable {m m' : Machine Console}

/-- The lines between the name and the memory. -/
def valueLines (m : Machine Console) : List String :=
  Dump.titled "Opcode" [hex4 m.opcode]
    ++ Dump.titled "Program Counter" [hex4 m.pc]
    ++ Dump.titled "Index Register" [hex4 m.index]
    ++ Dump.titled "Delay Timer" [hex4 m.delay.value.toUInt16]
    ++ Dump.titled "Sound Timer" [hex4 m.sound.value.toUInt16]

/-- The lines below the memory. -/
def blockLines (m : Machine Console) : List String :=
  Dump.titled "Keyboard" (Dump.table Dump.flagsText m.host.keypad.flags)
    ++ Dump.titled "Stack" (Dump.table Dump.wordsText m.stackCells)
    ++ Dump.titled "Register" (Dump.table Dump.wordsText (m.registers.map UInt8.toUInt16))
    ++ Dump.titled "Screen" (m.host.screen.rows.toList.map Dump.pixelRow)
    ++ ["\x7d"]

theorem dumpLines_eq (m : Machine Console) :
    m.dumpLines = ["Chipset \x7b", Dump.title "Program Name"] ++ Dump.indented m.name ::
      (m.valueLines ++ Dump.titled "Memory" (m.memory.listing.map Row.text) ++ m.blockLines) := by
  simp [dumpLines, valueLines, blockLines, Dump.titled]

theorem oneLine_valueLines (m : Machine Console) : ∀ line ∈ m.valueLines, Dump.OneLine line := by
  simp only [valueLines, List.forall_mem_append]
  refine ⟨⟨⟨⟨?_, ?_⟩, ?_⟩, ?_⟩, ?_⟩ <;> exact Dump.oneLine_titled (by decide) (by simp)

theorem oneLine_blockLines (m : Machine Console) : ∀ line ∈ m.blockLines, Dump.OneLine line := by
  simp only [blockLines, List.forall_mem_append]
  refine ⟨⟨⟨⟨?_, ?_⟩, ?_⟩, ?_⟩, by decide⟩
  · exact Dump.oneLine_titled (by decide) (Dump.legible_flagsText.oneLine_table _)
  · exact Dump.oneLine_titled (by decide) (Dump.legible_wordsText.oneLine_table _)
  · exact Dump.oneLine_titled (by decide) (Dump.legible_wordsText.oneLine_table _)
  · exact Dump.oneLine_titled (by decide) (by simp [Dump.oneLine_pixelRow])

theorem length_valueLines (m : Machine Console) : m.valueLines.length = 10 := by
  simp [valueLines]

theorem length_blockLines (m : Machine Console) : m.blockLines.length = 43 := by
  simp [blockLines, Dump.table, screenHeight]

theorem cut_dump (m : Machine Console) :
    Dump.cut m.dump = ["Chipset \x7b", Dump.title "Program Name"] ++
      (Dump.cut (Dump.indented m.name) ++
        (m.valueLines ++ Dump.titled "Memory" (m.memory.listing.map Row.text) ++ m.blockLines)) := by
  have above : ∀ line ∈ ["Chipset \x7b", Dump.title "Program Name"], Dump.OneLine line := by decide
  have below : ∀ line ∈ m.valueLines ++ Dump.titled "Memory" (m.memory.listing.map Row.text) ++
      m.blockLines, Dump.OneLine line := by
    simp only [List.forall_mem_append]
    exact ⟨⟨m.oneLine_valueLines, Dump.oneLine_titled (by decide) (by simp [Row.oneLine_text])⟩,
      m.oneLine_blockLines⟩
  rw [dump, dumpLines_eq, Dump.cut_intercalate (by simp), List.flatMap_append,
    Dump.flatMap_cut above, List.flatMap_cons, Dump.flatMap_cut below]

/-- The name may look like the rest of a dump, so nothing is read off from the front. -/
theorem sections_of_dump_eq (h : m.dump = m'.dump) :
    m.name = m'.name ∧ m.valueLines = m'.valueLines ∧ m.memory = m'.memory ∧
      m.blockLines = m'.blockLines := by
  have hcut := congrArg Dump.cut h
  rw [cut_dump, cut_dump, List.append_cancel_left_eq, ← List.append_assoc, ← List.append_assoc,
    ← List.append_assoc, ← List.append_assoc] at hcut
  obtain ⟨hcut, hblocks⟩ := List.append_inj' hcut (by simp [length_blockLines])
  -- the number of rows may differ, so this cut is at the title and not at a length
  obtain ⟨hcut, hrows⟩ :=
    Dump.append_cons_inj (Dump.title_memory_not_mem _) (Dump.title_memory_not_mem _) hcut
  obtain ⟨hname, hvalues⟩ := List.append_inj' hcut (by simp [length_valueLines])
  have hrows := (List.map_inj_right fun _ _ => Dump.indented_inj.mp).mp hrows
  exact ⟨Dump.indented_inj.mp (Dump.cut_inj hname), hvalues, Memory.map_text_listing_inj.mp hrows,
    hblocks⟩

theorem valueLines_inj : m.valueLines = m'.valueLines ↔
    m.opcode = m'.opcode ∧ m.pc = m'.pc ∧ m.index = m'.index ∧ m.delay.value = m'.delay.value ∧
      m.sound.value = m'.sound.value := by
  simp [valueLines, Dump.titled, hex4_inj, UInt8.toUInt16_inj]

theorem blocks_of_blockLines_eq (h : m.blockLines = m'.blockLines) :
    m.host.keypad.flags = m'.host.keypad.flags ∧ m.stackCells = m'.stackCells ∧
      m.registers = m'.registers ∧ m.host.screen.rows = m'.host.screen.rows := by
  simp only [blockLines, List.append_cancel_right_eq] at h
  obtain ⟨h, hscreen⟩ := List.append_inj' h (by simp)
  obtain ⟨h, hregisters⟩ := List.append_inj' h (by simp [Dump.table])
  obtain ⟨hkeys, hstack⟩ := List.append_inj' h (by simp [Dump.table])
  rw [Dump.titled_inj] at hkeys hstack hregisters hscreen
  have hregisters := Dump.legible_wordsText.table_inj hregisters
  have hscreen := (List.map_inj_right fun _ _ => Dump.pixelRow_inj).mp hscreen
  exact ⟨Dump.legible_flagsText.table_inj hkeys, Dump.legible_wordsText.table_inj hstack,
    (Vector.map_inj_right fun _ _ => UInt8.toUInt16_inj.mp).mp hregisters,
    Vector.toList_inj.mp hscreen⟩

/-- The return addresses, the outermost first, and zeros up to the size of the stack. -/
def paddedStack (m : Machine Console) : List UInt16 :=
  m.stack.reverse ++ List.replicate (stackLimit - m.stack.length) 0

theorem toList_stackCells (fits : m.stack.length ≤ stackLimit) :
    m.stackCells.toList = m.paddedStack := by
  simp only [stackLimit] at fits
  apply List.ext_getElem
  · simp [paddedStack, stackLimit]
    omega
  · intro i hi _
    by_cases used : i < m.stack.length
    · simp [stackCells, paddedStack, used]
    · simp [stackCells, paddedStack, used, List.getElem_append]

/-- Two machines agree in all that a dump is of. -/
structure Alike (m m' : Machine Console) : Prop where
  name : m.name = m'.name
  opcode : m.opcode = m'.opcode
  pc : m.pc = m'.pc
  index : m.index = m'.index
  delay : m.delay.value = m'.delay.value
  sound : m.sound.value = m'.sound.value
  memory : ∀ a : Address, m.memory[a] = m'.memory[a]
  keys : ∀ k : Key, m.host.keypad.isDown k = m'.host.keypad.isDown k
  registers : ∀ r, m.reg r = m'.reg r
  pixels : ∀ c, m.host.screen.get c = m'.host.screen.get c
  stack : m.paddedStack = m'.paddedStack

theorem alike_of_dump_eq (fits : m.stack.length ≤ stackLimit)
    (fits' : m'.stack.length ≤ stackLimit) (h : m.dump = m'.dump) : m.Alike m' := by
  obtain ⟨hname, hvalues, hmemory, hblocks⟩ := sections_of_dump_eq h
  obtain ⟨hopcode, hpc, hindex, hdelay, hsound⟩ := valueLines_inj.mp hvalues
  obtain ⟨hkeys, hstack, hregisters, hscreen⟩ := blocks_of_blockLines_eq hblocks
  exact {
    name := hname
    opcode := hopcode
    pc := hpc
    index := hindex
    delay := hdelay
    sound := hsound
    memory := fun a => by rw [hmemory]
    keys := fun k => by simp only [Keypad.isDown, hkeys]
    registers := fun r => by simp only [reg, hregisters]
    pixels := fun c => by simp only [Screen.get, hscreen]
    stack := by rw [← toList_stackCells fits, ← toList_stackCells fits', hstack] }

theorem Alike.dump_eq (fits : m.stack.length ≤ stackLimit)
    (fits' : m'.stack.length ≤ stackLimit) (alike : m.Alike m') : m.dump = m'.dump := by
  have hmemory : m.memory = m'.memory := Vector.ext fun a ha => alike.memory ⟨a, ha⟩
  have hkeys : m.host.keypad.flags = m'.host.keypad.flags :=
    Vector.ext fun k hk => alike.keys ⟨k, hk⟩
  have hregisters : m.registers = m'.registers := Vector.ext fun r hr => alike.registers ⟨r, hr⟩
  have hrows : m.host.screen.rows = m'.host.screen.rows :=
    Vector.ext fun y hy => Vector.ext fun x hx => alike.pixels ⟨⟨x, hx⟩, ⟨y, hy⟩⟩
  have hstack : m.stackCells = m'.stackCells := by
    rw [← Vector.toList_inj, toList_stackCells fits, toList_stackCells fits', alike.stack]
  rw [dump, dump, dumpLines, dumpLines, alike.name, alike.opcode, alike.pc, alike.index,
    alike.delay, alike.sound, hmemory, hkeys, hregisters, hrows, hstack]

/-- Two dumps are the same text only of machines that agree in all that a dump is of, and the text
of the memory alone already tells two memories apart. -/
theorem dump_eq_iff_alike (m m' : Machine Console) (fits : m.stack.length ≤ stackLimit)
    (fits' : m'.stack.length ≤ stackLimit) :
    (m.dump = m'.dump ↔ m.Alike m') ∧
      ∀ p q : Memory, p ≠ q →
        "\n".intercalate (p.listing.map Row.text) ≠ "\n".intercalate (q.listing.map Row.text) :=
  ⟨⟨alike_of_dump_eq fits fits', Alike.dump_eq fits fits'⟩, fun _ _ => mt Memory.listing_text_inj⟩

/-- A name that looks like a section, a zero on the stack, and a byte inside a run of zeros. -/
theorem dump_eq_iff_alike_of_a_return_to_zero :
    let m := initial ⟨"A\n\tOpcode :\n\t\t0xFFFF", [0x12, 0x00], by decide⟩ Console.fresh
      RandomStream.zeros
    let called : Machine Console := { m with stack := [0] }
    let poked : Machine Console := { m with memory := m.memory.setCell 0x0FFE 1 }
    m.stack.length ≤ stackLimit ∧ called.stack.length ≤ stackLimit ∧ m.dump = called.dump ∧
      m.dump ≠ poked.dump ∧ "\n".intercalate (m.memory.listing.map Row.text) ≠
        "\n".intercalate (poked.memory.listing.map Row.text) := by
  intro m called poked
  have differ : m.memory[(0x0FFE : Address)] ≠ poked.memory[(0x0FFE : Address)] := by decide +kernel
  have dumps := m.dump_eq_iff_alike called (by decide) (by decide)
  have pokedDumps := m.dump_eq_iff_alike poked (by decide) (by decide)
  refine ⟨by decide, by decide, dumps.1.mpr ?_, fun h => differ ((pokedDumps.1.mp h).memory _),
    pokedDumps.2 _ _ fun h => differ (by rw [h])⟩
  exact ⟨rfl, rfl, rfl, rfl, rfl, rfl, fun _ => rfl, fun _ => rfl, fun _ => rfl, fun _ => rfl,
    by decide⟩

end Machine

end ChipEight

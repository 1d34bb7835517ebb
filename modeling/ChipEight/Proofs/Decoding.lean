import ChipEight.Instruction.Decode

/-!
Which word encodes which instruction. The table below reads a word by its digits alone, and decoding
is the table read backwards: a word has the instruction that the table gives it, and none exactly if
its operation code is not in use.
-/
namespace ChipEight

def Combine.code : Combine → UInt8
  | .copy => 0x0
  | .or => 0x1
  | .and => 0x2
  | .xor => 0x3
  | .add => 0x4
  | .subtract => 0x5
  | .shiftRight => 0x6
  | .subtractFrom => 0x7
  | .shiftLeft => 0xE

def KeyTest.code : KeyTest → UInt8
  | .down => 0x9E
  | .up => 0xA1

def Transfer.code : Transfer → UInt8
  | .readDelay => 0x07
  | .awaitKey => 0x0A
  | .writeDelay => 0x15
  | .writeSound => 0x18
  | .addToIndex => 0x1E
  | .pointAtGlyph => 0x29
  | .storeDecimal => 0x33
  | .storeRegisters => 0x55
  | .loadRegisters => 0x65

theorem Combine.ofCode?_eq_some_iff {c : UInt8} {op : Combine} :
    ofCode? c = some op ↔ c = op.code := by
  refine ⟨?_, ?_⟩
  · intro h
    unfold ofCode? at h
    split at h <;> cases h <;> rfl
  · intro h
    subst h
    cases op <;> rfl

theorem Combine.ofCode?_eq_none_iff {c : UInt8} :
    ofCode? c = none ↔ c ∉ [0x0, 0x1, 0x2, 0x3, 0x4, 0x5, 0x6, 0x7, 0xE] := by
  unfold ofCode?
  split <;> simp_all

theorem KeyTest.ofCode?_eq_some_iff {c : UInt8} {test : KeyTest} :
    ofCode? c = some test ↔ c = test.code := by
  refine ⟨?_, ?_⟩
  · intro h
    unfold ofCode? at h
    split at h <;> cases h <;> rfl
  · intro h
    subst h
    cases test <;> rfl

theorem KeyTest.ofCode?_eq_none_iff {c : UInt8} : ofCode? c = none ↔ c ∉ [0x9E, 0xA1] := by
  unfold ofCode?
  split <;> simp_all

theorem Transfer.ofCode?_eq_some_iff {c : UInt8} {op : Transfer} :
    ofCode? c = some op ↔ c = op.code := by
  refine ⟨?_, ?_⟩
  · intro h
    unfold ofCode? at h
    split at h <;> cases h <;> rfl
  · intro h
    subst h
    cases op <;> rfl

theorem Transfer.ofCode?_eq_none_iff {c : UInt8} :
    ofCode? c = none ↔ c ∉ [0x07, 0x0A, 0x15, 0x18, 0x1E, 0x29, 0x33, 0x55, 0x65] := by
  unfold ofCode?
  split <;> simp_all

namespace Opcode

/-- The table of instruction words. -/
def Encodes (w : Opcode) : Instruction → Prop
  | .clear => w = 0x00E0
  | .leave => w = 0x00EE
  | .routine address => family w = 0x0 ∧ w ≠ 0x00E0 ∧ w ≠ 0x00EE ∧ nnn w = address
  | .jump address => family w = 0x1 ∧ nnn w = address
  | .call address => family w = 0x2 ∧ nnn w = address
  | .skipEqual r v => family w = 0x3 ∧ x w = r ∧ nn w = v
  | .skipUnequal r v => family w = 0x4 ∧ x w = r ∧ nn w = v
  | .skipSame r s => family w = 0x5 ∧ x w = r ∧ y w = s
  | .load r v => family w = 0x6 ∧ x w = r ∧ nn w = v
  | .increase r v => family w = 0x7 ∧ x w = r ∧ nn w = v
  | .combine op r s => family w = 0x8 ∧ n w = op.code ∧ x w = r ∧ y w = s
  | .skipDifferent r s => family w = 0x9 ∧ x w = r ∧ y w = s
  | .pointAt address => family w = 0xA ∧ nnn w = address
  | .jumpBeyond address => family w = 0xB ∧ nnn w = address
  | .random r mask => family w = 0xC ∧ x w = r ∧ nn w = mask
  | .draw r s height => family w = 0xD ∧ x w = r ∧ y w = s ∧ n w = height
  | .skipKey test r => family w = 0xE ∧ nn w = test.code ∧ x w = r
  | .transfer op r => family w = 0xF ∧ nn w = op.code ∧ x w = r

/-- The words whose class has operation codes, but not theirs. -/
def Unused (w : Opcode) : Prop :=
  (family w = 0x8 ∧ n w ∉ [0x0, 0x1, 0x2, 0x3, 0x4, 0x5, 0x6, 0x7, 0xE]) ∨
  (family w = 0xE ∧ nn w ∉ [0x9E, 0xA1]) ∨
  (family w = 0xF ∧ nn w ∉ [0x07, 0x0A, 0x15, 0x18, 0x1E, 0x29, 0x33, 0x55, 0x65])

end Opcode

namespace Instruction

private theorem encodes_ofSystemWord {w : Opcode} (h : Opcode.family w = 0x0) :
    w.Encodes (ofSystemWord w) := by
  unfold ofSystemWord
  split
  · assumption
  · split
    · assumption
    · exact ⟨h, ‹_›, ‹_›, rfl⟩

theorem encodes_of_decode? {w : Opcode} {i : Instruction} (h : decode? w = some i) :
    w.Encodes i := by
  unfold decode? at h
  dsimp only at h
  split at h
  case h_1 hw =>
    cases h
    exact encodes_ofSystemWord (Fin.ext hw)
  case h_9 hw =>
    rcases Option.map_eq_some_iff.mp h with ⟨op, hop, rfl⟩
    exact ⟨Fin.ext hw, Combine.ofCode?_eq_some_iff.mp hop, rfl, rfl⟩
  case h_15 hw =>
    rcases Option.map_eq_some_iff.mp h with ⟨test, htest, rfl⟩
    exact ⟨Fin.ext hw, KeyTest.ofCode?_eq_some_iff.mp htest, rfl⟩
  case h_16 =>
    rcases Option.map_eq_some_iff.mp h with ⟨op, hop, rfl⟩
    have hw : (Opcode.family w).val = 15 := by grind
    exact ⟨Fin.ext hw, Transfer.ofCode?_eq_some_iff.mp hop, rfl⟩
  all_goals
    next hw =>
      cases h
      exact ⟨Fin.ext hw, by simp⟩

theorem decode?_of_encodes {w : Opcode} {i : Instruction} (h : w.Encodes i) :
    decode? w = some i := by
  cases i with
  | clear =>
    cases h
    decide
  | leave =>
    cases h
    decide
  | routine address =>
    rcases h with ⟨hw, hclear, hleave, rfl⟩
    simp [decode?, hw, ofSystemWord, hclear, hleave]
  | combine op r s =>
    rcases h with ⟨hw, hop, rfl, rfl⟩
    simp only [decode?, hw, Combine.ofCode?_eq_some_iff.mpr hop]
    rfl
  | skipKey test r =>
    rcases h with ⟨hw, htest, rfl⟩
    simp only [decode?, hw, KeyTest.ofCode?_eq_some_iff.mpr htest]
    rfl
  | transfer op r =>
    rcases h with ⟨hw, hop, rfl⟩
    simp only [decode?, hw, Transfer.ofCode?_eq_some_iff.mpr hop]
    rfl
  | jump | call | pointAt | jumpBeyond =>
    rcases h with ⟨hw, rfl⟩
    simp only [decode?, hw]
    rfl
  | draw =>
    rcases h with ⟨hw, rfl, rfl, rfl⟩
    simp only [decode?, hw]
    rfl
  | _ =>
    rcases h with ⟨hw, rfl, rfl⟩
    simp only [decode?, hw]
    rfl

theorem decode?_eq_some_iff {w : Opcode} {i : Instruction} :
    decode? w = some i ↔ w.Encodes i :=
  ⟨encodes_of_decode?, decode?_of_encodes⟩

private theorem family_eq_mk {w : Opcode} {t : Nat} (h : (Opcode.family w).val = t) :
    ∃ ht, Opcode.family w = ⟨t, ht⟩ := by
  subst h
  exact ⟨(Opcode.family w).isLt, rfl⟩

theorem decode?_eq_none_iff {w : Opcode} : decode? w = none ↔ w.Unused := by
  unfold decode? Opcode.Unused
  dsimp only
  split
  case h_9 hw =>
    rcases family_eq_mk hw with ⟨_, hw⟩
    simp [hw, Combine.ofCode?_eq_none_iff]
  case h_15 hw =>
    rcases family_eq_mk hw with ⟨_, hw⟩
    simp [hw, KeyTest.ofCode?_eq_none_iff]
  case h_16 =>
    have hw : (Opcode.family w).val = 15 := by grind
    rcases family_eq_mk hw with ⟨_, hw⟩
    simp [hw, Transfer.ofCode?_eq_none_iff]
  all_goals
    next hw =>
      rcases family_eq_mk hw with ⟨_, hw⟩
      simp [hw]

end Instruction

namespace Opcode

/-- The word `FX0A`. -/
def awaitKey (r : Register) : Opcode := (0xF00A : UInt16) ||| (UInt16.ofNat r.val <<< 8)

theorem toNat_awaitKey : ∀ r : Register, (awaitKey r).toNat = 0xF00A + 256 * r.val := by decide

theorem encodes_awaitKey_iff {w : Opcode} {r : Register} :
    w.Encodes (.transfer .awaitKey r) ↔ w = awaitKey r := by
  refine ⟨?_, ?_⟩
  · intro h
    rcases h with ⟨hfamily, hcode, rfl⟩
    have hdigits := toNat_eq_digits w
    have hlow : (nn w).toNat = 10 := congrArg UInt8.toNat hcode
    have hhigh : (digit w 3).val = 15 := congrArg Fin.val hfamily
    have hx : (x w).val = (digit w 2).val := rfl
    rw [toNat_nn] at hlow
    apply UInt16.toNat_inj.mp
    rw [toNat_awaitKey]
    omega
  · intro h
    subst h
    change family (awaitKey r) = 0xF ∧ nn (awaitKey r) = 0x0A ∧ x (awaitKey r) = r
    revert r
    decide

end Opcode

end ChipEight

/-!
Sixteen bit words: their four digits in base sixteen, and their one written form, `0x` followed by
exactly four upper case digits.
-/
namespace ChipEight

/-- Digits have sixteen values, so every number names one. -/
instance neZeroSixteen : @NeZero Nat Zero.ofOfNat0 16 := ⟨by decide⟩

/-- The digit of weight `16 ^ i`. -/
def digit (w : UInt16) (i : Nat) : Fin 16 :=
  ⟨w.toNat / Nat.pow 16 i % 16, Nat.mod_lt _ (by decide)⟩

def hexDigits : Vector Char 16 :=
  #v['0', '1', '2', '3', '4', '5', '6', '7', '8', '9', 'A', 'B', 'C', 'D', 'E', 'F']

def hexDigit (d : Fin 16) : Char := hexDigits[d]

def hex4 (w : UInt16) : String :=
  String.ofList ['0', 'x', hexDigit (digit w 3), hexDigit (digit w 2), hexDigit (digit w 1),
    hexDigit (digit w 0)]

theorem digit_val (w : UInt16) (i : Nat) : (digit w i).val = w.toNat / Nat.pow 16 i % 16 := rfl

theorem toNat_eq_digits (w : UInt16) :
    w.toNat = 4096 * (digit w 3).val + 256 * (digit w 2).val + 16 * (digit w 1).val
      + (digit w 0).val := by
  have h := w.toNat_lt
  have h0 : Nat.pow 16 0 = 1 := rfl
  have h1 : Nat.pow 16 1 = 16 := rfl
  have h2 : Nat.pow 16 2 = 256 := rfl
  have h3 : Nat.pow 16 3 = 4096 := rfl
  simp only [digit_val, h0, h1, h2, h3]
  omega

theorem digit_ext {v w : UInt16} (h : ∀ i < 4, digit v i = digit w i) : v = w := by
  apply UInt16.toNat_inj.mp
  rw [toNat_eq_digits v, toNat_eq_digits w, h 0 (by decide), h 1 (by decide), h 2 (by decide),
    h 3 (by decide)]

theorem hexDigit_injective : ∀ d e : Fin 16, hexDigit d = hexDigit e → d = e := by decide

/-- A written word determines the word. -/
theorem hex4_inj {v w : UInt16} : hex4 v = hex4 w ↔ v = w := by
  refine ⟨fun h => ?_, fun h => h ▸ rfl⟩
  have h := congrArg String.toList h
  simp only [hex4, String.toList_ofList, List.cons.injEq, and_true, true_and] at h
  obtain ⟨h3, h2, h1, h0⟩ := h
  apply digit_ext
  intro i hi
  match i, hi with
  | 0, _ => exact hexDigit_injective _ _ h0
  | 1, _ => exact hexDigit_injective _ _ h1
  | 2, _ => exact hexDigit_injective _ _ h2
  | 3, _ => exact hexDigit_injective _ _ h3

end ChipEight

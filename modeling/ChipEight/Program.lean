import ChipEight.Font

/-!
Programs and how they are loaded: the font stands at the bottom of memory, the program from address
`0x200` on, and all else is zero. A program is refused if it does not fit above `0x200`.
-/
namespace ChipEight

/-- Where execution begins. -/
def programStart : UInt16 := 0x200

/-- The bytes that fit from `programStart` to the end of memory. -/
abbrev programLimit : Nat := memorySize - programStart.toNat

structure Program where
  name : String
  image : List UInt8
  length_le : image.length ≤ programLimit

inductive LoadError where
  | doesNotFit (length limit : Nat)
  deriving DecidableEq, Repr

def LoadError.message : LoadError → String
  | .doesNotFit length limit =>
    s!"The program is {length} bytes long, but only {limit} bytes fit into memory."

namespace Program

def ofBytes (name : String) (image : List UInt8) : Except LoadError Program :=
  if h : image.length ≤ programLimit then .ok ⟨name, image, h⟩
  else .error (.doesNotFit image.length programLimit)

/-- Memory before the first instruction. -/
def memory (p : Program) : Memory :=
  (Memory.blank.write fontAddress font).write programStart.toNat p.image

theorem ofBytes_of_le {name : String} {image : List UInt8} (h : image.length ≤ programLimit) :
    ofBytes name image = .ok ⟨name, image, h⟩ := dif_pos h

theorem ofBytes_of_gt {name : String} {image : List UInt8} (h : programLimit < image.length) :
    ofBytes name image = .error (.doesNotFit image.length programLimit) := dif_neg (Nat.not_le.mpr h)

end Program

end ChipEight

/-!
A source of random bytes: an endless sequence and how much of it is used up.
-/
namespace ChipEight

structure RandomStream where
  bytes : Nat → UInt8
  position : Nat

namespace RandomStream

def zeros : RandomStream := ⟨fun _ => 0, 0⟩

/-- The pattern, over and over. -/
def cycle (pattern : Array UInt8) : RandomStream :=
  ⟨fun i => (pattern[i % pattern.size]?).getD 0, 0⟩

/-- The next byte and the stream behind it. -/
def take (r : RandomStream) : UInt8 × RandomStream :=
  (r.bytes r.position, { r with position := r.position + 1 })

end RandomStream

end ChipEight

namespace Asn1

/-- An integer from `-2 ^ 127` to `2 ^ 127 - 1`. -/
structure Integer where
  value : Int
  least_le : -Int.pow 2 127 ≤ value
  lt_bound : value < Int.pow 2 127
  deriving DecidableEq

namespace Integer

/-- No integer of 128 bits takes more octets than this in its shortest two's complement form. -/
def maxOctets : Nat := 16

/-- The integer, if 128 bits can hold it. -/
def ofInt? (value : Int) : Option Integer :=
  if h : -Int.pow 2 127 ≤ value ∧ value < Int.pow 2 127 then some ⟨value, h.1, h.2⟩ else none

end Integer

end Asn1

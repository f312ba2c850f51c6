import Asn1.Octets

/-!
Numbers as octets, most significant octet first: natural numbers without leading zeros, and
integers in two's complement with no more octets than their sign needs.
-/

namespace Asn1

/-- The octets of a natural number without leading zeros; zero has none. -/
def BigEndian.encode (n : Nat) : Octets :=
  if n = 0 then [] else BigEndian.encode (n / 256) ++ [UInt8.ofNat (n % 256)]

namespace TwosComplement

/-- The lowest eight bits of an integer. -/
def lowOctet (i : Int) : UInt8 :=
  UInt8.ofNat (i % 256).toNat

/-- The shortest two's complement form: one octet from -128 to 127, and one more octet for each
division by 256 that it takes to get there. -/
def encode (i : Int) : Octets :=
  if -128 ≤ i ∧ i < 128 then [lowOctet i] else encode (i / 256) ++ [lowOctet i]
termination_by i.natAbs

/-- Whether the high bit is set, which makes an integer that starts so negative. -/
def isNegative (octet : UInt8) : Bool :=
  128 ≤ octet

/-- The integer whose two's complement form the octets are. -/
def decode (octets : Octets) : Int :=
  octets.foldl (fun i octet => i * 256 + octet.toNat)
    (if (octets.head?.map isNegative).getD false then -1 else 0)

/-- Whether the first nine bits are all equal, so that the first octet could be left out. -/
def isPadded : Octets → Bool
  | first :: second :: _ =>
    (first == 0 && !isNegative second) || (first == 255 && isNegative second)
  | _ => false

end TwosComplement

end Asn1

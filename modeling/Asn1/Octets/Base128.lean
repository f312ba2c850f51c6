import Asn1.Octets

/-!
Numbers as groups of seven bits, most significant group first. Every group but the last one has the
high bit of its octet set, so that a number ends at the first octet below 128.
-/

namespace Asn1.Base128

/-- The groups that stand before the last one. -/
def leading (n : Nat) : Octets :=
  if n = 0 then [] else leading (n / 128) ++ [UInt8.ofNat (n % 128 + 128)]

/-- The shortest group form of a number: it never starts with the octet 128. -/
def encode (n : Nat) : Octets :=
  leading (n / 128) ++ [UInt8.ofNat (n % 128)]

/-- Whether an octet is the last one of a number. -/
def isLast (octet : UInt8) : Bool :=
  octet < 128

/-- Appends the seven bits of a group to the number read so far. -/
def extend (n : Nat) (octet : UInt8) : Nat :=
  n * 128 + octet.toNat % 128

/-- The numbers of a concatenation of group forms. Octets after the last complete number give none.
-/
def decodeAll (octets : Octets) : List Nat :=
  go 0 octets
where
  go (n : Nat) : Octets → List Nat
    | [] => []
    | octet :: rest =>
      if isLast octet then extend n octet :: go 0 rest else go (extend n octet) rest

end Asn1.Base128

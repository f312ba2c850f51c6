import Asn1.Octets.BigEndian

namespace Asn1

inductive Length
  | definite (size : Nat)
  | indefinite
  deriving DecidableEq, Repr

namespace Length

/-- The size that a definite length gives. -/
def size? : Length → Option Nat
  | definite size => some size
  | indefinite => none

def isIndefinite (length : Length) : Bool :=
  length = indefinite

/-- Whether the length says that there is no content. -/
def isZero (length : Length) : Bool :=
  length = definite 0

/-- The shortest form. A size below 128 is a single octet; a larger one is counted and then given
most significant octet first. The octet 128 means indefinite length. -/
def octets : Length → Octets
  | definite size =>
    if size < 128 then [UInt8.ofNat size]
    else
      let digits := BigEndian.encode size
      UInt8.ofNat (128 + digits.length) :: digits
  | indefinite => [128]

/-- Sizes are numbers of 64 bits. -/
def sizeBound : Nat := Nat.pow 2 64

end Length

end Asn1

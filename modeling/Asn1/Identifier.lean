import Asn1.Octets.Base128
import Asn1.Tag

namespace Asn1

structure Identifier where
  tag : Tag
  constructed : Bool
  deriving DecidableEq, Repr

namespace TagClass

/-- The two high bits of the first identifier octet. -/
def bits : TagClass → Nat
  | universal => 0
  | application => 1
  | context => 2
  | privateUse => 3

/-- The class that the two high bits of an octet stand for. -/
def ofOctet (octet : UInt8) : TagClass :=
  match octet.toNat / 64 with
  | 0 => universal
  | 1 => application
  | 2 => context
  | _ => privateUse

end TagClass

namespace Identifier

/-- The identifier of the marker that closes content of indefinite length. -/
def endOfContents : Identifier := ⟨Tag.universal 0, false⟩

def isEndOfContents (identifier : Identifier) : Bool :=
  identifier = endOfContents

/-- The first octet, whose five low bits are given. -/
def firstOctet (identifier : Identifier) (low : Nat) : UInt8 :=
  UInt8.ofNat (identifier.tag.tagClass.bits * 64 + (if identifier.constructed then 32 else 0) + low)

/-- A number up to 30 stands in the first octet; a larger one follows it in groups of seven bits.
-/
def octets (identifier : Identifier) : Octets :=
  let number := identifier.tag.number.toNat
  if number < 31 then [identifier.firstOctet number]
  else identifier.firstOctet 31 :: Base128.encode number

/-- The constructed flag of a first identifier octet. -/
def isConstructedOctet (octet : UInt8) : Bool :=
  octet.toNat / 32 % 2 = 1

/-- Identifiers with fewer octets come first; those of one size are ordered octet by octet. -/
def order (a b : Identifier) : Ordering :=
  Octets.shortlex a.octets b.octets

end Identifier

/-- Tags are ordered as their primitive identifiers are. -/
def Tag.order (a b : Tag) : Ordering :=
  Identifier.order ⟨a, false⟩ ⟨b, false⟩

end Asn1

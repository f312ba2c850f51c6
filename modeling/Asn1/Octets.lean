/-!
Octet strings. They are lists, so that codecs can be studied by induction; the written form of an
octet is a pair of hexadecimal digits.
-/

namespace Asn1

abbrev Octets := List UInt8

namespace Octets

/-- The two hexadecimal digits of an octet, high digit first. -/
def hexDigits (octet : UInt8) : List Char :=
  [Nat.digitChar (octet.toNat / 16), Nat.digitChar (octet.toNat % 16)]

/-- Lower case hexadecimal text. -/
def toHex (octets : Octets) : String :=
  String.ofList (octets.flatMap hexDigits)

/-- Upper case hexadecimal text. -/
def toUpperHex (octets : Octets) : String :=
  String.ofList ((octets.flatMap hexDigits).map Char.toUpper)

/-- Shorter octet strings come first; those of one length are ordered octet by octet. -/
def shortlex (a b : Octets) : Ordering :=
  (compare a.length b.length).then (compare a b)

/-- The octets of the UTF-8 form of a text. -/
def ofText (text : String) : Octets :=
  text.toByteArray.data.toList

/-- The text that the octets are the UTF-8 form of, if there is one. -/
def toText? (octets : Octets) : Option String :=
  String.fromUTF8? octets.toByteArray

end Octets

end Asn1

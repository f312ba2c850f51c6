import Asn1.Identifier

namespace Asn1

/-- One element with its identifier and all its octets, the identifier and length octets included.
-/
structure Captured where
  identifier : Identifier
  octets : Octets
  deriving DecidableEq

namespace Captured

def text (captured : Captured) : String :=
  s!"Captured({captured.identifier.tag.text}: {captured.octets.toHex})"

end Captured

end Asn1

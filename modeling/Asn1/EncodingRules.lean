namespace Asn1

/-- Basic, canonical and distinguished encoding rules. -/
inductive EncodingRules
  | ber
  | cer
  | der
  deriving DecidableEq, Repr

namespace EncodingRules

def name : EncodingRules → String
  | ber => "BER"
  | cer => "CER"
  | der => "DER"

/-- Whether a value has a single encoding under the rules. -/
def isRestricted : EncodingRules → Bool
  | ber => false
  | cer | der => true

/-- Whether a constructed value may have a definite length. -/
def allowsDefiniteConstructed : EncodingRules → Bool
  | ber | der => true
  | cer => false

/-- Whether a constructed value may have an indefinite length. -/
def allowsIndefiniteConstructed : EncodingRules → Bool
  | ber | cer => true
  | der => false

/-- The number of content octets above which rules without definite constructed values demand that
a string is broken up, and the size of the segments it is broken into. -/
def segmentLength : Nat := 1000

end EncodingRules

end Asn1

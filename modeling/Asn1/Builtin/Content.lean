import Asn1.EncodingRules
import Asn1.Error
import Asn1.Octets.BigEndian

/-!
The values of the built-in leaf types and their content octets.
-/

namespace Asn1.Builtin

/-- The characters of a PrintableString. -/
def isPrintable (char : Char) : Bool :=
  char.isAlphanum || " '()+,-./:=?".toList.contains char

/-- The characters of a VisibleString: those of ASCII that are no controls. -/
def isVisible (char : Char) : Bool :=
  0x20 ≤ char.toNat && char.toNat < 0x7F

/-- Whether all characters of a text are ones that texts of the type may have. -/
def allowsCharacters (builtin : Builtin) (text : String) : Bool :=
  match builtin with
  | utf8String => true
  | printableString => text.toList.all isPrintable
  | ia5String => text.toList.all (·.toNat < 0x80)
  | visibleString | utcTime | generalizedTime => text.toList.all isVisible
  | boolean | integer | null | octetString | objectIdentifier => false

/-- Checks the characters of a text and, for a time, its syntax. -/
def checkText (builtin : Builtin) (text : String) (restricted : Bool) : Except ContentFault Unit :=
  if builtin.allowsCharacters text then
    match builtin with
    | utcTime => (Time.checkUtc text restricted).mapError .time
    | generalizedTime => (Time.checkGeneralized text restricted).mapError .time
    | _ => .ok ()
  else .error .illegalCharacters

/-- Checks that a value, which is no reference, is one of the type. -/
def accept (builtin : Builtin) (value : Value) : Except ValueError Unit :=
  let family := Family.builtin builtin
  let wrongKind := Except.error (.illegal (.wrongKind family value.kind))
  match builtin, value with
  | .boolean, .boolean _ => .ok ()
  | .integer, .integer _ => .ok ()
  | .null, .null => .ok ()
  | .octetString, .octetString _ => .ok ()
  | .objectIdentifier, .oid _ => .ok ()
  | _, .text string =>
    if builtin.isText then
      (builtin.checkText string false).mapError fun fault => .illegal (.content family fault)
    else wrongKind
  | _, _ => wrongKind

/-- The content octets of a value that the type accepts. Under restricted rules a text also has to
be in canonical form. -/
def encodeContent (builtin : Builtin) (rules : EncodingRules) (value : Value) :
    Except FormatError Octets :=
  let notEncodable :=
    Except.error (.value (.illegal (.notEncodable value.kind (.builtin builtin))))
  match builtin, value with
  | .boolean, .boolean b => .ok [if b then 255 else 0]
  | .integer, .integer i => .ok (TwosComplement.encode i.value)
  | .null, .null => .ok []
  | .octetString, .octetString octets => .ok octets
  | .objectIdentifier, .oid identifier => .ok identifier.content
  | _, .text string =>
    if builtin.isText then
      match rules.isRestricted, builtin.checkText string rules.isRestricted with
      | true, .error _ => .error (.ruleViolation .nonCanonicalText)
      | _, _ => .ok (Octets.ofText string)
    else notEncodable
  | _, _ => notEncodable

/-- A single octet. Zero is false; under restricted rules only 255 is true, otherwise every other
octet is. -/
def decodeBoolean (rules : EncodingRules) : Octets → Except ContentFault Bool
  | [octet] =>
    if octet = 0 then .ok false
    else if octet = 255 || !rules.isRestricted then .ok true
    else .error .nonCanonicalBoolean
  | _ => .error .invalidLength

/-- The shortest two's complement form of an integer of 128 bits, which all rules demand. -/
def decodeInteger (content : Octets) : Except ContentFault Integer :=
  if content.isEmpty then .error .emptyInteger
  else if TwosComplement.isPadded content then .error .nonMinimalInteger
  else if Integer.maxOctets < content.length then .error .integerTooLarge
  else
    match Integer.ofInt? (TwosComplement.decode content) with
    | some i => .ok i
    | none => .error .integerTooLarge

/-- The UTF-8 form of a text of the type. -/
def decodeText (builtin : Builtin) (rules : EncodingRules) (content : Octets) :
    Except ContentFault String := do
  match content.toText? with
  | some text =>
    builtin.checkText text rules.isRestricted
    return text
  | none => throw .invalidEncoding

/-- The value whose content octets are given. -/
def decodeContent (builtin : Builtin) (rules : EncodingRules) (content : Octets) :
    Except FormatError Value :=
  let value : Except ContentFault Value :=
    match builtin with
    | .boolean => .boolean <$> decodeBoolean rules content
    | .integer => .integer <$> decodeInteger content
    | .null => if content.isEmpty then .ok .null else .error .invalidLength
    | .octetString => .ok (.octetString content)
    | .objectIdentifier => (Value.oid <$> Oid.ofContent content).mapError .oid
    | builtin => .text <$> builtin.decodeText rules content
  value.mapError (.invalidContent (.builtin builtin))

end Asn1.Builtin

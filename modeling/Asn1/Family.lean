import Asn1.Tag

namespace Asn1

/-- The built-in leaf types. -/
inductive Builtin
  | boolean
  | integer
  | null
  | octetString
  | objectIdentifier
  | utf8String
  | printableString
  | ia5String
  | visibleString
  | utcTime
  | generalizedTime
  deriving DecidableEq, Repr

namespace Builtin

def name : Builtin → String
  | boolean => "BOOLEAN"
  | integer => "INTEGER"
  | null => "NULL"
  | octetString => "OCTET STRING"
  | objectIdentifier => "OBJECT IDENTIFIER"
  | utf8String => "UTF8String"
  | printableString => "PrintableString"
  | ia5String => "IA5String"
  | visibleString => "VisibleString"
  | utcTime => "UTCTime"
  | generalizedTime => "GeneralizedTime"

/-- The universal tag of the type. -/
def tag : Builtin → Tag
  | boolean => .boolean
  | integer => .integer
  | null => .null
  | octetString => .octetString
  | objectIdentifier => .objectIdentifier
  | utf8String => .utf8String
  | printableString => .printableString
  | ia5String => .ia5String
  | visibleString => .visibleString
  | utcTime => .utcTime
  | generalizedTime => .generalizedTime

/-- Whether the values are texts. -/
def isText : Builtin → Bool
  | utf8String | printableString | ia5String | visibleString | utcTime | generalizedTime => true
  | boolean | integer | null | octetString | objectIdentifier => false

/-- Whether the content may be broken up into segments, each an OCTET STRING. -/
def isSegmentable (builtin : Builtin) : Bool :=
  builtin = octetString || builtin.isText

end Builtin

inductive CollectionKind
  | sequence
  | set
  | choice
  | sequenceOf
  | setOf
  deriving DecidableEq, Repr

namespace CollectionKind

def name : CollectionKind → String
  | sequence => "SEQUENCE"
  | set => "SET"
  | choice => "CHOICE"
  | sequenceOf => "SEQUENCE OF"
  | setOf => "SET OF"

/-- Whether the values are lists of elements of one type. -/
def isList : CollectionKind → Bool
  | sequenceOf | setOf => true
  | sequence | set | choice => false

/-- The universal tag. A CHOICE has none: its values are encoded as those of the alternative. -/
def tag? : CollectionKind → Option Tag
  | sequence | sequenceOf => some .sequence
  | set | setOf => some .set
  | choice => none

end CollectionKind

inductive Family
  | builtin (builtin : Builtin)
  | collection (kind : CollectionKind)
  deriving DecidableEq, Repr

namespace Family

def name : Family → String
  | builtin b => b.name
  | collection kind => kind.name

/-- Whether all values are encoded constructed. For a CHOICE the alternative decides. -/
def isConstructed : Family → Bool
  | builtin _ => false
  | collection kind => kind.tag?.isSome

end Family

end Asn1

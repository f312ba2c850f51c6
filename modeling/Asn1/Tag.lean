namespace Asn1

inductive TagClass
  | universal
  | application
  | context
  | privateUse
  deriving DecidableEq, Repr

structure Tag where
  tagClass : TagClass
  number : UInt32
  deriving DecidableEq, Repr

/-- An explicit tag wraps the encoding of its type in a constructed value, an implicit tag replaces
the tag of its type. -/
inductive TagMethod
  | explicit
  | implicit
  deriving DecidableEq, Repr

namespace TagMethod

def keyword : TagMethod → String
  | explicit => "EXPLICIT"
  | implicit => "IMPLICIT"

end TagMethod

namespace Tag

def universal (number : UInt32) : Tag := ⟨.universal, number⟩

def context (number : UInt32) : Tag := ⟨.context, number⟩

def boolean : Tag := universal 1
def integer : Tag := universal 2
def octetString : Tag := universal 4
def null : Tag := universal 5
def objectIdentifier : Tag := universal 6
def utf8String : Tag := universal 12
def sequence : Tag := universal 16
def set : Tag := universal 17
def printableString : Tag := universal 19
def ia5String : Tag := universal 22
def utcTime : Tag := universal 23
def generalizedTime : Tag := universal 24
def visibleString : Tag := universal 26

/-- The names of the universal tags that the types of this library carry. -/
def universalName? (number : UInt32) : Option String :=
  match number.toNat with
  | 1 => some "BOOLEAN"
  | 2 => some "INTEGER"
  | 4 => some "OCTET STRING"
  | 5 => some "NULL"
  | 6 => some "OBJECT IDENTIFIER"
  | 12 => some "UTF8String"
  | 16 => some "SEQUENCE"
  | 17 => some "SET"
  | 19 => some "PrintableString"
  | 22 => some "IA5String"
  | 23 => some "UTCTime"
  | 24 => some "GeneralizedTime"
  | 26 => some "VisibleString"
  | _ => none

/-- The text of a tag: a type's name, or class and number in brackets, where the context class goes
without saying. -/
def text (tag : Tag) : String :=
  match tag.tagClass with
  | .universal => (universalName? tag.number).getD s!"[UNIVERSAL {tag.number}]"
  | .application => s!"[APPLICATION {tag.number}]"
  | .context => s!"[{tag.number}]"
  | .privateUse => s!"[PRIVATE {tag.number}]"

end Tag

end Asn1

import Asn1.Constraint.Range
import Asn1.Family
import Asn1.Time
import Asn1.Value

/-!
What can go wrong. A schema error makes a type unusable, a value error says that a value does not
conform to its type, a format error that encoded data is malformed or that a value cannot be
encoded under the rules. Errors are causes; their wording is in the functions called `message`.
-/

namespace Asn1

/-- A type declaration is not legal, or a type is not ready for use. -/
inductive SchemaError
  | duplicateName (name : String)
  | versionOrder (previous found : Nat)
  | prohibitedVersion (found : Nat)
  | tagAmbiguity (first second : String) (tag : Tag)
  | cyclicDefinition (type : String)
  | unresolvedType (reference : String)
  | failed (type : String)
  | notCompiled (type : String)
  | illegalComponentsOf (type : String)
  | invalidDefault (name reason : String)
  deriving DecidableEq, Repr

namespace SchemaError

def message : SchemaError → String
  | duplicateName name => s!"duplicate component name '{name}'"
  | versionOrder previous found =>
    s!"extension version {found} must be greater than {previous}"
  | prohibitedVersion found =>
    s!"extension version {found} not allowed next to unversioned extension additions"
  | tagAmbiguity first second tag =>
    s!"components '{first}' and '{second}' share the tag {tag.text}"
  | cyclicDefinition type => s!"type '{type}' is defined in terms of itself"
  | unresolvedType reference => s!"unresolved type reference '{reference}'"
  | failed type => s!"type '{type}' failed to compile earlier"
  | notCompiled type => s!"type '{type}' has not been compiled"
  | illegalComponentsOf type =>
    s!"COMPONENTS OF references '{type}' which is not a SEQUENCE or SET"
  | invalidDefault name reason => s!"invalid default for component '{name}': {reason}"

end SchemaError

/-- Why the content of a leaf type is malformed. -/
inductive ContentFault
  | invalidLength
  | nonCanonicalBoolean
  | emptyInteger
  | nonMinimalInteger
  | integerTooLarge
  | oid (error : OidError)
  | invalidEncoding
  | illegalCharacters
  | time (error : TimeError)
  deriving DecidableEq, Repr

namespace ContentFault

def message : ContentFault → String
  | invalidLength => "invalid length"
  | nonCanonicalBoolean => "non-canonical boolean"
  | emptyInteger => "empty integer"
  | nonMinimalInteger => "non-minimal integer"
  | integerTooLarge => "integer too large"
  | oid error => error.message
  | invalidEncoding => "invalid encoding"
  | illegalCharacters => "illegal characters"
  | time error => error.message

end ContentFault

/-- Why a value is no value of a type. -/
inductive IllegalValue
  | wrongKind (family : Family) (found : ValueKind)
  | content (family : Family) (fault : ContentFault)
  | severalAlternatives
  | sizeNotApplicable (found : ValueKind)
  | sizeOutside (size : Nat) (range : SizeRange)
  | rangeNotApplicable (found : ValueKind)
  | integerOutside (i : Integer) (range : ValueRange)
  /-- The verdict of a constraint that is not one of this library. -/
  | custom (reason : String)
  | listWithoutElementType
  | listWithoutElement
  | listWalkedAsCollection
  | implicitlyTaggedChoice
  | listExpected (found : ValueKind)
  | collectionExpected (found : ValueKind)
  | notEncodable (found : ValueKind) (family : Family)
  | unknownNotEncodable (found : ValueKind)
  deriving DecidableEq

namespace IllegalValue

def message : IllegalValue → String
  | wrongKind family found => s!"{family.name} value expected, found {found.name}"
  | content family fault => s!"invalid {family.name} value: {fault.message}"
  | severalAlternatives => "more than one alternative chosen"
  | sizeNotApplicable found => s!"size constraint not applicable to {found.name}"
  | sizeOutside size range => s!"size {size} outside of {range.text}"
  | rangeNotApplicable found => s!"value range not applicable to {found.name}"
  | integerOutside i range => s!"{i.value} outside of {range.text}"
  | custom reason => reason
  | listWithoutElementType => "list type without element type"
  | listWithoutElement => "list type without element"
  | listWalkedAsCollection => "list type walked as collection"
  | implicitlyTaggedChoice => "CHOICE cannot be tagged implicitly"
  | listExpected found => s!"list expected, found {found.name}"
  | collectionExpected found => s!"collection expected, found {found.name}"
  | notEncodable found family => s!"cannot encode {found.name} as {family.name}"
  | unknownNotEncodable found => s!"cannot encode unknown component of kind {found.name}"

end IllegalValue

/-- A value does not conform to its type. -/
inductive ValueError
  | unknownComponent (name : String)
  | order (name : String)
  | missingRequired (name : String) (index : Nat)
  | emptyValue
  | illegal (cause : IllegalValue)
  | unresolvedValue (name : String)
  | schema (error : SchemaError)
  deriving DecidableEq

namespace ValueError

def message : ValueError → String
  | unknownComponent name => s!"unknown component '{name}'"
  | order name => s!"component '{name}' is out of order or repeated"
  | missingRequired name index => s!"missing required component '{name}' at index {index}"
  | emptyValue => "empty value where components are required"
  | illegal cause => s!"illegal value: {cause.message}"
  | unresolvedValue name => s!"unresolved value reference '{name}'"
  | schema error => error.message

end ValueError

/-- What a set of encoding rules forbids although other rules allow it. -/
inductive RuleViolation
  | indefiniteConstructed
  | definiteConstructed
  | constructedString
  | unsegmentedLongString
  | shortSegment
  | longSegment
  | nestedSegments
  | shortConstructedString
  | defaultPresent
  | nonCanonicalText
  | bufferingRequired
  | capturedValue
  deriving DecidableEq, Repr

namespace RuleViolation

def message : RuleViolation → String
  | indefiniteConstructed => "indefinite length constructed value"
  | definiteConstructed => "definite length constructed value"
  | constructedString => "constructed string"
  | unsegmentedLongString => "unsegmented long string"
  | shortSegment => "short string segment"
  | longSegment => "long string segment"
  | nestedSegments => "nested string segments"
  | shortConstructedString => "short constructed string"
  | defaultPresent => "component equal to its default"
  | nonCanonicalText => "value not in canonical form"
  | bufferingRequired => "definite length encoding requires buffering"
  | capturedValue => "captured value violates encoding rules"

end RuleViolation

inductive LengthFault
  | reserved
  | leadingZero
  | excessive
  | longForm
  | endOfContentsWithContent
  deriving DecidableEq, Repr

namespace LengthFault

def message : LengthFault → String
  | reserved => "reserved length octet"
  | leadingZero => "leading zero octets"
  | excessive => "excessive length"
  | longForm => "long form for short length"
  | endOfContentsWithContent => "end-of-contents with content"

end LengthFault

inductive TagFault
  | leadingZero
  | longForm
  | excessive
  | unexpectedEndOfContents
  | invalidSegment
  deriving DecidableEq, Repr

namespace TagFault

def message : TagFault → String
  | leadingZero => "leading zero in tag number"
  | longForm => "low tag number in long form"
  | excessive => "tag number exceeds 32 bits"
  | unexpectedEndOfContents => "unexpected end-of-contents"
  | invalidSegment => "invalid segment"

end TagFault

/-- Encoded data is malformed, or a value cannot be encoded. -/
inductive FormatError
  | unexpectedTag (expected found : Tag)
  | unknownTag (tag : Tag)
  | methodMismatch (tag : Tag) (constructed : Bool)
  | truncated
  | missingEndOfContents
  | indefinitePrimitive
  | ruleViolation (violation : RuleViolation)
  | illegalLength (fault : LengthFault)
  | illegalTag (fault : TagFault)
  | depthExceeded
  | trailingData
  | invalidContent (family : Family) (fault : ContentFault)
  | value (error : ValueError)
  | schema (error : SchemaError)
  deriving DecidableEq

namespace FormatError

def message : FormatError → String
  | unexpectedTag expected found => s!"expected tag {expected.text}, found {found.text}"
  | unknownTag tag => s!"unexpected element with tag {tag.text}"
  | methodMismatch tag _ => s!"tag {tag.text} has wrong encoding method"
  | truncated => "unexpected end of data"
  | missingEndOfContents => "missing end-of-contents marker"
  | indefinitePrimitive => "primitive value with indefinite length"
  | ruleViolation violation => s!"encoding rules violated: {violation.message}"
  | illegalLength fault => s!"illegal length: {fault.message}"
  | illegalTag fault => s!"illegal tag: {fault.message}"
  | depthExceeded => "nesting depth exceeded"
  | trailingData => "trailing data"
  | invalidContent family fault => s!"invalid {family.name} content: {fault.message}"
  | value error => error.message
  | schema error => error.message

end FormatError

/-- Decoding fails because the source does, or because of what was found at a position. -/
inductive DecodeError
  | source (reason : String)
  | format (error : FormatError) (position : Nat)
  deriving DecidableEq

namespace DecodeError

def message : DecodeError → String
  | source reason => reason
  | format error position => s!"{error.message} (at position {position})"

end DecodeError

/-- Encoding fails because of the value, the rules or the target. -/
inductive EncodeError
  | value (error : ValueError)
  | format (error : FormatError)
  | target (reason : String)
  deriving DecidableEq

namespace EncodeError

/-- The error of a leaf that cannot be encoded. What is wrong with its value counts as such. -/
def ofFormatError : FormatError → EncodeError
  | .value error => value error
  | error => format error

def message : EncodeError → String
  | value error => error.message
  | format error => error.message
  | target reason => reason

end EncodeError

end Asn1

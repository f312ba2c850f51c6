import Asn1.Captured.Read
import Asn1.Schema

/-!
Decoding values. The elements of the encoded data are matched to the components of collections by
their tags; elements that an extensible type does not know are captured. A decoded value is finally
checked against its type. Each type, and each level of nesting that no type accounts for, costs one
unit of depth.
-/

namespace Asn1

open Read

/-- How data is decoded. -/
structure Decoder where
  rules : EncodingRules
  maxDepth : Nat

namespace Decoder

/-- The limit of nesting that is used unless another one is given. -/
def defaultMaxDepth : Nat := 64

end Decoder

/-- An element whose header has been read and whose content comes next. -/
structure Element where
  header : Header
  /-- The tag that replaces the type's own, if there is one. -/
  tag? : Option Tag
  depth : Nat

/-- Reads the content of an element as the value of a type. -/
abbrev ValueReader := Element → Read Value

/-- Reads the header of the next element of constructed content, or none at its end. That is the
end of the octets if the length is definite, and the end-of-contents marker otherwise. -/
def nextHeader? (rules : EncodingRules) (definite : Bool) : Read (Option Header) := do
  let start ← position
  match ← Header.read? rules with
  | none => if definite then return none else failAt .missingEndOfContents start
  | some header =>
    if header.isEndOfContents then
      if definite then failAt (.illegalTag .unexpectedEndOfContents) start else return none
    else return some header

/-- Reads up to `count` elements of constructed content, passing a state from one to the next. -/
def readElementsWithin {σ α : Type} (rules : EncodingRules) (definite : Bool)
    (readElement : σ → Header → Read (α × σ)) : Nat → σ → Read (List α)
  | 0, _ => do failAt .truncated (← position)
  | count + 1, state => do
    match ← nextHeader? rules definite with
    | none => return []
    | some header =>
      let (a, state) ← readElement state header
      return a :: (← readElementsWithin rules definite readElement count state)

/-- Reads the elements of constructed content. There are no more of them than octets. -/
def readElements {σ α : Type} (rules : EncodingRules) (definite : Bool)
    (readElement : σ → Header → Read (α × σ)) (state : σ) : Read (List α) := do
  readElementsWithin rules definite readElement ((← get).available + 1) state

def checkTag (header : Header) (expected : Tag) : Read Unit := do
  if header.tag ≠ expected then failAt (.unexpectedTag expected header.tag) header.position

/-- Reads the content of a constructed element, where `readContent` is told whether the end of the
octets ends it. Content of definite length is taken as a whole. -/
def readConstructed {α : Type} (header : Header) (readContent : Bool → Read α) : Read α := do
  unless header.isConstructed do failAt (.methodMismatch header.tag false) header.position
  match header.length with
  | .definite size =>
    let start ← position
    let octets ← takeOctets size
    within octets start (readContent true)
  | .indefinite => readContent false

/-- The size of primitive content. -/
def primitiveSize (header : Header) : Read Nat :=
  match header.length with
  | .definite size => return size
  | .indefinite => failAt .indefinitePrimitive header.position

/-- Reads one segment of a string, which may be a string in segments itself. Rules without definite
constructed values demand that all segments but the last have the same size; `short` says whether a
shorter one has been seen. -/
def readSegment (rules : EncodingRules) (readNested : Header → Read Value) (short : Bool)
    (header : Header) : Read (Octets × Bool) := do
  checkTag header .octetString
  if short then failAt (.ruleViolation .shortSegment) header.position
  if header.isConstructed then
    if rules.isRestricted then failAt (.ruleViolation .nestedSegments) header.position
    match ← readNested header with
    | .octetString octets => return (octets, short)
    | _ => failAt (.illegalTag .invalidSegment) header.position
  else
    let size ← primitiveSize header
    if !rules.allowsDefiniteConstructed && EncodingRules.segmentLength < size then
      failAt (.ruleViolation .longSegment) header.position
    let octets ← takeOctets size
    return (octets, !rules.allowsDefiniteConstructed && size < EncodingRules.segmentLength)

/-- Reads the segments of a string and joins them. A string that has to be broken up is longer than
one segment. -/
def joinSegments (rules : EncodingRules) (readNested : Header → Read Value) (definite : Bool) :
    Read Octets := do
  let start ← position
  let octets := (← readElements rules definite (readSegment rules readNested) false).flatten
  if !rules.allowsDefiniteConstructed && octets.length ≤ EncodingRules.segmentLength then
    failAt (.ruleViolation .shortConstructedString) start
  return octets

/-- Reads the value of a string from its segments, given what reads and joins these. -/
def readSegmented (rules : EncodingRules) (builtin : Builtin) (readJoined : Bool → Read Octets)
    (definite : Bool) : Read Value := do
  let start ← position
  let octets ← readJoined definite
  checked (builtin.decodeContent rules octets) start

/-- Reads the segments of a string, which may be nested `depth` levels deep. -/
def readSegments (rules : EncodingRules) : Nat → Bool → Read Octets
  | 0 => joinSegments rules fun header => failAt .depthExceeded header.position
  | depth + 1 => joinSegments rules fun header =>
    readConstructed header (readSegmented rules .octetString (readSegments rules depth))

namespace Decoder

variable (rules : EncodingRules)

/-- Reads the value of a leaf type. Only strings may be constructed, and not under all rules. -/
def readBuiltin (builtin : Builtin) (element : Element) : Read Value := do
  let header := element.header
  checkTag header (element.tag?.getD builtin.tag)
  if header.isConstructed then
    unless builtin.isSegmentable do failAt (.methodMismatch header.tag true) header.position
    if rules.isRestricted && rules.allowsDefiniteConstructed then
      failAt (.ruleViolation .constructedString) header.position
    readConstructed header (readSegmented rules builtin (readSegments rules element.depth))
  else
    let size ← primitiveSize header
    if !rules.allowsDefiniteConstructed && builtin.isSegmentable &&
        EncodingRules.segmentLength < size then
      failAt (.ruleViolation .unsegmentedLongString) header.position
    let start ← position
    let octets ← takeOctets size
    checked (builtin.decodeContent rules octets) start

/-- Reads the one element inside an explicit tag. -/
def readExplicit (inner : ValueReader) (depth : Nat) (definite : Bool) : Read Value := do
  let start ← position
  match ← nextHeader? rules definite with
  | none => failAt .truncated start
  | some header =>
    let value ← inner ⟨header, none, depth⟩
    let stop ← position
    match ← nextHeader? rules definite with
    | none => return value
    | some _ => failAt .trailingData stop

/-- Captures an element that no component matches, under the text of its tag. -/
def readUnknown (header : Header) (depth : Nat) : Read (String × Value) :=
  return (header.tag.text, .captured (← Captured.read rules depth header))

/-- Reads an element of a collection that is no list. In a SEQUENCE only the components after the
last known one, whose index is the state, can match. -/
def readComponent (layout : Layout ValueReader) (depth : Nat) (previous? : Option Nat)
    (header : Header) : Read ((String × Value) × Option Nat) := do
  let component? :=
    if layout.kind = .sequence then
      layout.componentByTagFrom? ((previous?.map (· + 1)).getD 0) header.tag
    else layout.componentByTag? header.tag
  match component? with
  | some component =>
    let value ← component.type ⟨header, none, depth⟩
    if rules.isRestricted && component.default? = some value then
      failAt (.ruleViolation .defaultPresent) header.position
    return ((component.name, value), some component.index)
  | none =>
    unless layout.allowsUnknown previous? do failAt (.unknownTag header.tag) header.position
    return (← readUnknown rules header depth, previous?)

/-- Reads the elements of a collection. -/
def readCollection (layout : Layout ValueReader) (depth : Nat) (definite : Bool) : Read Value := do
  if layout.kind.isList then
    match layout.element? with
    | none => failAt (.value (.illegal .listWithoutElement)) (← position)
    | some element =>
      let readItem (_ : Unit) (header : Header) : Read (Value × Unit) :=
        return (← element.type ⟨header, none, depth⟩, ())
      return .list (← readElements rules definite readItem ())
  else return .collection (← readElements rules definite (readComponent rules layout depth) none)

/-- Reads the value of an untagged CHOICE. The element is that of the chosen alternative. -/
def readChoice (layout : Layout ValueReader) (header : Header) (depth : Nat) : Read Value := do
  match layout.componentByTag? header.tag with
  | some component => return .choice component.name (← component.type ⟨header, none, depth⟩)
  | none =>
    unless layout.allowsUnknown none do failAt (.unknownTag header.tag) header.position
    let (name, value) ← readUnknown rules header depth
    return .choice name value

/-- Reads the value of a type in terms of what reads the values of the types it holds. -/
def step (_ : TypeInfo) (form : TypeForm ValueReader) : ValueReader
  | ⟨header, _, 0⟩ => failAt .depthExceeded header.position
  | ⟨header, tag?, depth + 1⟩ => do
    match form with
    | .builtin builtin => readBuiltin rules builtin ⟨header, tag?, depth⟩
    | .alias target => target ⟨header, tag?, depth⟩
    | .tagged tag .implicit inner => inner ⟨header, some (tag?.getD tag), depth⟩
    | .tagged tag .explicit inner =>
      checkTag header (tag?.getD tag)
      readConstructed header (readExplicit rules inner depth)
    | .collection layout =>
      match layout.kind.tag?, tag? with
      | some tag, _ =>
        checkTag header (tag?.getD tag)
        readConstructed header (readCollection rules layout depth)
      | none, some _ => failAt (.value (.illegal .implicitlyTaggedChoice)) header.position
      | none, none => readChoice rules layout header depth

end Decoder

/-- Reads the content of an element as the value of a type. -/
def CompiledType.read (type : CompiledType) (rules : EncodingRules) : ValueReader :=
  type.interpret (Decoder.step rules)

namespace Schema

variable (schema : Schema) (handle : Handle) (decoder : Decoder)

/-- Reads one value of a type. What follows it is left in the source. -/
def decodeOne : Read Value := do
  let start ← position
  let type ← checked ((schema.compiled handle).mapError .schema) start
  let header ← Header.read decoder.rules
  let value ← type.read decoder.rules ⟨header, none, decoder.maxDepth⟩
  checked ((schema.accept handle value).mapError .value) start
  return value

/-- Reads one value of a type, with which the source has to end. -/
def decodeAll : Read Value := do
  let value ← decodeOne schema handle decoder
  let stop ← position
  unless ← isExhausted do failAt .trailingData stop
  return value

/-- Decodes octets that are one encoded value of a type. -/
def decode (octets : Octets) : Except DecodeError Value :=
  ((decodeAll schema handle decoder).run (Source.ofOctets octets 0)).1

end Schema

end Asn1

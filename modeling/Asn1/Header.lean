import Asn1.EncodingRules
import Asn1.Length
import Asn1.Source

namespace Asn1

open Read

namespace Identifier

/-- The most groups that a number of 32 bits takes. -/
def maxGroups : Nat := 5

/-- Reads up to `groups` more groups of the number `n`. -/
def readGroups (start : Nat) : Nat → Nat → Read Nat
  | 0, _ => failAt (.illegalTag .excessive) start
  | groups + 1, n => do
    let octet ← takeOctet
    let n := Base128.extend n octet
    if Base128.isLast octet then return n else readGroups start groups n

/-- Reads a number that follows the first octet. It must not fit into that octet, nor start with an
empty group. -/
def readNumber (start : Nat) : Read UInt32 := do
  let octet ← takeOctet
  if octet = 128 then failAt (.illegalTag .leadingZero) start
  let first := Base128.extend 0 octet
  if Base128.isLast octet then
    if first < 31 then failAt (.illegalTag .longForm) start
    return UInt32.ofNat first
  let number ← readGroups start (maxGroups - 1) first
  if UInt32.size ≤ number then failAt (.illegalTag .excessive) start
  return UInt32.ofNat number

/-- Reads identifier octets, or none at the end. Only the shortest form is read. -/
def read? : Read (Option Identifier) := do
  let start ← position
  match ← takeOctet? with
  | none => return none
  | some octet =>
    let low := octet.toNat % 32
    let number ← if low < 31 then pure (UInt32.ofNat low) else readNumber start
    return some ⟨⟨TagClass.ofOctet octet, number⟩, isConstructedOctet octet⟩

def read : Read Identifier := do
  match ← read? with
  | some identifier => return identifier
  | none => failAt .truncated (← position)

end Identifier

namespace Length

/-- Reads `count` more octets of the size `n`. -/
def readSize (start : Nat) : Nat → Nat → Read Nat
  | 0, n => return n
  | count + 1, n => do
    let n := n * 256 + (← takeOctet).toNat
    if sizeBound ≤ n then failAt (.illegalLength .excessive) start
    readSize start count n

/-- Reads length octets. Restricted rules demand the shortest form. -/
def read (rules : EncodingRules) : Read Length := do
  let start ← position
  let octet ← takeOctet
  if octet < 128 then return .definite octet.toNat
  if octet = 128 then return .indefinite
  if octet = 255 then failAt (.illegalLength .reserved) start
  let count := octet.toNat - 128
  let first ← takeOctet
  if rules.isRestricted ∧ first = 0 then failAt (.illegalLength .leadingZero) start
  let size ← readSize start (count - 1) first.toNat
  if rules.isRestricted ∧ size < 128 then failAt (.illegalLength .longForm) start
  return .definite size

end Length

structure Header where
  identifier : Identifier
  length : Length
  /-- Where the first identifier octet was found. -/
  position : Nat
  deriving DecidableEq, Repr

namespace Header

def tag (header : Header) : Tag := header.identifier.tag

def isConstructed (header : Header) : Bool := header.identifier.constructed

def isEndOfContents (header : Header) : Bool := header.identifier.isEndOfContents

/-- The shortest form of a header. -/
def octets (header : Header) : Octets :=
  header.identifier.octets ++ header.length.octets

/-- The octets of the end-of-contents marker. -/
def endOfContents : Octets :=
  Identifier.endOfContents.octets ++ (Length.definite 0).octets

/-- The end-of-contents marker has no content. Indefinite length is for constructed values, and the
rules say which lengths these may have. -/
def fault? (header : Header) (rules : EncodingRules) : Option FormatError :=
  if header.isEndOfContents then
    if header.length.isZero then none else some (.illegalLength .endOfContentsWithContent)
  else
    match header.isConstructed, header.length.isIndefinite with
    | false, true => some .indefinitePrimitive
    | true, true =>
      if rules.allowsIndefiniteConstructed then none
      else some (.ruleViolation .indefiniteConstructed)
    | true, false =>
      if rules.allowsDefiniteConstructed then none
      else some (.ruleViolation .definiteConstructed)
    | false, false => none

/-- Reads a header, or none at the end. -/
def read? (rules : EncodingRules) : Read (Option Header) := do
  let start ← Read.position
  match ← Identifier.read? with
  | none => return none
  | some identifier =>
    let header : Header := ⟨identifier, ← Length.read rules, start⟩
    match header.fault? rules with
    | some error => failAt error start
    | none => return some header

def read (rules : EncodingRules) : Read Header := do
  match ← read? rules with
  | some header => return header
  | none => failAt .truncated (← Read.position)

end Header

end Asn1

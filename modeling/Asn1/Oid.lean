import Asn1.Octets.Base128

/-!
Object identifiers. One is kept as its content octets, which are checked when it is made: they are
the group forms of numbers below `2 ^ 64`. The first number holds the first two arcs, every other
number is an arc. Two identifiers are equal if their octets are.
-/

namespace Asn1

/-- Why octets, arcs or a text are no object identifier. -/
inductive OidError
  | empty
  | nonMinimalArc
  | arcTooLarge
  | truncatedArc
  | tooFewArcs
  | illegalFirstArcs
  | invalidArc
  deriving DecidableEq, Repr

namespace OidError

def message : OidError → String
  | empty => "empty object identifier"
  | nonMinimalArc => "non-minimal arc"
  | arcTooLarge => "arc too large"
  | truncatedArc => "truncated arc"
  | tooFewArcs => "at least two arcs required"
  | illegalFirstArcs => "illegal first arcs"
  | invalidArc => "invalid arc"

end OidError

namespace Oid

/-- Arcs are numbers of 64 bits. -/
def arcBound : Nat := Nat.pow 2 64

/-- No number below `arcBound` takes more octets than this. -/
def maxArcOctets : Nat := 10

/-- Checks the form of the numbers, of which `arcLength` octets of the current one have been seen.
-/
def formFault? (arcLength : Nat) : Octets → Option OidError
  | [] => if arcLength = 0 then none else some .truncatedArc
  | octet :: rest =>
    if arcLength = 0 ∧ octet = 128 then some .nonMinimalArc
    else if maxArcOctets < arcLength + 1 then some .arcTooLarge
    else formFault? (if Base128.isLast octet then 0 else arcLength + 1) rest

/-- What keeps octets from being the content of an object identifier. The size of the numbers
matters only if their form is right. -/
def fault? (content : Octets) : Option OidError :=
  if content.isEmpty then some .empty
  else (formFault? 0 content).or
    (if (Base128.decodeAll content).all (· < arcBound) then none else some .arcTooLarge)

end Oid

structure Oid where
  content : Octets
  fault?_content : Oid.fault? content = none
  deriving DecidableEq

namespace Oid

def ofContent (content : Octets) : Except OidError Oid :=
  match h : fault? content with
  | none => .ok ⟨content, h⟩
  | some error => .error error

/-- The first two arcs share a number: the first arc is 0, 1 or 2, and after 0 and 1 the second one
is below 40. -/
def ofArcs : List Nat → Except OidError Oid
  | first :: second :: rest =>
    if first = 2 ∨ (first < 2 ∧ second < 40) then
      ofContent ((first * 40 + second) :: rest |>.flatMap Base128.encode)
    else .error .illegalFirstArcs
  | _ => .error .tooFewArcs

/-- Splits the first number into the two arcs it holds. -/
def splitFirst : List Nat → List Nat
  | [] => []
  | number :: rest =>
    let first := min (number / 40) 2
    first :: (number - first * 40) :: rest

def arcs (oid : Oid) : List Nat :=
  splitFirst (Base128.decodeAll oid.content)

/-- The parts of a text between the dots. A text without dots is a single part. -/
def splitDots : List Char → List (List Char)
  | [] => [[]]
  | '.' :: rest => [] :: splitDots rest
  | char :: rest =>
    match splitDots rest with
    | [] => [[char]]
    | part :: parts => (char :: part) :: parts

def digitValue (char : Char) : Nat :=
  char.toNat - '0'.toNat

/-- Reads a run of at least one decimal digit. -/
def readDigits? (chars : List Char) : Option Nat :=
  if chars.isEmpty || !chars.all Char.isDigit then none
  else some (chars.foldl (fun n char => n * 10 + digitValue char) 0)

/-- Reads an arc: decimal digits, before which a plus sign may stand. -/
def readArc? (chars : List Char) : Option Nat :=
  let digits := match chars with
    | '+' :: digits => digits
    | digits => digits
  match readDigits? digits with
  | some n => if n < arcBound then some n else none
  | none => none

/-- Reads dotted notation. -/
def ofText (text : String) : Except OidError Oid :=
  match (splitDots text.toList).mapM readArc? with
  | some arcs => ofArcs arcs
  | none => .error .invalidArc

/-- Dotted notation. -/
def text (oid : Oid) : String :=
  ".".intercalate (oid.arcs.map toString)

/-- Identifiers are ordered octet by octet. -/
def order (a b : Oid) : Ordering :=
  compare a.content b.content

end Oid

end Asn1

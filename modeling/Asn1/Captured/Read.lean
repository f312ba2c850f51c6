import Asn1.Captured
import Asn1.Header

/-!
Capturing elements. The headers of a captured element, and of the elements inside content of
indefinite length, are kept in their shortest form; all other octets are kept as they are.
-/

namespace Asn1.Captured

open Read

/-- Copies elements up to and including the end-of-contents marker, at most `count` of them. -/
def copyElements (rules : EncodingRules) (copy : Header → Read Octets) : Nat → Read Octets
  | 0 => do failAt .missingEndOfContents (← position)
  | count + 1 => do
    let start ← position
    match ← Header.read? rules with
    | none => failAt .missingEndOfContents start
    | some header =>
      let octets ← copy header
      if header.isEndOfContents then return octets
      return octets ++ (← copyElements rules copy count)

/-- The octets of an element whose header has been read. Indefinite length is followed for at most
`depth` levels. -/
def copyElement (rules : EncodingRules) : Nat → Header → Read Octets
  | depth, header =>
    match header.length, depth with
    | .definite size, _ => do return header.octets ++ (← takeOctets size)
    | .indefinite, 0 => failAt .depthExceeded header.position
    | .indefinite, depth + 1 => do
      let count := (← get).available + 1
      return header.octets ++ (← copyElements rules (copyElement rules depth) count)

/-- Captures the element whose header has been read. -/
def read (rules : EncodingRules) (depth : Nat) (header : Header) : Read Captured :=
  return ⟨header.identifier, ← copyElement rules depth header⟩

/-- Captures octets that are one complete element under the rules, without changing them. -/
def ofOctets (rules : EncodingRules) (octets : Octets) : Except DecodeError Captured :=
  let operation : Read Identifier := do
    let header ← Header.read rules
    discard <| copyElement rules octets.length header
    unless ← isExhausted do failAt .trailingData (← position)
    return header.identifier
  (fun identifier => ⟨identifier, octets⟩) <$> (operation.run (Source.ofOctets octets 0)).1

end Asn1.Captured

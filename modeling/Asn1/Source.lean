import Asn1.Error

/-!
Sources of octets. A source hands out octets without moving on; only consuming them does. It asks
its reader for no more octets than have been requested, and keeps those that have not been
consumed. A source over octets in memory has a reader with nothing left to read.
-/

namespace Asn1

/-- What is still to be read: pieces, one for each read, and then the end or a failure. Empty pieces
stand for no read at all, as a read of no octets would be the end. -/
structure Reader where
  pieces : List Octets
  failure? : Option String
  deriving DecidableEq

namespace Reader

/-- Takes up to `count` octets off the front of the pieces. -/
def pull : Nat → List Octets → Octets × List Octets
  | 0, pieces => ([], pieces)
  | _ + 1, [] => ([], [])
  | count + 1, piece :: pieces =>
    if piece.length ≤ count + 1 then
      let (octets, rest) := pull (count + 1 - piece.length) pieces
      (piece ++ octets, rest)
    else (piece.take (count + 1), piece.drop (count + 1) :: pieces)

/-- The number of octets in the pieces. -/
def size (reader : Reader) : Nat :=
  reader.pieces.flatten.length

end Reader

structure Source where
  /-- The number of octets before the next one, as reported with errors. -/
  position : Nat
  /-- Octets that have been read but not consumed. -/
  buffered : Octets
  reader : Reader
  /-- The position after the last octet, once all of them have been consumed. -/
  stop : Nat
  deriving DecidableEq

namespace Source

/-- A source over octets in memory, the first of which is at `position`. -/
def ofOctets (octets : Octets) (position : Nat) : Source :=
  ⟨position, octets, ⟨[], none⟩, position + octets.length⟩

def ofReader (reader : Reader) : Source :=
  ⟨0, [], reader, reader.size⟩

/-- Reads until `count` octets are buffered or the reader has no more. -/
def fill (count : Nat) (source : Source) : Source :=
  let missing := count - (source.buffered.take count).length
  if missing = 0 then source
  else
    let (octets, pieces) := Reader.pull missing source.reader.pieces
    { source with
      buffered := source.buffered ++ octets
      reader := { source.reader with pieces } }

/-- Moves past buffered octets. -/
def skip (count : Nat) (source : Source) : Source :=
  { source with
    position := source.position + count
    buffered := source.buffered.drop count }

/-- The number of octets that a source may still give, which bounds the number of elements in it.
-/
def available (source : Source) : Nat :=
  source.stop - source.position

end Source

/-- An operation on a source. What it has read and consumed stays so if it fails. -/
abbrev Read (α : Type) := ExceptT DecodeError (StateM Source) α

namespace Read

def position : Read Nat := do
  return (← get).position

def failAt {α : Type} (error : FormatError) (position : Nat) : Read α :=
  throw (.format error position)

/-- Gives the result of a check of what stands at a position. -/
def checked {α : Type} (result : Except FormatError α) (position : Nat) : Read α :=
  match result with
  | .ok value => pure value
  | .error error => failAt error position

/-- Up to `count` octets, none of which are consumed. There are fewer only at the end. -/
def request (count : Nat) : Read Octets := do
  let source := (← get).fill count
  set source
  let octets := source.buffered.take count
  match source.reader.failure? with
  | some reason => if octets.length < count then throw (.source reason) else return octets
  | none => return octets

/-- Exactly `count` octets, none of which are consumed. -/
def requestExactly (count : Nat) : Read Octets := do
  let octets ← request count
  if octets.length < count then failAt .truncated (← position)
  return octets

def consume (count : Nat) : Read Unit :=
  modify (Source.skip count)

def takeOctets (count : Nat) : Read Octets := do
  let octets ← requestExactly count
  consume count
  return octets

/-- The next octet, or none at the end. -/
def takeOctet? : Read (Option UInt8) := do
  match ← request 1 with
  | octet :: _ =>
    consume 1
    return some octet
  | [] => return none

def takeOctet : Read UInt8 := do
  match ← takeOctet? with
  | some octet => return octet
  | none => failAt .truncated (← position)

def isExhausted : Read Bool := do
  return (← request 1).isEmpty

/-- Runs an operation on octets that have been taken from `position` on. -/
def within {α : Type} (octets : Octets) (position : Nat) (operation : Read α) : Read α :=
  match (operation.run (Source.ofOctets octets position)).1 with
  | .ok value => pure value
  | .error error => throw error

end Read

end Asn1

import Asn1.Value.Integer

namespace Asn1

/-- A range of sizes. Without a greatest size it has no upper end. -/
structure SizeRange where
  least : Nat
  greatest : Option Nat
  deriving DecidableEq, Repr

namespace SizeRange

/-- The range that holds one size only. -/
def exactly (size : Nat) : SizeRange := ⟨size, some size⟩

def contains (range : SizeRange) (size : Nat) : Bool :=
  range.least ≤ size && range.greatest.all (size ≤ ·)

def text (range : SizeRange) : String :=
  match range.greatest with
  | some greatest =>
    if greatest = range.least then s!"SIZE({greatest})" else s!"SIZE({range.least}..{greatest})"
  | none => s!"SIZE({range.least}..MAX)"

end SizeRange

/-- A range of integers, either end of which may be open. -/
structure ValueRange where
  least : Option Integer
  greatest : Option Integer
  deriving DecidableEq

namespace ValueRange

def contains (range : ValueRange) (i : Integer) : Bool :=
  range.least.all (·.value ≤ i.value) && range.greatest.all (i.value ≤ ·.value)

def text (range : ValueRange) : String :=
  let bound (limit : Option Integer) (absent : String) : String :=
    (limit.map fun i => toString i.value).getD absent
  "(" ++ bound range.least "MIN" ++ ".." ++ bound range.greatest "MAX" ++ ")"

end ValueRange

end Asn1

import Asn1.Error

namespace Asn1

/-- Names are not repeated: defining one twice is refused. -/
abbrev NamedValues := List (String × Value)

namespace NamedValues

/-- How many values are looked at before a chain of references is given up. -/
def maxReferences : Nat := 32

/-- Follows references within the `count` values that may still be looked at. If that is too few,
the error names `origin`, the reference that the chain started from. -/
def follow (values : NamedValues) (origin : String) : Nat → Value → Except ValueError Value
  | 0, _ => .error (.unresolvedValue origin)
  | count + 1, .reference name =>
    match values.lookup name with
    | some value => values.follow origin count value
    | none => .error (.unresolvedValue name)
  | _ + 1, value => .ok value

/-- The value that a value stands for: itself, unless it is a reference. -/
def resolve (values : NamedValues) (value : Value) : Except ValueError Value :=
  match value with
  | .reference name => values.follow name maxReferences value
  | _ => .ok value

end NamedValues

end Asn1

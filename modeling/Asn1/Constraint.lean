import Asn1.Error
import Asn1.Scope

namespace Asn1

inductive Constraint
  | size (range : SizeRange)
  | value (range : ValueRange)
  /-- A constraint made by the user of the library. It can look at all that the context shows. The
  text is how it is displayed. -/
  | custom (check : Scope → Value → Except ValueError Unit) (text : String := "")

/-- The size of the values that have one: characters of a text, octets of an octet string, elements
of a list. -/
def Value.size? : Value → Option Nat
  | .text string => some string.length
  | .octetString octets => some octets.length
  | .list items => some items.length
  | _ => none

namespace SizeRange

def check (range : SizeRange) (value : Value) : Except ValueError Unit :=
  match value.size? with
  | none => .error (.illegal (.sizeNotApplicable value.kind))
  | some size =>
    if range.contains size then .ok () else .error (.illegal (.sizeOutside size range))

end SizeRange

namespace ValueRange

def check (range : ValueRange) (value : Value) : Except ValueError Unit :=
  match value with
  | .integer i =>
    if range.contains i then .ok () else .error (.illegal (.integerOutside i range))
  | _ => .error (.illegal (.rangeNotApplicable value.kind))

end ValueRange

namespace Constraint

/-- The value is one that the constrained type accepts, and no reference. -/
def check (constraint : Constraint) (scope : Scope) (value : Value) : Except ValueError Unit :=
  match constraint with
  | .size range => range.check value
  | .value range => range.check value
  | .custom check _ => check scope value

/-- What other constraints see of one. -/
def view : Constraint → ConstraintView
  | size range => .size range
  | value range => .value range
  | custom _ text => .custom text

end Constraint

end Asn1

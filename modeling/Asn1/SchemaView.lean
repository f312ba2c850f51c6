import Asn1.Declaration
import Asn1.Layout
import Asn1.NamedValues

/-!
What the constraints of types see of the schema they are checked in: all types as they are at that
time, and the named values. The checks that other constraints make are not part of it. Constraints
are told apart by how they are displayed, which is enough to work out whatever the schema could be
asked, such as whether it accepts a value as one of another type.
-/

namespace Asn1

/-- What is seen of a constraint. -/
inductive ConstraintView
  | size (range : SizeRange)
  | value (range : ValueRange)
  /-- A constraint made by the user of the library, by how it is displayed. -/
  | custom (text : String)

/-- What is seen of the status of a type. -/
inductive StatusView
  | declared
  | validating
  /-- Only collections have a layout. -/
  | compiled (layout? : Option (Layout Handle))
  | failed

structure TypeView where
  name? : Option String
  definition : Definition
  constraints : List ConstraintView
  status : StatusView

structure SchemaView where
  types : Array TypeView
  values : NamedValues

namespace SchemaView

def empty : SchemaView := ⟨#[], []⟩

variable (view : SchemaView)

def type? (handle : Handle) : Option TypeView :=
  view.types[handle.index]?

def value? (name : String) : Option Value :=
  view.values.lookup name

end SchemaView

end Asn1

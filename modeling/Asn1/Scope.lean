import Asn1.SchemaView

/-!
The lexical context in which a constraint is checked: the schema, the types that have been descended
into and the collection values that are being walked. Of the types and the values a context shows
how many there are and the closest one of each.
-/

namespace Asn1

structure Scope where
  /-- The schema that the operation is done with. -/
  schema : SchemaView
  /-- The number of types and collection values. -/
  depth : Nat
  /-- The closest type, with its description. -/
  type? : Option (Handle × String)
  /-- The closest collection value. -/
  entries? : Option Entries

namespace Scope

/-- The top-level context of a schema. -/
def top (schema : SchemaView := .empty) : Scope :=
  ⟨schema, 0, none, none⟩

variable (scope : Scope)

/-- The context for descending into a type. -/
def typed (handle : Handle) (description : String) : Scope :=
  { scope with depth := scope.depth + 1, type? := some (handle, description) }

/-- The context for walking a collection value. -/
def walking (entries : Entries) : Scope :=
  { scope with depth := scope.depth + 1, entries? := some entries }

/-- The value that a value stands for: itself, unless it is a reference. -/
def resolveValue (value : Value) : Except ValueError Value :=
  scope.schema.values.resolve value

end Scope

end Asn1

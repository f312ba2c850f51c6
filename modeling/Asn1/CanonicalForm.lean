import Asn1.Builtin.Content
import Asn1.CompiledType
import Asn1.NamedValues
import Asn1.Walk

/-!
Canonical forms of values. References are replaced by what they refer to, components equal to their
default are left out, and the entries of a SET are put into index order. Finding the canonical form
also checks that the value conforms to its type.
-/

namespace Asn1

/-- A canonical value, and whether it differs from the one it was made from. -/
structure CanonicalForm where
  value : Value
  changed : Bool
  deriving DecidableEq

/-- Brings a value in a context into canonical form, or says why it does not conform. -/
abbrev Canonicalizer := Scope × Value → Except ValueError CanonicalForm

/-- An entry in canonical form, with the index of its component if it is a known one. -/
structure CanonicalEntry where
  index? : Option Nat
  name : String
  form : CanonicalForm

namespace CanonicalEntry

def entry (entry : CanonicalEntry) : String × Value :=
  (entry.name, entry.form.value)

/-- The order of SET entries: by index, unknown entries last. -/
def le (a b : CanonicalEntry) : Bool :=
  match a.index?, b.index? with
  | _, none => true
  | none, some _ => false
  | some i, some j => i ≤ j

/-- Whether each entry may stand before the one after it. -/
def isSorted : List CanonicalEntry → Bool
  | a :: b :: rest => a.le b && isSorted (b :: rest)
  | _ => true

end CanonicalEntry

/-- The canonical form of a collection value from those of its entries, which are none where a
component equals its default. -/
def CanonicalForm.ofEntries (kind : CollectionKind) (entries : List (Option CanonicalEntry)) :
    CanonicalForm :=
  let kept := entries.filterMap id
  let unsorted := kind = .set && !CanonicalEntry.isSorted kept
  let ordered := if unsorted then kept.mergeSort CanonicalEntry.le else kept
  ⟨.collection (ordered.map CanonicalEntry.entry),
    unsorted || entries.any Option.isNone || kept.any (·.form.changed)⟩

/-- The canonical form of a list value from those of its elements. -/
def CanonicalForm.ofItems (items : List CanonicalForm) : CanonicalForm :=
  ⟨.list (items.map CanonicalForm.value), items.any CanonicalForm.changed⟩

/-- The canonical form of an entry. There is none for a component equal to its default. -/
def canonicalizeEntry (scope : Scope) : Visit Canonicalizer (Option CanonicalEntry)
  | some component, entry => do
    let form ← component.type (scope, entry.2)
    if component.default? = some form.value then return none
    return some ⟨some component.index, entry.1, form⟩
  | none, entry => return some ⟨none, entry.1, ⟨entry.2, false⟩⟩

/-- Brings the value of a collection type into canonical form. -/
def Layout.canonicalize (layout : Layout Canonicalizer) (scope : Scope) (value : Value) :
    Except ValueError CanonicalForm := do
  if layout.kind.isList then
    match layout.element? with
    | some element =>
      return .ofItems (← (← layout.items value).mapM fun item => element.type (scope, item))
    | none => throw (.illegal .listWithoutElementType)
  else
    let entries ← layout.entries value
    return .ofEntries layout.kind
      (← layout.walk (canonicalizeEntry (scope.walking entries)) entries)

/-- Brings the value of a type into canonical form in terms of what does so for the types it holds.
The constraints see the canonical form. -/
def canonicalizeStep (values : NamedValues) (info : TypeInfo) (form : TypeForm Canonicalizer) :
    Canonicalizer
  | (scope, value) => do
    let scope := scope.typed info.handle info.description
    let resolved ← values.resolve value
    let canonical ←
      match form with
      | .builtin builtin => do
        builtin.accept resolved
        pure ⟨resolved, false⟩
      | .alias target => target (scope, resolved)
      | .tagged _ _ inner => inner (scope, resolved)
      | .collection layout => layout.canonicalize scope resolved
    info.constraints.forM (·.check scope canonical.value)
    return ⟨canonical.value, canonical.changed || value.isReference⟩

/-- The canonical form of a value of a type. -/
def CompiledType.canonicalize (type : CompiledType) (values : NamedValues) (scope : Scope)
    (value : Value) : Except ValueError CanonicalForm :=
  type.interpret (canonicalizeStep values) (scope, value)

end Asn1

import Asn1.Proofs.ElementaryChanges
import Asn1.Proofs.WrittenOutComponents

/-!
COMPONENTS OF a type that has been compiled. Compiling a collection gives the same if components
that it includes are written out instead, in the order in which and with the types that they have
been declared with. This does not need the aliases to have been compiled through which the type is
found. But these must not have failed, and there must not be too many of them to be followed.
-/

namespace Asn1

open Results Schema Compile

/-- Whether a schema gives a value the canonical form as one of the type that a reference is to. -/
def Schema.HasCanonical (schema : Schema) (reference : TypeRef) (value canonical : Value) : Prop :=
  ∃ target form, schema.resolve reference = .ok target ∧
    schema.canonicalize target value = .ok form ∧ form.value = canonical

namespace Schema

variable {schema last : Schema} {reference : TypeRef} {kind : CollectionKind}
  {collection other : CollectionDeclaration} {place : Handle} {name? : Option String}
  {constraints : List Constraint}

section Outcomes

end Outcomes

theorem IsAliasOf.push {outer inner : Handle} (h : schema.IsAliasOf outer inner)
    (node : SchemaNode) : (schema.push node).2.IsAliasOf outer inner := by
  obtain ⟨reference, hdefinition, hresolve⟩ := h
  obtain ⟨found, hfound, hdeclared⟩ := definition?_eq_some_iff.mp hdefinition
  exact ⟨reference, definition?_eq_some_iff.mpr ⟨found, node?_push_of_node? hfound node, hdeclared⟩,
    (extends_push schema node).resolve hresolve⟩

end Schema

end Asn1

import Asn1.Proofs.EarlyAliases

namespace Asn1

open Results Schema Compile

section Declarations

variable (written? : TypeRef → Option (List ComponentDeclaration))

/-- Replaces an inclusion by the components that `written?` gives for it, if any. -/
def ComponentItem.writeOut : ComponentItem → List ComponentItem
  | .components written => [.components written]
  | .componentsOf reference =>
    match written? reference with
    | some written => written.map fun component => .components [component]
    | none => [.componentsOf reference]

/-- An inclusion among the extension additions is replaced by a group without a version. -/
def ExtensionAddition.writeOut : ExtensionAddition → ExtensionAddition
  | .single (.componentsOf reference) =>
    match written? reference with
    | some written => .group none written
    | none => .single (.componentsOf reference)
  | addition => addition

/-- The declaration in which the inclusions are replaced by components that are written out. -/
def CollectionDeclaration.writeOut (collection : CollectionDeclaration) : CollectionDeclaration :=
  { collection with
    root := collection.root.flatMap (·.writeOut written?)
    additions := collection.additions.map (·.writeOut written?) }

end Declarations

namespace ComponentItem

variable {includes : Nat → TypeRef → List FlatComponent → Prop}
  {alike : FlatComponent → FlatComponent → Prop}

theorem Expands.append {items others rest rest' : List (Nat × ComponentItem)}
    (hfront : Expands includes alike items others) (hback : Expands includes alike rest rest') :
    Expands includes alike (items ++ rest) (others ++ rest') := by
  induction hfront with
  | nil => exact hback
  | keep item _ ih => exact .keep item ih
  | writeOut hincludes hpart _ ih =>
      rw [List.append_assoc]
      exact .writeOut hincludes hpart ih

end ComponentItem

section Correspondence

variable {written? : TypeRef → Option (List ComponentDeclaration)}
  {includes : Nat → TypeRef → List FlatComponent → Prop}
  {alike : FlatComponent → FlatComponent → Prop}
  (hwritten : ∀ {reference components}, written? reference = some components → ∀ version,
    ∃ part, includes version reference part ∧
      List.Forall₂ alike part (components.map (FlatComponent.ofDeclaration version)))

include hwritten

end Correspondence

end Asn1

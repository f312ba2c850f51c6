import Asn1.Family
import Asn1.TypeRef
import Asn1.Value

/-!
Layouts: the components of a compiled collection in their final order. A layout does not say what
the type of a component is represented by, so that the same layout can hold types or operations on
their values.
-/

namespace Asn1

structure Component (τ : Type) where
  name : String
  /-- The position in the layout. -/
  index : Nat
  /-- Root components have version 1, extension additions a greater one. -/
  version : Nat
  optional : Bool
  default? : Option Value
  /-- The type as it was declared. -/
  declared : TypeRef
  type : τ
  /-- Whether a tag is written on the declaration itself. -/
  tagWritten : Bool
  /-- The tags that an encoding of the component can start with. -/
  tags : List Tag
  deriving DecidableEq

namespace Component

variable {σ τ : Type}

def map (f : σ → τ) (component : Component σ) : Component τ :=
  { component with type := f component.type }

/-- Whether the component has to be present in a value. -/
def isRequired (component : Component τ) : Bool :=
  !component.optional && component.default?.isNone

def isAddition (component : Component τ) : Bool :=
  1 < component.version

def hasTag (component : Component τ) (tag : Tag) : Bool :=
  component.tags.contains tag

end Component

/-- Whether an element or entry that no component matches is let through. In a SEQUENCE it has to
follow an extension addition; in a SET or CHOICE it may appear anywhere. The type has to be
extensible. -/
def CollectionKind.allowsUnknown (kind : CollectionKind) (extensible afterAddition : Bool) : Bool :=
  match kind with
  | .sequence => extensible && afterAddition
  | .set | .choice => extensible
  | .sequenceOf | .setOf => false

structure Layout (τ : Type) where
  kind : CollectionKind
  extensible : Bool
  components : List (Component τ)
  deriving DecidableEq

namespace Layout

variable {σ τ : Type}

def map (f : σ → τ) (layout : Layout σ) : Layout τ :=
  { layout with components := layout.components.map (Component.map f) }

variable (layout : Layout τ)

def component? (name : String) : Option (Component τ) :=
  layout.components.find? (·.name = name)

def componentByTag? (tag : Tag) : Option (Component τ) :=
  layout.components.find? (·.hasTag tag)

/-- The component for the elements of a list. -/
def element? : Option (Component τ) :=
  layout.components.head?

/-- The first component from index `start` on that an encoding starting with the tag can be of. -/
def componentByTagFrom? (start : Nat) (tag : Tag) : Option (Component τ) :=
  (layout.components.drop start).find? (·.hasTag tag)

/-- The least and the greatest index of an extension addition. -/
def extensionRange? : Option (Nat × Nat) :=
  let indexes := (layout.components.filter Component.isAddition).map Component.index
  match indexes.min?, indexes.max? with
  | some first, some last => some (first, last)
  | _, _ => none

def inExtensionRange (index : Nat) : Bool :=
  layout.extensionRange?.any fun (first, last) => first ≤ index && index ≤ last

/-- Whether no component is required. -/
def isAllOptional : Bool :=
  layout.components.all fun component => !component.isRequired

/-- Whether something unknown may follow the component with the index `previous?`, the last known
one. -/
def allowsUnknown (previous? : Option Nat) : Bool :=
  layout.kind.allowsUnknown layout.extensible (previous?.any layout.inExtensionRange)

/-- The first required component strictly between two indexes whose version is not above the given
one. Without `after?` the first component is the first one considered; without `before?` the last
component is the last one. Indexes in the wrong order, or beyond the end, give none. -/
def missingRequired? (after? before? : Option Nat) (version : Nat) : Option (Component τ) :=
  let start := (after?.map (· + 1)).getD 0
  let stop := before?.getD layout.components.length
  if start ≤ stop ∧ stop ≤ layout.components.length then
    ((layout.components.take stop).drop start).find? fun component =>
      component.isRequired && component.version ≤ version
  else none

end Layout

end Asn1

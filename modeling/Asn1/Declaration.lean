import Asn1.Family
import Asn1.TypeRef
import Asn1.Value

/-!
Declarations of types, as they are added to a schema. The components of a collection are declared
in three places: in the root before the extension marker, as extension additions, and in the root
after a second extension marker.
-/

namespace Asn1

/-- A component that is neither optional nor has a default is required. -/
structure ComponentDeclaration where
  name : String
  type : TypeRef
  optional : Bool
  default? : Option Value
  deriving DecidableEq

/-- One entry of a component list: components that are written out, or the root components of
another collection. -/
inductive ComponentItem
  | components (components : List ComponentDeclaration)
  | componentsOf (type : TypeRef)
  deriving DecidableEq

/-- An extension addition. Only a group can give its version explicitly. -/
inductive ExtensionAddition
  | single (item : ComponentItem)
  | group (version? : Option Nat) (components : List ComponentDeclaration)
  deriving DecidableEq

namespace ExtensionAddition

def item : ExtensionAddition → ComponentItem
  | single item => item
  | group _ components => .components components

def version? : ExtensionAddition → Option Nat
  | single _ => none
  | group version? _ => version?

end ExtensionAddition

/-- The kind of a collection, with the element type of a list. -/
inductive CollectionShape
  | sequence
  | set
  | choice
  | sequenceOf (element : TypeRef)
  | setOf (element : TypeRef)
  deriving DecidableEq

structure CollectionDeclaration where
  shape : CollectionShape
  automaticTags : Bool
  /-- Whether an extension marker is written although nothing follows it. -/
  extensionMarker : Bool
  root : List ComponentItem
  additions : List ExtensionAddition
  trailing : List ComponentDeclaration
  deriving DecidableEq

namespace CollectionDeclaration

/-- A collection of the shape that declares nothing yet. -/
def ofShape (shape : CollectionShape) : CollectionDeclaration :=
  ⟨shape, false, false, [], [], []⟩

def kind (collection : CollectionDeclaration) : CollectionKind :=
  match collection.shape with
  | .sequence => .sequence
  | .set => .set
  | .choice => .choice
  | .sequenceOf _ => .sequenceOf
  | .setOf _ => .setOf

/-- The name of the one component that a list type has for its elements. -/
def elementName : String := "item"

/-- The component for the elements of a list. -/
def element (collection : CollectionDeclaration) : List ComponentItem :=
  match collection.shape with
  | .sequenceOf type | .setOf type => [.components [⟨elementName, type, false, none⟩]]
  | _ => []

/-- Whether components unknown to the schema may be present. Whatever stands after an extension
marker implies that there is one. -/
def isExtensible (collection : CollectionDeclaration) : Bool :=
  collection.extensionMarker || !collection.additions.isEmpty || !collection.trailing.isEmpty

def withAutomaticTags (collection : CollectionDeclaration) : CollectionDeclaration :=
  { collection with automaticTags := true }

def withExtensionMarker (collection : CollectionDeclaration) : CollectionDeclaration :=
  { collection with extensionMarker := true }

/-- Adds to the root before the extension marker. -/
def withRoot (collection : CollectionDeclaration) (item : ComponentItem) :
    CollectionDeclaration :=
  { collection with root := collection.root ++ [item] }

def withAddition (collection : CollectionDeclaration) (addition : ExtensionAddition) :
    CollectionDeclaration :=
  { collection with additions := collection.additions ++ [addition] }

/-- Adds to the root after the second extension marker. -/
def withTrailing (collection : CollectionDeclaration) (component : ComponentDeclaration) :
    CollectionDeclaration :=
  { collection with trailing := collection.trailing ++ [component] }

end CollectionDeclaration

/-- What a type is declared to be. -/
inductive Definition
  | builtin (builtin : Builtin)
  | alias (target : TypeRef)
  | tagged (tag : Tag) (method : TagMethod) (inner : TypeRef)
  | collection (collection : CollectionDeclaration)
  deriving DecidableEq

end Asn1

import Asn1.Declaration
import Asn1.Error

/-!
The versions of extension additions. Either no addition has an explicit version, and they are
numbered in order, or all of them have one. Root components have version 1.
-/

namespace Asn1

namespace ExtensionAddition

/-- The first addition whose explicit version stands next to additions without one, or is not above
the version before it, which starts as `previous`. -/
def versionFault? (unversioned : Bool) (previous : Nat) :
    List ExtensionAddition → Option SchemaError
  | [] => none
  | addition :: rest =>
    match addition.version? with
    | none => versionFault? unversioned previous rest
    | some found =>
      if unversioned then some (.prohibitedVersion found)
      else if found ≤ previous then some (.versionOrder previous found)
      else versionFault? unversioned found rest

/-- The additions with their versions. Those without an explicit one are numbered from `next` on.
-/
def numbered (next : Nat) : List ExtensionAddition → List (Nat × ComponentItem)
  | [] => []
  | addition :: rest =>
    match addition.version? with
    | some version => (version, addition.item) :: numbered next rest
    | none => (next, addition.item) :: numbered (next + 1) rest

end ExtensionAddition

namespace CollectionDeclaration

/-- What is wrong with the versions of the extension additions. -/
def versionFault? (collection : CollectionDeclaration) : Option SchemaError :=
  ExtensionAddition.versionFault? (collection.additions.any (·.version?.isNone)) 1
    collection.additions

/-- All that declares components, in the order of the layout and with its version. -/
def items (collection : CollectionDeclaration) : List (Nat × ComponentItem) :=
  (collection.element ++ collection.root).map (1, ·) ++
    ExtensionAddition.numbered 2 collection.additions ++
    collection.trailing.map fun component => (1, .components [component])

end CollectionDeclaration

end Asn1

import Asn1.CanonicalForm
import Asn1.Conformance
import Asn1.Declaration

/-!
Schemas: the types and named values that refer to each other. Types are added as declarations and
have to be compiled before they can be used. A type that has been compiled never changes again, and
one that failed to compile stays unusable.
-/

namespace Asn1

structure Declaration where
  definition : Definition
  constraints : List Constraint

/-- What has become of a type. It is `validating` only while it is being compiled. -/
inductive TypeStatus
  | declared
  | validating
  | compiled (type : CompiledType)
  | failed

structure SchemaNode where
  name? : Option String
  /-- The declaration; once the type is compiled, with its references resolved to handles. -/
  declaration : Declaration
  status : TypeStatus

/-- What constraints see of the status of a type. -/
def TypeStatus.view : TypeStatus → StatusView
  | .declared => .declared
  | .validating => .validating
  | .compiled type => .compiled (type.layout?.map (Layout.map CompiledType.handle))
  | .failed => .failed

/-- What constraints see of a type. -/
def SchemaNode.view (node : SchemaNode) : TypeView :=
  ⟨node.name?, node.declaration.definition, node.declaration.constraints.map Constraint.view,
    node.status.view⟩

/-- The handle of a type is its place among the nodes. -/
structure Schema where
  nodes : Array SchemaNode
  values : NamedValues

namespace Schema

def empty : Schema := ⟨#[], []⟩

variable (schema : Schema)

/-- The type with the handle, if the schema has given that handle out. -/
def node? (handle : Handle) : Option SchemaNode :=
  schema.nodes[handle.index]?

def push (node : SchemaNode) : Handle × Schema :=
  (⟨schema.nodes.size⟩, { schema with nodes := schema.nodes.push node })

/-- Adds a type without a name. -/
def add (declaration : Declaration) : Handle × Schema :=
  schema.push ⟨none, declaration, .declared⟩

/-- The handle of the type that was defined under a name. -/
def lookup (name : String) : Option Handle :=
  (schema.nodes.findIdx? (·.name? = some name)).map Handle.mk

/-- Adds a type under a name that is not in use. -/
def define (name : String) (declaration : Declaration) : Except SchemaError (Handle × Schema) :=
  match schema.lookup name with
  | some _ => .error (.duplicateName name)
  | none => .ok (schema.push ⟨some name, declaration, .declared⟩)

/-- The value that was defined under a name. -/
def value? (name : String) : Option Value :=
  schema.values.lookup name

/-- Adds a value under a name that no value has. -/
def defineValue (name : String) (value : Value) : Except SchemaError Schema :=
  match schema.value? name with
  | some _ => .error (.duplicateName name)
  | none => .ok { schema with values := schema.values ++ [(name, value)] }

/-- Adds a copy of a type as it is declared now. The copy has no name and is not compiled. -/
def copy (node : SchemaNode) : Handle × Schema :=
  schema.add node.declaration

/-- How error messages refer to a type. -/
def describe (handle : Handle) : String :=
  TypeInfo.describe ((schema.node? handle).bind SchemaNode.name?) handle

/-- The type that a reference is to. -/
def resolve : TypeRef → Except SchemaError Handle
  | .handle handle =>
    match schema.node? handle with
    | some _ => .ok handle
    | none => .error (.unresolvedType handle.text)
  | .name name =>
    match schema.lookup name with
    | some handle => .ok handle
    | none => .error (.unresolvedType name)

/-- What a type is declared to be now. -/
def definition? (handle : Handle) : Option Definition :=
  (schema.node? handle).map (·.declaration.definition)

/-- How many types are looked at in a chain of references before it is taken for a cycle. -/
def maxChain : Nat := 64

/-- Follows the references that `next?` gives from type to type, within the `count` types that may
still be looked at. If that is too few, the error names `origin`, where the chain started. -/
def follow (next? : Definition → Option TypeRef) (origin : Handle) :
    Nat → Handle → Except SchemaError Handle
  | 0, _ => .error (.cyclicDefinition (schema.describe origin))
  | count + 1, handle => do
    match (schema.definition? handle).bind next? with
    | none => return handle
    | some target => follow next? origin count (← schema.resolve target)

/-- The first type after a chain of aliases. -/
def skipAliases (handle : Handle) : Except SchemaError Handle := do
  let next? : Definition → Option TypeRef
    | .alias target => some target
    | _ => none
  schema.follow next? handle maxChain (← schema.resolve (.handle handle))

/-- The first type after a chain of aliases and tags. -/
def skipAliasesAndTags (handle : Handle) : Except SchemaError Handle := do
  let next? : Definition → Option TypeRef
    | .alias target => some target
    | .tagged _ _ inner => some inner
    | _ => none
  schema.follow next? handle maxChain (← schema.resolve (.handle handle))

def family (handle : Handle) : Except SchemaError Family := do
  match schema.definition? (← schema.skipAliasesAndTags handle) with
  | some (.builtin builtin) => return .builtin builtin
  | some (.collection collection) => return .collection collection.kind
  | _ => throw (.unresolvedType (schema.describe handle))

/-- Whether a type is a CHOICE without a tag of its own. -/
def isUntaggedChoice (handle : Handle) : Except SchemaError Bool := do
  match schema.definition? (← schema.skipAliases handle) with
  | some (.collection collection) => return collection.kind = .choice
  | _ => return false

/-- The compiled form of a type, or why there is none. -/
def compiled (handle : Handle) : Except SchemaError CompiledType :=
  match schema.node? handle with
  | none => .error (.unresolvedType handle.text)
  | some node =>
    match node.status with
    | .compiled type => .ok type
    | .failed => .error (.failed (schema.describe handle))
    | .declared | .validating => .error (.notCompiled (schema.describe handle))

/-- The layout of a collection type, if it has been compiled. Aliases are followed. -/
def layout? (handle : Handle) : Option (Layout CompiledType) :=
  ((schema.skipAliases handle).toOption.bind fun base => (schema.compiled base).toOption).bind
    CompiledType.layout?

/-- The tags that an encoding of a type can start with: a single one, except for an untagged
CHOICE, which has those of all alternatives. -/
def firstTags (handle : Handle) : Except SchemaError (List Tag) := do
  let base ← schema.skipAliases handle
  match schema.definition? base with
  | some (.builtin builtin) => return [builtin.tag]
  | some (.tagged tag _ _) => return [tag]
  | some (.collection collection) =>
    match collection.kind.tag?, schema.layout? base with
    | some tag, _ => return [tag]
    | none, some layout => return layout.components.flatMap Component.tags
    | none, none => throw (.notCompiled (schema.describe base))
  | _ => throw (.cyclicDefinition (schema.describe base))

/-- Whether something unknown may follow the component with the index `previous?` in a value of a
collection type, which need not be compiled. There is no answer for other types. -/
def allowsUnknown? (handle : Handle) (previous? : Option Nat) : Option Bool :=
  match schema.definition? handle, (schema.compiled handle).toOption.bind CompiledType.layout? with
  | some (.collection _), some layout => some (layout.allowsUnknown previous?)
  | some (.collection collection), none =>
    some (collection.kind.allowsUnknown collection.isExtensible false)
  | _, _ => none

/-- What constraints see of the schema as it is now. -/
def view : SchemaView :=
  ⟨schema.nodes.map SchemaNode.view, schema.values⟩

/-- Checks that a value is one of a type. -/
def accept (handle : Handle) (value : Value) : Except ValueError Unit := do
  let type ← (schema.compiled handle).mapError .schema
  type.accept schema.values (.top schema.view) value

/-- The canonical form of a value of a type. A reference that leads nowhere is reported even if the
type is not ready for use. -/
def canonicalize (handle : Handle) (value : Value) : Except ValueError CanonicalForm := do
  discard <| schema.values.resolve value
  let type ← (schema.compiled handle).mapError .schema
  type.canonicalize schema.values (.top schema.view) value

end Schema

end Asn1

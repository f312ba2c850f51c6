import Asn1.Declaration.Versions
import Asn1.Layout.Ambiguity
import Asn1.Schema

/-!
Compiling types. A type is compiled once, after the types it depends on; one that is reached again
while it is being compiled is defined in terms of itself. Compiling a collection flattens its
declaration into a layout, gives its components automatic tags if asked to, and makes sure that the
components can be told apart.
-/

namespace Asn1

/-- An operation that changes a schema. What it has compiled stays so if it fails. -/
abbrev Compile (α : Type) := ExceptT SchemaError (StateM Schema) α

/-- Compiles the type with a handle. -/
abbrev TypeCompiler := Handle → Compile CompiledType

namespace Compile

/-- Asks something of the schema. -/
def ask {α : Type} (question : Schema → Except SchemaError α) : Compile α := do
  match question (← get) with
  | .ok answer => return answer
  | .error error => throw error

/-- Fails if there is a fault. -/
def refuse (fault? : Option SchemaError) : Compile Unit :=
  match fault? with
  | some error => throw error
  | none => return ()

/-- Changes the node of a type. -/
def update (handle : Handle) (node : SchemaNode) : Compile Unit :=
  modify fun schema => { schema with nodes := schema.nodes.setIfInBounds handle.index node }

end Compile

open Compile

/-- A component of a flattened declaration. -/
structure FlatComponent where
  name : String
  type : TypeRef
  optional : Bool
  default? : Option Value
  version : Nat
  /-- Whether the collection declares the component itself. -/
  own : Bool

namespace FlatComponent

def ofDeclaration (version : Nat) (component : ComponentDeclaration) : FlatComponent :=
  ⟨component.name, component.type, component.optional, component.default?, version, true⟩

/-- A component of another collection, with the type that is declared there, so that it does not
bring an automatic tag along. -/
def ofComponent (version : Nat) (component : Component CompiledType) : FlatComponent :=
  ⟨component.name, component.declared, component.optional, component.default?, version, false⟩

/-- The first component whose name is one of those in `seen`, or repeats one before it. -/
def nameFault? (seen : List String) : List FlatComponent → Option SchemaError
  | [] => none
  | component :: rest =>
    if seen.contains component.name then some (.duplicateName component.name)
    else nameFault? (component.name :: seen) rest

end FlatComponent

section Flattening

variable (compileType : TypeCompiler) (kind : CollectionKind)

/-- The root components of another collection, which has to be of the same kind, SEQUENCE or SET.
-/
def rootComponentsOf (version : Nat) (type : TypeRef) : Compile (List FlatComponent) := do
  let included ← ask (·.resolve type)
  discard <| compileType included
  let base ← ask (·.skipAliases included)
  let schema ← get
  match schema.layout? base with
  | some layout =>
    if (kind = .sequence ∨ kind = .set) ∧ layout.kind = kind then
      return (layout.components.filter (·.version = 1)).map (FlatComponent.ofComponent version)
    else throw (.illegalComponentsOf (schema.describe included))
  | none => throw (.illegalComponentsOf (schema.describe included))

/-- The components of all that declares them, with versions. -/
def flatten : List (Nat × ComponentItem) → Compile (List FlatComponent)
  | [] => return []
  | (version, .components components) :: rest =>
    return components.map (FlatComponent.ofDeclaration version) ++ (← flatten rest)
  | (version, .componentsOf type) :: rest =>
    return (← rootComponentsOf compileType kind version type) ++ (← flatten rest)

end Flattening

/-- The canonical form of the default of a component. -/
def compileDefault (type : CompiledType) (name : String) (value : Value) : Compile Value := do
  let schema ← get
  match type.canonicalize schema.values (.top schema.view) value with
  | .ok form => return form.value
  | .error error => throw (.invalidDefault name error.message)

/-- Compiles the type and the default of a component. Only an anonymous tagged type that is given
by its handle counts as a tag written on the component. The tags are not known yet. -/
def compileComponent (compileType : TypeCompiler) (index : Nat) (component : FlatComponent) :
    Compile (Component CompiledType) := do
  let type ← compileType (← ask (·.resolve component.type))
  let tagWritten :=
    match component.type with
    | .handle _ => type.isAnonymousTag
    | .name _ => false
  let default? ← component.default?.mapM (compileDefault type component.name)
  return ⟨component.name, index, component.version, component.optional, default?, component.type,
    type, tagWritten, []⟩

/-- Compiles components, the first of which has the given index. -/
def compileComponents (compileType : TypeCompiler) (index : Nat) :
    List FlatComponent → Compile (List (Component CompiledType))
  | [] => return []
  | component :: rest =>
    return (← compileComponent compileType index component) ::
      (← compileComponents compileType (index + 1) rest)

section AutomaticTags

/-- Adds the type that a component gets from automatic tagging. It is compiled, as its inner type
is. An untagged CHOICE has to be tagged explicitly. -/
def addContextTag (number : Nat) (inner : CompiledType) : Compile CompiledType := do
  let isChoice ← ask (·.isUntaggedChoice inner.handle)
  let tag := Tag.context (UInt32.ofNat number)
  let method : TagMethod := if isChoice then .explicit else .implicit
  let schema ← get
  let type : CompiledType := ⟨⟨⟨schema.nodes.size⟩, none, []⟩, .tagged tag method inner⟩
  let declaration : Declaration := ⟨.tagged tag method (.handle inner.handle), []⟩
  set (schema.push ⟨none, declaration, .compiled type⟩).2
  return type

/-- Adds tagged types for components, numbered from `number` on, and gives them by index. -/
def addContextTags (number : Nat) :
    List (Component CompiledType) → Compile (List (Nat × CompiledType))
  | [] => return []
  | component :: rest =>
    return (component.index, ← addContextTag number component.type) ::
      (← addContextTags (number + 1) rest)

/-- Gives each component a context tag: root components are numbered first, then extension
additions, both in index order. -/
def tagAutomatically (components : List (Component CompiledType)) :
    Compile (List (Component CompiledType)) := do
  let order := components.filter (!·.isAddition) ++ components.filter (·.isAddition)
  let types ← addContextTags 0 order
  return components.map fun component =>
    { component with type := (types.lookup component.index).getD component.type }

end AutomaticTags

/-- Fills in the tags that the encoding of a component can start with. -/
def findTags (component : Component CompiledType) : Compile (Component CompiledType) := do
  let tags ← ask (·.firstTags component.type.handle)
  return { component with tags }

/-- Compiles a collection. Automatic tags are left out if a tag is written on a component that the
collection itself declares. -/
def compileCollection (compileType : TypeCompiler) (collection : CollectionDeclaration) :
    Compile (Layout CompiledType) := do
  let kind := collection.kind
  refuse collection.versionFault?
  let flat ← flatten compileType kind collection.items
  refuse (FlatComponent.nameFault? [] flat)
  let components ← compileComponents compileType 0 flat
  let tagWritten := (flat.zip components).any fun (flat, component) =>
    flat.own && component.tagWritten
  let components ←
    if collection.automaticTags && !kind.isList && !tagWritten then tagAutomatically components
    else pure components
  let components ← components.mapM findTags
  refuse <| (ambiguity? kind components).map fun clash =>
    .tagAmbiguity clash.first clash.second clash.tag
  return ⟨kind, collection.isExtensible, components⟩

/-- Compiles what a type is declared to be. Gives the declaration with its references resolved and
the compiled form. Since tagging an untagged CHOICE implicitly would lose the tag of the
alternative, it is tagged explicitly. -/
def compileDefinition (compileType : TypeCompiler) :
    Definition → Compile (Definition × TypeForm CompiledType)
  | .builtin builtin => return (.builtin builtin, .builtin builtin)
  | .alias target => do
    let target ← ask (·.resolve target)
    let type ← compileType target
    return (.alias (.handle target), .alias type)
  | .tagged tag method inner => do
    let inner ← ask (·.resolve inner)
    let type ← compileType inner
    let method ←
      match method with
      | .explicit => pure .explicit
      | .implicit => do
        pure (if ← ask (·.isUntaggedChoice inner) then .explicit else .implicit)
    return (.tagged tag method (.handle inner), .tagged tag method type)
  | .collection collection =>
    return (.collection collection, .collection (← compileCollection compileType collection))

/-- Compiles a type that has not been compiled, and records what has become of it. Until then it is
marked as one that is being compiled. -/
def compileNode (compileType : TypeCompiler) (handle : Handle) (node : SchemaNode) :
    Compile CompiledType := do
  update handle { node with status := .validating }
  tryCatch
    (do
      let (definition, form) ← compileDefinition compileType node.declaration.definition
      let constraints := node.declaration.constraints
      let type : CompiledType := ⟨⟨handle, node.name?, constraints⟩, form⟩
      update handle ⟨node.name?, ⟨definition, constraints⟩, .compiled type⟩
      return type)
    (fun error => do
      update handle { node with status := .failed }
      throw error)

/-- Compiles a type unless that has been tried before. -/
def compileOnce (compileType : TypeCompiler) : TypeCompiler
  | handle => do
    let schema ← get
    match schema.node? handle with
    | none => throw (.unresolvedType handle.text)
    | some node =>
      match node.status with
      | .compiled type => return type
      | .failed => throw (.failed (schema.describe handle))
      | .validating => throw (.cyclicDefinition (schema.describe handle))
      | .declared => compileNode compileType handle node

/-- Compiles a type and those it depends on. Each type that is being compiled has been marked, and
there are no more of them than types, so that the `steps` are never used up. -/
def compileWithin : Nat → TypeCompiler
  | 0, handle => do throw (.cyclicDefinition ((← get).describe handle))
  | steps + 1, handle => compileOnce (compileWithin steps) handle

namespace Schema

/-- Compiles a type and all types it depends on. Nothing happens to a type that has been compiled
before. -/
def compile (handle : Handle) : Compile Unit := do
  discard <| compileWithin ((← get).nodes.size + 1) handle

/-- Compiles all types, up to the first one that fails. -/
def compileAll : Compile Unit := do
  (List.range (← get).nodes.size).forM fun index => compile ⟨index⟩

end Schema

end Asn1

import Asn1.Compilation
import Asn1.Proofs.CompiledTypes
import Asn1.Proofs.References

namespace Asn1

namespace CompiledType

/-- Whether a type is the other one or an alias that leads to it. -/
def StandsFor : CompiledType → CompiledType → Prop :=
  Relation.ReflTransGen fun outer inner => outer.form = .alias inner

/-- The type that a chain of aliases comes to, if that is among the first `count` types. -/
def aliasBase? : Nat → CompiledType → Option CompiledType
  | 0, _ => none
  | count + 1, type =>
    match type.form with
    | .alias target => aliasBase? count target
    | _ => some type

/-- Whether a schema that follows the aliases of a type comes to an end. -/
def HasBase (type : CompiledType) : Prop :=
  ∃ base, type.aliasBase? Schema.maxChain = some base

/-- Whether a type just puts a context tag on another one, in the way automatic tags are given. -/
def IsContextTag (type : CompiledType) (number : Nat) (inner : CompiledType) : Prop :=
  ∃ handle, type = ⟨⟨handle, none, []⟩, .tagged (.context (UInt32.ofNat number))
    (if inner.isUntaggedChoice then .explicit else .implicit) inner⟩

theorem standsFor_of_aliasBase? {count : Nat} {type base : CompiledType}
    (h : type.aliasBase? count = some base) :
    type.StandsFor base ∧ ∀ target, base.form ≠ .alias target := by
  induction count generalizing type with
  | zero => contradiction
  | succ count ih =>
      rw [aliasBase?] at h
      split at h
      · next hform =>
        obtain ⟨hstands, hnot⟩ := ih h
        exact ⟨.head hform hstands, hnot⟩
      · next hnot =>
        obtain rfl := Option.some.inj h
        exact ⟨.refl, hnot⟩

theorem aliasBase?_of_not_alias {type : CompiledType} (h : ∀ target, type.form ≠ .alias target) :
    type.aliasBase? Schema.maxChain = some type := by
  rw [Schema.maxChain, aliasBase?]
  split
  · next hform => exact absurd hform (h _)
  · rfl

theorem StandsFor.reaches {type base : CompiledType} (h : type.StandsFor base) :
    type.Reaches base := by
  refine Relation.ReflTransGen.mono (fun outer inner hform => ?_) _ _ h
  rw [DependsOn, hform]
  exact TypeForm.target_mem_types

theorem StandsFor.firstTags_eq {type base : CompiledType} (h : type.StandsFor base) :
    base.firstTags = type.firstTags := by
  induction h with
  | refl => rfl
  | @tail outer inner _ hform ih =>
      rw [← ih]
      cases outer
      cases hform
      exact (firstTags_alias _ _).symm

theorem StandsFor.isUntaggedChoice_eq {type base : CompiledType} (h : type.StandsFor base) :
    base.isUntaggedChoice = type.isUntaggedChoice := by
  induction h with
  | refl => rfl
  | @tail outer inner _ hform ih =>
      rw [← ih]
      cases outer
      cases hform
      exact (isUntaggedChoice_alias _ _).symm

theorem StandsFor.layout_unique {type : CompiledType} {info info' : TypeInfo}
    {layout layout' : Layout CompiledType} (h : type.StandsFor ⟨info, .collection layout⟩)
    (h' : type.StandsFor ⟨info', .collection layout'⟩) : layout = layout' := by
  have hlast {info : TypeInfo} {layout : Layout CompiledType} {other : CompiledType}
      (h : StandsFor ⟨info, .collection layout⟩ other) : other = ⟨info, .collection layout⟩ := by
    rcases Relation.ReflTransGen.cases_head h with heq | ⟨_, hform, -⟩
    · exact heq.symm
    · cases hform
  have hunique : Relator.RightUnique fun outer inner : CompiledType => outer.form = .alias inner :=
    fun outer inner other hinner hother => TypeForm.alias.inj (hinner.symm.trans hother)
  rcases Relation.ReflTransGen.total_of_right_unique hunique h h' with hle | hle
  · cases hlast hle
    rfl
  · cases hlast hle
    rfl

end CompiledType

/-- What an item of a component list with the version is flattened to. The root components of
another collection are those of its layout. -/
inductive ComponentItem.Flattens (schema : Schema) (version : Nat) :
    ComponentItem → List FlatComponent → Prop
  | components (written : List ComponentDeclaration) :
    Flattens schema version (.components written)
      (written.map (FlatComponent.ofDeclaration version))
  | componentsOf {reference : TypeRef} {target : Handle} {type : CompiledType} {info : TypeInfo}
    {layout : Layout CompiledType} (hresolve : schema.resolve reference = .ok target)
    (hcompiled : schema.compiled target = .ok type)
    (hlayout : type.StandsFor ⟨info, .collection layout⟩) :
    Flattens schema version (.componentsOf reference)
      ((layout.components.filter (·.version = 1)).map (FlatComponent.ofComponent version))

/-- Whether a collection of the kind, a SEQUENCE or SET, can include the components of a type. -/
structure Schema.Includes (schema : Schema) (kind : CollectionKind) (reference : TypeRef) :
    Prop where
  legal : kind = .sequence ∨ kind = .set
  found : ∃ target type base layout, schema.resolve reference = .ok target ∧
    schema.compiled target = .ok type ∧ type.aliasBase? maxChain = some base ∧
      base.layout? = some layout ∧ layout.kind = kind

/-- Whether a reference is to a compiled type whose aliases a schema follows to their end. -/
def Schema.OffersBase (schema : Schema) (reference : TypeRef) : Prop :=
  ∃ target type, schema.resolve reference = .ok target ∧ schema.compiled target = .ok type ∧
    type.HasBase

theorem Schema.OffersBase.offers {schema : Schema} {reference : TypeRef}
    (h : schema.OffersBase reference) : schema.Offers reference := by
  obtain ⟨target, type, hresolve, hcompiled, -⟩ := h
  exact ⟨target, type, hresolve, hcompiled⟩

/-- What the items of a declaration, each with its version, are flattened to one after the other. -/
inductive Schema.Flattens (schema : Schema) : List (Nat × ComponentItem) → List FlatComponent → Prop
  | nil : Flattens schema [] []
  | cons {version : Nat} {item : ComponentItem} {items : List (Nat × ComponentItem)}
    {part flat : List FlatComponent} (hitem : item.Flattens schema version part)
    (hitems : Flattens schema items flat) :
    Flattens schema ((version, item) :: items) (part ++ flat)

/-- The numbers of the automatic tags of components with the versions: from `root` on for those of
the root, and from `addition` on for extension additions. -/
def automaticNumbers (root addition : Nat) : List Nat → List Nat
  | [] => []
  | version :: rest =>
    if 1 < version then addition :: automaticNumbers root (addition + 1) rest
    else root :: automaticNumbers (root + 1) addition rest

/-- Whether a value was the canonical form of another one at some time, when not all values need
have been defined. -/
def CompiledType.HasCanonical (type : CompiledType) (schema : Schema) (value canonical : Value) :
    Prop :=
  ∃ values view form, values.IsWithin schema.values ∧
    type.canonicalize values (.top view) value = .ok form ∧ form.value = canonical

/-- Whether a schema finds that a value of a type has the canonical form. -/
def CompiledType.HasCanonicalIn (type : CompiledType) (schema : Schema) (value canonical : Value) :
    Prop :=
  ∃ form, type.canonicalize schema.values (.top schema.view) value = .ok form ∧
    form.value = canonical

theorem CompiledType.HasCanonicalIn.hasCanonical {type : CompiledType} {schema after : Schema}
    {value canonical : Value} (h : type.HasCanonicalIn schema value canonical)
    (hwithin : schema.values.IsWithin after.values) : type.HasCanonical after value canonical := by
  obtain ⟨form, hform, hvalue⟩ := h
  exact ⟨schema.values, schema.view, form, hwithin, hform, hvalue⟩

/-- Whether a component has been made from one of a flattened declaration, whose own type is
`inner`. -/
structure Component.IsMadeFrom (schema : Schema) (flat : FlatComponent) (inner : CompiledType)
    (component : Component CompiledType) : Prop where
  name : component.name = flat.name
  version : component.version = flat.version
  optional : component.optional = flat.optional
  resolve : schema.resolve flat.type = .ok inner.handle
  compiled : schema.compiled inner.handle = .ok inner
  default? : Option.Rel (inner.HasCanonical schema) flat.default? component.default?

/-- Whether a component is that of a flattened declaration, automatically tagged with the number. -/
def Component.IsTaggedFrom (schema : Schema) (flat : FlatComponent) (number : Nat)
    (component : Component CompiledType) : Prop :=
  ∃ inner, component.IsMadeFrom schema flat inner ∧ component.type.IsContextTag number inner

/-- Whether a component is one of a flattened declaration, with an automatic tag or without one. -/
structure Component.ComesFrom (schema : Schema) (flat : FlatComponent)
    (component : Component CompiledType) : Prop where
  declared : component.declared = flat.type
  made : ∃ inner, component.IsMadeFrom schema flat inner ∧
    (component.type = inner ∨ ∃ number, component.type.IsContextTag number inner)

namespace Schema

/-- Whether a tag is written on a component that the collection itself declares. -/
def WritesTag (schema : Schema) (collection : CollectionDeclaration) : Prop :=
  ∃ version written, (version, .components written) ∈ collection.items ∧
    ∃ component ∈ written, ∃ handle type, component.type = .handle handle ∧
      schema.compiled handle = .ok type ∧ type.isAnonymousTag = true

/-- Whether the components of a collection get automatic tags. -/
def TagsAutomatically (schema : Schema) (collection : CollectionDeclaration) : Prop :=
  collection.automaticTags = true ∧ collection.kind.isList = false ∧ ¬schema.WritesTag collection

/-- Whether components are those that a collection declares, with their automatic tags. -/
def LaysOut (schema : Schema) (collection : CollectionDeclaration)
    (components : List (Component CompiledType)) : Prop :=
  collection.versionFault? = none ∧ ∃ flat, schema.Flattens collection.items flat ∧
    List.Forall₂ (fun pair component => component.IsTaggedFrom schema pair.1 pair.2)
      (flat.zip (automaticNumbers 0 (flat.countP (·.version ≤ 1)) (flat.map FlatComponent.version)))
      components

/-- Whether components are those that a collection declares, in that order. -/
structure Arranges (schema : Schema) (collection : CollectionDeclaration)
    (components : List (Component CompiledType)) : Prop where
  versions : collection.versionFault? = none
  flattened : ∃ flat, schema.Flattens collection.items flat ∧
    List.Forall₂ (fun flat component => component.ComesFrom schema flat) flat components
  bases : ∀ component ∈ components, component.type.HasBase

variable {before after : Schema} (h : before.Retains after)

include h

theorem Retains.flattens_item {version : Nat} {item : ComponentItem} {part : List FlatComponent}
    (hflattens : item.Flattens before version part) : item.Flattens after version part := by
  cases hflattens with
  | components written => exact .components written
  | componentsOf hresolve hcompiled hlayout =>
      exact .componentsOf (h.resolve hresolve) (h.compiled hcompiled) hlayout

theorem Retains.flattens {items : List (Nat × ComponentItem)} {flat : List FlatComponent}
    (hflattens : before.Flattens items flat) : after.Flattens items flat := by
  induction hflattens with
  | nil => exact .nil
  | cons hitem _ ih => exact .cons (h.flattens_item hitem) ih

theorem Retains.includes {kind : CollectionKind} {reference : TypeRef}
    (hincludes : before.Includes kind reference) : after.Includes kind reference := by
  obtain ⟨hlegal, target, type, base, layout, hresolve, hcompiled, hrest⟩ := hincludes
  exact ⟨hlegal, target, type, base, layout, h.resolve hresolve, h.compiled hcompiled, hrest⟩

theorem Retains.offersBase {reference : TypeRef} (hoffers : before.OffersBase reference) :
    after.OffersBase reference := by
  obtain ⟨target, type, hresolve, hcompiled, hbase⟩ := hoffers
  exact ⟨target, type, h.resolve hresolve, h.compiled hcompiled, hbase⟩

theorem Retains.rel_hasCanonical {type : CompiledType} {value? canonical? : Option Value}
    (hdefault : Option.Rel (type.HasCanonical before) value? canonical?) :
    Option.Rel (type.HasCanonical after) value? canonical? := by
  cases hdefault with
  | none => exact .none
  | some hcanonical =>
      obtain ⟨values, scope, form, hwithin, hform⟩ := hcanonical
      exact .some ⟨values, scope, form, fun hvalue => h.values (hwithin hvalue), hform⟩

theorem Retains.isMadeFrom {flat : FlatComponent} {inner : CompiledType}
    {component : Component CompiledType} (hmade : component.IsMadeFrom before flat inner) :
    component.IsMadeFrom after flat inner := by
  exact ⟨hmade.name, hmade.version, hmade.optional, h.resolve hmade.resolve,
    h.compiled hmade.compiled, h.rel_hasCanonical hmade.default?⟩

theorem Retains.arranges {collection : CollectionDeclaration}
    {components : List (Component CompiledType)}
    (harranges : before.Arranges collection components) : after.Arranges collection components := by
  obtain ⟨hversions, ⟨flat, hflat, hcomponents⟩, hbases⟩ := harranges
  refine ⟨hversions, ⟨flat, h.flattens hflat, hcomponents.imp ?_⟩, hbases⟩
  rintro component compiled ⟨hdeclared, inner, hmade, htype⟩
  exact ⟨hdeclared, inner, h.isMadeFrom hmade, htype⟩

theorem Retains.writesTag {collection : CollectionDeclaration}
    (hwrites : before.WritesTag collection) : after.WritesTag collection := by
  obtain ⟨version, written, hitem, component, hmem, handle, type, htype, hcompiled, htag⟩ := hwrites
  exact ⟨version, written, hitem, component, hmem, handle, type, htype, h.compiled hcompiled, htag⟩

theorem Retains.laysOut {collection : CollectionDeclaration}
    {components : List (Component CompiledType)}
    (hlays : before.TagsAutomatically collection → before.LaysOut collection components)
    (hautomatic : after.TagsAutomatically collection) : after.LaysOut collection components := by
  have hbefore : before.TagsAutomatically collection :=
    ⟨hautomatic.1, hautomatic.2.1, fun hwrites => hautomatic.2.2 (h.writesTag hwrites)⟩
  obtain ⟨hversions, flat, hflat, hcomponents⟩ := hlays hbefore
  refine ⟨hversions, flat, h.flattens hflat, hcomponents.imp ?_⟩
  rintro pair component ⟨inner, hmade, htag⟩
  exact ⟨inner, h.isMadeFrom hmade, htag⟩

end Schema

section Uniqueness

variable {schema : Schema}

theorem ComponentItem.Flattens.unique {version : Nat} {item : ComponentItem}
    {part other : List FlatComponent} (h : item.Flattens schema version part)
    (h' : item.Flattens schema version other) : part = other := by
  cases h with
  | components written =>
      cases h'
      rfl
  | componentsOf hresolve hcompiled hlayout =>
      cases h' with
      | componentsOf hresolve' hcompiled' hlayout' =>
          obtain rfl := Except.ok.inj (hresolve.symm.trans hresolve')
          obtain rfl := Except.ok.inj (hcompiled.symm.trans hcompiled')
          rw [hlayout.layout_unique hlayout']

theorem Schema.Flattens.unique {items : List (Nat × ComponentItem)}
    {flat other : List FlatComponent} (h : schema.Flattens items flat)
    (h' : schema.Flattens items other) : flat = other := by
  induction h generalizing other with
  | nil =>
      cases h'
      rfl
  | cons hitem _ ih =>
      cases h' with
      | cons hitem' hitems' => rw [hitem.unique hitem', ih hitems']

theorem Schema.Flattens.exists_append {front back : List (Nat × ComponentItem)}
    {flat : List FlatComponent} (h : schema.Flattens (front ++ back) flat) :
    ∃ first second, flat = first ++ second ∧ schema.Flattens front first ∧
      schema.Flattens back second := by
  induction front generalizing flat with
  | nil => exact ⟨[], flat, rfl, .nil, h⟩
  | cons item front ih =>
      cases h with
      | cons hitem hitems =>
          obtain ⟨first, second, rfl, hfirst, hsecond⟩ := ih hitems
          exact ⟨_, second, (List.append_assoc _ _ _).symm, .cons hitem hfirst, hsecond⟩

end Uniqueness

end Asn1

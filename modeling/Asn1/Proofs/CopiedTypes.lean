import Asn1.Proofs.AutomaticTagging
import Asn1.Proofs.CompilationRuns
import Asn1.Proofs.EarlyAliases
import Asn1.Proofs.ElementaryChanges

/-!
Copies of compiled types. The declaration of a compiled type refers to types that are compiled as
well, so that compiling it once more only looks these up. All that is new are the types that
automatic tagging adds, and these put the same tags on the same types as before.
-/

namespace Asn1

open Results Schema Compile

/-- Whether a component is the other one, up to the handle of the type that has been added for its
automatic tag. -/
def Component.IsCopyOf (copy original : Component CompiledType) : Prop :=
  copy = original ∨ ∃ number inner type, original.type.IsContextTag number inner ∧
    type.IsContextTag number inner ∧ copy = { original with type }

structure Layout.IsCopyOf (copy original : Layout CompiledType) : Prop where
  kind : copy.kind = original.kind
  extensible : copy.extensible = original.extensible
  components : List.Forall₂ Component.IsCopyOf copy.components original.components

/-- Whether a form is the other one, up to the handles of the types that have been added for the
automatic tags of its components. -/
inductive TypeForm.IsCopyOf : TypeForm CompiledType → TypeForm CompiledType → Prop
  | same (form : TypeForm CompiledType) : IsCopyOf form form
  | collection {copy original : Layout CompiledType} (h : copy.IsCopyOf original) :
    IsCopyOf (.collection copy) (.collection original)

/-- Whether a type has the constraints of the other one and a copy of its form. -/
structure CompiledType.IsCopyOf (copy original : CompiledType) : Prop where
  constraints : copy.info.constraints = original.info.constraints
  form : copy.form.IsCopyOf original.form

theorem Layout.IsCopyOf.refl (layout : Layout CompiledType) : layout.IsCopyOf layout := by
  refine ⟨rfl, rfl, ?_⟩
  apply List.forall₂_same.mpr
  intro _ _
  exact .inl rfl

theorem ambiguity?_eq_of_isCopyOf (kind : CollectionKind)
    {copies originals : List (Component CompiledType)}
    (h : List.Forall₂ Component.IsCopyOf copies originals) :
    ambiguity? kind copies = ambiguity? kind originals := by
  have hsame : copies.map (Component.map fun _ => ()) =
      originals.map (Component.map fun _ => ()) := by
    refine (map_eq_map_of_forall₂ h ?_).symm
    rintro copy - original - (rfl | ⟨_, _, _, -, -, rfl⟩)
    · rfl
    · rfl
  rw [← ambiguity?_map (fun _ => ()) kind copies, hsame, ambiguity?_map]

section Tags

variable {start other : Schema} {components tagged copies : List (Component CompiledType)}

/-- A component before its tags have been found. -/
def Component.withoutTags (component : Component CompiledType) : Component CompiledType :=
  { component with tags := [] }

theorem Component.IsTagged.isCopyOf {number : Nat} {component tagged copy : Component CompiledType}
    (h : component.IsTagged start number tagged)
    (hcopy : component.withoutTags.IsTagged other number copy) :
    copy.withFirstTags.IsCopyOf tagged.withFirstTags := by
  obtain ⟨type, htag, -, rfl⟩ := h
  obtain ⟨type', htag', -, rfl⟩ := hcopy
  refine .inr ⟨number, component.type, type', htag, htag', ?_⟩
  obtain ⟨handle, rfl⟩ := htag
  obtain ⟨handle', rfl⟩ := htag'
  simp only [withFirstTags, withoutTags, CompiledType.firstTags_tagged]

theorem AreTagged.forall₂_isCopyOf (h : AreTagged start components tagged)
    (hcopies : AreTagged other (components.map Component.withoutTags) copies) :
    List.Forall₂ Component.IsCopyOf (copies.map Component.withFirstTags)
      (tagged.map Component.withFirstTags) := by
  rw [AreTagged, List.filter_map, List.length_map, List.map_map, List.zip_map_left,
    List.forall₂_map_left_iff] at hcopies
  rw [List.forall₂_map_left_iff, List.forall₂_map_right_iff]
  let numbers := automaticNumbers 0 (components.filter (!·.isAddition)).length
    (components.map Component.version)
  change List.Forall₂ _ (components.zip numbers) copies at hcopies
  change List.Forall₂ _ (components.zip numbers) tagged at h
  generalize components.zip numbers = pairs at h hcopies
  induction h generalizing copies with
  | nil =>
      cases hcopies
      exact .nil
  | cons htagged _ ih =>
      cases hcopies with
      | cons hcopy hrest => exact .cons (htagged.isCopyOf hcopy) (ih hrest)

end Tags

namespace Schema

/-- Whether a schema just has more types than another one. -/
structure IsWithin (before after : Schema) : Prop where
  node?_eq : ∀ {handle node}, before.node? handle = some node → after.node? handle = some node
  values_eq : after.values = before.values

variable {before after : Schema}

theorem IsWithin.refl (schema : Schema) : schema.IsWithin schema :=
  ⟨id, rfl⟩

theorem IsWithin.push (h : before.IsWithin after) (node : SchemaNode) :
    before.IsWithin (after.push node).2 := by
  refine ⟨fun hnode => ?_, h.values_eq⟩
  exact node?_push_of_node? (h.node?_eq hnode) node

end Schema

/-- The default is found again, even if more values have been defined in the meantime, unless a
constraint looks at the schema. -/
theorem outcome_compileDefault? {schema : Schema} (h : schema.Consistent) {type : CompiledType}
    (hhas : schema.Has type) (hoverlooks : type.OverlooksSchema) (name : String)
    {value? canonical? : Option Value}
    (hdefault : Option.Rel (type.HasCanonical schema) value? canonical?) :
    (value?.mapM (compileDefault type name)).outcome schema = (.ok canonical?, schema) := by
  cases hdefault with
  | none => rfl
  | @some value canonical hcanonical =>
      obtain ⟨values, view, form, hwithin, hform, rfl⟩ := hcanonical
      have hlater : type.canonicalize schema.values (.top schema.view) value = .ok form :=
        CompiledType.canonicalize_of_isWithin (h.isRegular hhas) hwithin
          (hoverlooks view schema.view).stillPasses .top hform
      change (compileDefault type name value >>= fun found => pure (some found)).outcome schema = _
      rw [outcome_bind, outcome_compileDefault_of_canonicalize hlater]
      rfl

theorem Assembly.overlooksSchema {start schema : Schema} {collection : CollectionDeclaration}
    {flat : List FlatComponent} {components tagged : List (Component CompiledType)}
    (h : Assembly start schema collection flat components tagged)
    (htypes : ∀ component ∈ tagged, component.type.OverlooksSchema) :
    ∀ component ∈ components, component.type.OverlooksSchema := by
  cases hadds : collection.addsTags flat components with
  | false => rwa [← h.areSame hadds]
  | true =>
      intro component hmem
      rw [← map_fst_zip_automaticNumbers 0 (components.filter (!·.isAddition)).length
        components] at hmem
      obtain ⟨pair, hpair, rfl⟩ := List.mem_map.mp hmem
      obtain ⟨_, hcomponent, _, ⟨handle, rfl⟩, -, rfl⟩ :=
        forall₂_exists_of_mem (h.areTagged hadds).1.flip hpair
      exact (htypes _ hcomponent).of_mk _ TypeForm.inner_mem_types

/-- What becomes of the components once they have been compiled does not depend on the schema, apart
from the handles of the types that are added. -/
theorem exists_tagged_copies {start schema : Schema} (hconsistent : schema.Consistent)
    {collection : CollectionDeclaration} {flat : List FlatComponent}
    {components tagged : List (Component CompiledType)}
    (h : Assembly start schema collection flat components tagged)
    (hadds : collection.addsTags flat components = true) :
    ∃ copies after, (tagAutomatically (components.map Component.withoutTags)).outcome schema =
        (.ok copies, after) ∧ schema.IsWithin after ∧ after.Consistent ∧
      (∀ component ∈ copies, after.Has component.type) ∧
      (∀ component ∈ copies, component.type.HasBase) ∧
      List.Forall₂ Component.IsCopyOf (copies.map Component.withFirstTags)
        (tagged.map Component.withFirstTags) := by
  obtain ⟨htagged, hbases⟩ := h.areTagged hadds
  have hhas : ∀ component ∈ components.map Component.withoutTags, schema.Has component.type := by
    intro component hmem
    obtain ⟨source, hsource, rfl⟩ := List.mem_map.mp hmem
    obtain ⟨_, -, hcompiled⟩ := forall₂_exists_of_mem h.compiled hsource
    exact hcompiled.made.compiled
  have hbases' : ∀ component ∈ components.map Component.withoutTags, component.type.HasBase := by
    intro component hmem
    obtain ⟨source, hsource, rfl⟩ := List.mem_map.mp hmem
    exact hbases source hsource
  have hindexes : ((components.map Component.withoutTags).map Component.index).Nodup := by
    rw [List.map_map]
    exact nodup_index_of_places h.places
  obtain ⟨-, hafter, hresult⟩ := keeps_tagAutomatically schema _ hindexes schema hconsistent
    ⟨hhas, .refl schema⟩
  have hruns : Runs schema.IsWithin (fun after =>
      (∀ component ∈ components.map Component.withoutTags, after.Has component.type) ∧
        schema.Extends after) True (tagAutomatically (components.map Component.withoutTags)) :=
    runs_tagAutomatically (fun _ node hwithin _ => hwithin.push node) fun _ => hbases'
  obtain ⟨hwithin, hsucceeds⟩ := hruns schema hconsistent (.refl schema) ⟨hhas, .refl schema⟩
  obtain ⟨copies, hcopies⟩ := hsucceeds trivial
  obtain ⟨htypes, hcopied, -⟩ := hresult copies hcopies
  exact ⟨copies, _, Prod.ext hcopies rfl, hwithin, hafter, htypes, hcopied.hasBase,
    htagged.forall₂_isCopyOf hcopied⟩

section Looking

variable {compileType : TypeCompiler} {schema : Schema} {start : Schema}
  {collection : CollectionDeclaration} {flat : List FlatComponent}
  {components tagged : List (Component CompiledType)} {kind : CollectionKind}
  (hconsistent : schema.Consistent) (hdone : ∀ {type}, schema.Has type →
    (compileType type.handle).outcome schema = (.ok type, schema))

include hconsistent hdone

theorem outcome_flatten {items : List (Nat × ComponentItem)}
    (hflat : FlattensTo schema kind items flat) :
    (flatten compileType kind items).outcome schema = (.ok flat, schema) := by
  obtain ⟨hflattens, hincludes⟩ := hflat
  induction hflattens with
  | nil => rfl
  | @cons version item items part flat hitem _ ih =>
      have hrest := ih fun version reference hmem =>
        hincludes version reference (List.mem_cons_of_mem _ hmem)
      cases hitem with
      | components written =>
          rw [flatten, outcome_bind, hrest]
          rfl
      | componentsOf hresolve hcompiled hlayout =>
          obtain ⟨hlegal, _, _, base, layout, hresolve', hcompiled', hbase, hfound, hkind⟩ :=
            hincludes version _ List.mem_cons_self
          obtain rfl := Except.ok.inj (hresolve.symm.trans hresolve')
          obtain rfl := Except.ok.inj (hcompiled.symm.trans hcompiled')
          have hhas := hconsistent.compiled_handle hcompiled
          obtain ⟨info, form⟩ := base
          obtain rfl : form = .collection layout := layout?_eq_some_iff.mp hfound
          have hsame := hlayout.layout_unique (CompiledType.standsFor_of_aliasBase? hbase).1
          have hincluded : schema.IncludesAs kind version _ _ :=
            ⟨hlegal, _, _, layout, (hconsistent _ _ hcompiled).handle_eq.symm ▸ hresolve, hhas,
              hbase, hfound, hkind, rfl⟩
          have hpart := outcome_rootComponentsOf_of_includesAs hconsistent hdone hincluded
          rw [flatten, outcome_bind, hpart, hsame]
          simp only
          rw [outcome_bind, hrest]
          rfl

theorem outcome_compileComponent {source : FlatComponent} {component : Component CompiledType}
    (h : component.IsCompiledFrom schema source) (hoverlooks : component.type.OverlooksSchema) :
    (compileComponent compileType component.index source).outcome schema =
      (.ok component.withoutTags, schema) := by
  obtain ⟨hmade, hdeclared, hwritten, hnot⟩ := h
  have hdefault := outcome_compileDefault? hconsistent hmade.compiled hoverlooks source.name
    hmade.default?
  rw [compileComponent, outcome_bind, outcome_ask, hmade.resolve]
  simp only
  rw [outcome_bind, hdone hmade.compiled]
  simp only
  rw [outcome_bind, hdefault]
  rw [Component.withoutTags, hmade.name, hmade.version, hmade.optional, hdeclared]
  cases htype : source.type with
  | handle handle =>
      rw [hwritten handle htype]
      rfl
  | name name =>
      rw [hnot name htype]
      rfl

theorem outcome_compileComponents {index : Nat}
    (h : List.Forall₂ (fun flat component => component.IsCompiledFrom schema flat) flat components)
    (hplaces : components.map Component.place = FlatComponent.places index flat)
    (hoverlooks : ∀ component ∈ components, component.type.OverlooksSchema) :
    (compileComponents compileType index flat).outcome schema =
      (.ok (components.map Component.withoutTags), schema) := by
  induction h generalizing index with
  | nil => rfl
  | cons hfirst _ ih =>
      rw [List.map_cons, FlatComponent.places, List.cons.injEq] at hplaces
      obtain rfl := (Prod.mk.inj hplaces.1).1
      obtain ⟨hoverlook, hrest⟩ := List.forall_mem_cons.mp hoverlooks
      rw [compileComponents, outcome_bind,
        outcome_compileComponent hconsistent hdone hfirst hoverlook]
      simp only
      rw [outcome_bind, ih hplaces.2 hrest]
      rfl

theorem outcome_declaredComponents
    (h : Assembly start schema collection flat components tagged)
    (hoverlooks : ∀ component ∈ tagged, component.type.OverlooksSchema) :
    (declaredComponents compileType collection).outcome schema =
      (.ok (flat, components.map Component.withoutTags), schema) := by
  have hrefuse : (refuse none).outcome schema = (.ok (), schema) := rfl
  simp only [declaredComponents, outcome_bind, h.versions, h.names, hrefuse,
    outcome_flatten hconsistent hdone h.flattens,
    outcome_compileComponents hconsistent hdone h.compiled h.places
      (h.overlooksSchema hoverlooks)]
  rfl

theorem exists_copied_layout {layout : Layout CompiledType}
    (h : HasLayout start schema collection layout)
    (hoverlooks : ∀ component ∈ layout.components, component.type.OverlooksSchema) :
    ∃ copy after, (compileCollection compileType collection).outcome schema = (.ok copy, after) ∧
      schema.IsWithin after ∧ copy.IsCopyOf layout := by
  obtain ⟨flat, components, tagged, hassembly, hbases, hclash, rfl⟩ := h
  have hdeclared := outcome_declaredComponents hconsistent hdone hassembly fun component hmem =>
    hoverlooks component.withFirstTags (List.mem_map_of_mem hmem)
  have hsame : collection.addsTags flat (components.map Component.withoutTags) =
      collection.addsTags flat components := by
    rw [CollectionDeclaration.addsTags, List.zip_map_right, List.any_map]
    rfl
  rw [compileCollection_eq, outcome_bind, hdeclared]
  simp only [hsame]
  cases hadds : collection.addsTags flat components with
  | false =>
      obtain rfl := hassembly.areSame hadds
      have hfound : (tagged.map Component.withoutTags).map Component.withFirstTags =
          tagged.map Component.withFirstTags := by
        rw [List.map_map]
        rfl
      have hcomplete : (completeLayout collection (tagged.map Component.withoutTags)).outcome
          schema = _ := outcome_completeLayout hconsistent
        (by simpa [Component.withoutTags] using hassembly.types)
          (by simpa [Component.withoutTags] using hbases) (by rw [hfound]; exact hclash)
      exact ⟨_, schema, hfound ▸ hcomplete, .refl schema, .refl _⟩
  | true =>
      obtain ⟨copies, after, htags, hwithin, hafter, htypes, hcopied, hcopies⟩ :=
        exists_tagged_copies hconsistent hassembly hadds
      have hcomplete : (completeLayout collection copies).outcome after = _ :=
        outcome_completeLayout hafter htypes hcopied
          ((ambiguity?_eq_of_isCopyOf _ hcopies).trans hclash)
      simp only [if_true]
      rw [outcome_bind, htags]
      exact ⟨_, after, hcomplete, hwithin, rfl, rfl, hcopies⟩

/-- A declaration that has been compiled is compiled again, and its form is a copy. -/
theorem exists_copied_form {declared definition : Definition} {form : TypeForm CompiledType}
    (h : Elaborates start schema declared definition form)
    (hoverlooks : ∀ inner ∈ form.types, inner.OverlooksSchema) :
    ∃ copy after, (compileDefinition compileType declared).outcome schema =
        (.ok (definition, copy), after) ∧ schema.IsWithin after ∧ copy.IsCopyOf form := by
  cases h with
  | builtin builtin => exact ⟨_, schema, rfl, .refl schema, .same _⟩
  | @«alias» reference type hresolve hhas =>
      refine ⟨_, schema, ?_, .refl schema, .same _⟩
      simp only [compileDefinition, outcome_bind, outcome_ask, hresolve, hdone hhas]
      rfl
  | @explicit tag reference type hresolve hhas =>
      refine ⟨_, schema, ?_, .refl schema, .same _⟩
      simp only [compileDefinition, outcome_bind, outcome_ask, hresolve, hdone hhas]
      rfl
  | @implicit tag reference type hresolve hhas hbase =>
      refine ⟨_, schema, ?_, .refl schema, .same _⟩
      simp only [compileDefinition, outcome_bind, outcome_ask, hresolve, hdone hhas,
        hconsistent.isUntaggedChoice_eq_ok hhas hbase]
      rfl
  | @collection collection layout hlayout =>
      obtain ⟨copy, after, hcompile, hwithin, hcopy⟩ :=
        exists_copied_layout hconsistent hdone hlayout fun _ hmem =>
          hoverlooks _ (TypeForm.type_mem_types hmem)
      refine ⟨.collection copy, after, ?_, hwithin, .collection hcopy⟩
      rw [compileDefinition, outcome_bind, hcompile]
      rfl

end Looking

namespace Schema

variable {schema : Schema} {handle : Handle} {node : SchemaNode} {type : CompiledType}

theorem outcome_compile_of_ok {after : Schema} {handle : Handle}
    (h : (compileWithin (schema.nodes.size + 1) handle).outcome schema = (.ok type, after)) :
    (Schema.compile handle).outcome schema = (.ok (), after) := by
  have hget : (get : Compile Schema).outcome schema = (.ok schema, schema) := rfl
  rw [Schema.compile, outcome_bind, hget]
  simp only
  rw [discard_eq_bind, outcome_bind, h]
  rfl

/-- Compiling a copy of a compiled type succeeds and changes none of the types that are there. What
it gives is a copy of what has been compiled. -/
theorem Reachable.outcome_compile_copy (h : schema.Reachable)
    (hnode : schema.node? handle = some node) (hstatus : node.status = .compiled type)
    (hoverlooks : ∀ inner ∈ type.form.types, inner.OverlooksSchema) :
    ∃ form after, form.IsCopyOf type.form ∧ schema.IsWithin after ∧
      (Schema.compile (schema.copy node).1).outcome (schema.copy node).2 = (.ok (), after) ∧
      after.compiled (schema.copy node).1 =
        .ok ⟨⟨(schema.copy node).1, none, node.declaration.constraints⟩, form⟩ := by
  let declared : SchemaNode := ⟨none, node.declaration, .declared⟩
  let copy : Handle := ⟨schema.nodes.size⟩
  let added := (schema.push declared).2
  let marked := added.withNode copy { declared with status := .validating }
  have hcopy : added.node? copy = some declared := (node?_push ..).trans (if_pos rfl)
  have hmark := extends_mark hcopy rfl
  have hmarked : marked.Consistent := (h.copy hnode).consistent.mark hcopy rfl
  have hne {other : Handle} {found : SchemaNode} (hfound : schema.node? other = some found) :
      other ≠ copy := by
    rintro rfl
    exact Nat.lt_irrefl _ (index_lt_of_node? hfound)
  have hkept {after : Schema} (hwithin : marked.IsWithin after) (settled : SchemaNode) :
      schema.IsWithin (after.withNode copy settled) := by
    have hold := hwithin.node?_eq (node?_withNode_self hcopy _)
    refine ⟨fun hfound => ?_, hwithin.values_eq⟩
    rw [node?_withNode hold, if_neg (hne hfound)]
    refine hwithin.node?_eq ?_
    rw [node?_withNode hcopy, if_neg (hne hfound), node?_push_of_node? hfound]
  obtain ⟨start, definition, hdefinition, helaborates⟩ :=
    h.isFaithful handle type (compiled_eq_ok_iff.mpr ⟨node, hnode, hstatus⟩)
  obtain ⟨_, hfound, rfl⟩ := definition?_eq_some_iff.mp hdefinition
  obtain rfl := Option.some.inj (hnode.symm.trans hfound)
  have hextends := (extends_push schema declared).trans hmark
  obtain ⟨form, after, hcompile, hwithin, hform⟩ := exists_copied_form hmarked
    (fun hhas => outcome_compileWithin_of_has schema.nodes.size hhas)
      (persists_elaborates _ _ _ _ _ _ hextends helaborates) hoverlooks
  let found : CompiledType := ⟨⟨copy, none, node.declaration.constraints⟩, form⟩
  have hsize : added.nodes.size = schema.nodes.size + 1 := Array.size_push _
  have hdefinition : (compileDefinition (compileWithin added.nodes.size)
      declared.declaration.definition).outcome
        (added.withNode copy { declared with status := .validating }) =
      (.ok (node.declaration.definition, form), after) := by
    rw [hsize]
    exact hcompile
  have houtcome : (compileWithin (added.nodes.size + 1) copy).outcome added =
      (.ok found, after.withNode copy ⟨none, node.declaration, .compiled found⟩) := by
    rw [outcome_compileWithin_succ, hcopy]
    change (compileNode (compileWithin added.nodes.size) copy declared).outcome added = _
    rw [outcome_compileNode, hdefinition]
  have hold := hwithin.node?_eq (node?_withNode_self hcopy _)
  exact ⟨form, _, hform, hkept hwithin _, outcome_compile_of_ok houtcome,
    compiled_eq_ok_iff.mpr ⟨_, node?_withNode_self hold _, rfl⟩⟩

end Schema

end Asn1

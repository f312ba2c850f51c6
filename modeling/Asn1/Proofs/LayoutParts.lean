import Asn1.Proofs.CompilationSteps
import Asn1.Proofs.TagMatching

namespace Asn1

open Results Schema

/-- Whether a part of a layout is what an item of a declaration comes to. -/
def Schema.Fills (schema : Schema) (version : Nat) (item : ComponentItem)
    (part : List (Component CompiledType)) : Prop :=
  ∃ flat, item.Flattens schema version flat ∧
    List.Forall₂ (fun flat component => component.ComesFrom schema flat) flat part

/-- The parts of a layout, one for each item of the root, for each extension addition, and for each
component after these. -/
structure Layout.ConsistsOf (schema : Schema) (collection : CollectionDeclaration)
    (layout : Layout CompiledType)
    (primary additions trailing : List (List (Component CompiledType))) : Prop where
  flatten : layout.components = primary.flatten ++ additions.flatten ++ trailing.flatten
  ofRoot : List.Forall₂ (schema.Fills 1) (collection.element ++ collection.root) primary
  /-- An addition has its explicit version, if there is one. -/
  ofAdditions : List.Forall₂ (fun addition part => ∃ version,
    (∀ found, addition.version? = some found → version = found) ∧
      schema.Fills version addition.item part) collection.additions additions
  ofTrailing : List.Forall₂ (fun component => schema.Fills 1 (.components [component]))
    collection.trailing trailing
  version_eq_one : ∀ part ∈ primary ++ trailing, ∀ component ∈ part, component.version = 1
  one_lt_version : ∀ part ∈ additions, ∀ component ∈ part, 1 < component.version
  sameVersion : ∀ part ∈ additions, ∀ a ∈ part, ∀ b ∈ part, a.version = b.version
  increasing : additions.Pairwise fun part later => ∀ a ∈ part, ∀ b ∈ later, a.version < b.version

/-- What users of the layout that a collection is compiled to can rely on. -/
structure Layout.IsWellFormed (schema : Schema) (collection : CollectionDeclaration)
    (layout : Layout CompiledType) : Prop where
  kind : layout.kind = collection.kind
  extensible : layout.extensible = collection.isExtensible
  versions : collection.HasLegalVersions
  parts : ∃ primary additions trailing,
    layout.ConsistsOf schema collection primary additions trailing
  indexes : ∀ (i : Nat) (component : Component CompiledType),
    layout.components[i]? = some component → component.index = i
  names : (layout.components.map Component.name).Nodup
  extensionRange : ∀ i, layout.inExtensionRange i = true ↔
    ∃ component ∈ layout.components, component.index = i ∧ 1 < component.version
  allOptional : layout.isAllOptional = true ↔
    ∀ component ∈ layout.components, component.isRequired = false
  tags : ∀ component ∈ layout.components,
    schema.firstTags component.type.handle = .ok component.tags
  distinct : layout.kind = .set ∨ layout.kind = .choice → ∀ a ∈ layout.components,
    ∀ b ∈ layout.components, ∀ tag, a.hasTag tag = true → b.hasTag tag = true → a.index = b.index

section Parts

variable {schema : Schema} {part : List (Component CompiledType)}

theorem Schema.Fills.version_eq {version : Nat} {item : ComponentItem}
    (h : schema.Fills version item part) : ∀ component ∈ part, component.version = version := by
  obtain ⟨flat, hflat, hpart⟩ := h
  intro component hmem
  obtain ⟨source, hsource, -, inner, hmade, -⟩ := forall₂_exists_of_mem hpart hmem
  rw [hmade.version, version_of_flattens_item hflat source hsource]

/-- The components of a layout fall into parts, one for each item. -/
theorem Schema.Flattens.exists_parts {items : List (Nat × ComponentItem)}
    {flat : List FlatComponent} (h : schema.Flattens items flat)
    {components : List (Component CompiledType)}
    (hcomponents : List.Forall₂ (fun flat component => component.ComesFrom schema flat) flat
      components) :
    ∃ parts, components = parts.flatten ∧
      List.Forall₂ (fun item part => schema.Fills item.1 item.2 part) items parts := by
  induction h generalizing components with
  | nil =>
      cases hcomponents
      exact ⟨[], rfl, .nil⟩
  | cons hitem _ ih =>
      obtain ⟨part, rest, rfl, hpart, hrest⟩ := forall₂_exists_append hcomponents
      obtain ⟨parts, rfl, hparts⟩ := ih hrest
      exact ⟨part :: parts, rfl, .cons ⟨_, hitem, hpart⟩ hparts⟩

theorem fills_of_numbered {additions : List ExtensionAddition} {next : Nat}
    {parts : List (List (Component CompiledType))}
    (h : List.Forall₂ (fun item part => schema.Fills item.1 item.2 part)
      (ExtensionAddition.numbered next additions) parts) :
    List.Forall₂ (fun addition part => ∃ version,
      (∀ found, addition.version? = some found → version = found) ∧
        schema.Fills version addition.item part) additions parts := by
  induction additions generalizing next parts with
  | nil =>
      cases h
      exact .nil
  | cons addition rest ih =>
      rw [ExtensionAddition.numbered] at h
      cases hversion : addition.version? with
      | none =>
          rw [hversion] at h
          obtain ⟨part, parts, hpart, hparts, rfl⟩ := List.forall₂_cons_left_iff.mp h
          exact .cons ⟨next, by simp [hversion], hpart⟩ (ih hparts)
      | some found =>
          rw [hversion] at h
          obtain ⟨part, parts, hpart, hparts, rfl⟩ := List.forall₂_cons_left_iff.mp h
          exact .cons ⟨found, by simp [hversion], hpart⟩ (ih hparts)

theorem Schema.Arranges.exists_parts {collection : CollectionDeclaration}
    {layout : Layout CompiledType} (h : schema.Arranges collection layout.components) :
    ∃ primary additions trailing,
      layout.ConsistsOf schema collection primary additions trailing := by
  obtain ⟨hversions, ⟨flat, hflat, hcomponents⟩, -⟩ := h
  obtain ⟨hpairwise, habove⟩ := CollectionDeclaration.numbered_of_versionFault? hversions
  obtain ⟨parts, hflatten, hparts⟩ := hflat.exists_parts hcomponents
  rw [CollectionDeclaration.items] at hparts
  obtain ⟨front, trailing, rfl, hfront, htrailing⟩ := forall₂_exists_append hparts
  obtain ⟨primary, additions, rfl, hprimary, hadditions⟩ := forall₂_exists_append hfront
  rw [List.forall₂_map_left_iff] at hprimary htrailing
  have hversion : ∀ part ∈ additions, ∃ version, 1 < version ∧
      ∀ component ∈ part, component.version = version := by
    intro part hmem
    obtain ⟨item, hitem, hfills⟩ := forall₂_exists_of_mem hadditions hmem
    exact ⟨item.1, habove item.1 (List.mem_map_of_mem hitem), hfills.version_eq⟩
  refine ⟨primary, additions, trailing, ?_, hprimary, fills_of_numbered hadditions, htrailing,
    ?_, ?_, ?_, ?_⟩
  · rw [hflatten, List.flatten_append, List.flatten_append]
  · intro part hmem
    rcases List.mem_append.mp hmem with hmem | hmem
    · obtain ⟨_, -, hfills⟩ := forall₂_exists_of_mem hprimary hmem
      exact hfills.version_eq
    · obtain ⟨_, -, hfills⟩ := forall₂_exists_of_mem htrailing hmem
      exact hfills.version_eq
  · intro part hmem component hcomponent
    obtain ⟨version, hlt, heq⟩ := hversion part hmem
    rwa [heq component hcomponent]
  · intro part hmem a ha b hb
    obtain ⟨version, -, heq⟩ := hversion part hmem
    rw [heq a ha, heq b hb]
  · refine pairwise_of_forall₂ hadditions ?_ (List.pairwise_map.mp hpairwise)
    intro item item' part later hfills hfills' hlt a ha b hb
    rwa [hfills.version_eq a ha, hfills'.version_eq b hb]

end Parts

namespace Schema

variable {schema : Schema} {handle : Handle} {info : TypeInfo} {layout : Layout CompiledType}

theorem Consistent.firstTags_component (h : schema.Consistent)
    (hcompiled : schema.compiled handle = .ok ⟨info, .collection layout⟩)
    {component : Component CompiledType} (hmem : component ∈ layout.components) :
    schema.firstTags component.type.handle = .ok component.tags := by
  have hholds := h _ _ hcompiled
  obtain ⟨_, -, harranges, -⟩ := hholds.laidOut layout rfl
  rw [hholds.firstTags layout rfl component hmem]
  exact h.firstTags_eq_ok (hholds.types component.type (List.mem_map_of_mem hmem))
    (harranges.bases component hmem)

theorem Consistent.isWellFormed (h : schema.Consistent)
    (hcompiled : schema.compiled handle = .ok ⟨info, .collection layout⟩) :
    ∃ collection, schema.definition? handle = some (.collection collection) ∧
      layout.IsWellFormed schema collection := by
  have hholds := h _ _ hcompiled
  have hregular := hholds.regular layout rfl
  obtain ⟨collection, hdefinition, harranges, -⟩ := hholds.laidOut layout rfl
  obtain ⟨definition, hfound, hdescribes⟩ := definition?_of_holds hholds
  obtain rfl := Option.some.inj (hdefinition.symm.trans hfound)
  refine ⟨collection, hdefinition, hdescribes.1, hdescribes.2,
    CollectionDeclaration.versionFault?_eq_none_iff.mp harranges.versions, harranges.exists_parts,
    ?_, hregular.names, ?_, ?_, fun component hmem => h.firstTags_component hcompiled hmem, ?_⟩
  · intro i component hget
    exact (hregular.getElem?_eq_some_iff.mp hget).2
  · intro i
    rw [hregular.inExtensionRange_iff]
    simp [Component.isAddition, and_comm]
  · simp [Layout.isAllOptional]
  · intro hkind a ha b hb tag hatag hbtag
    have hlist : layout.kind.isList = false ∧ layout.kind ≠ .sequence := by
      rcases hkind with hkind | hkind <;> simp [hkind, CollectionKind.isList]
    have hfind {component : Component CompiledType} (hmem : component ∈ layout.components)
        (htag : component.hasTag tag = true) : layout.componentByTag? tag = some component :=
      Layout.componentByTag?_eq_some hregular hlist.1 hlist.2 hmem (List.contains_iff_mem.mp htag)
    rw [Option.some.inj ((hfind ha hatag).symm.trans (hfind hb hbtag))]

/-- The layouts of compiled collections are well formed, and a declaration passes the check of its
versions exactly if they are legal. -/
theorem layouts_wellFormed :
    (∀ {schema : Schema} {handle : Handle} {info : TypeInfo} {layout : Layout CompiledType},
      schema.Reachable → schema.compiled handle = .ok ⟨info, .collection layout⟩ →
        ∃ collection, schema.definition? handle = some (.collection collection) ∧
          layout.IsWellFormed schema collection) ∧
    ∀ declaration : CollectionDeclaration,
      declaration.versionFault? = none ↔ declaration.HasLegalVersions := by
  exact ⟨fun hschema hcompiled => hschema.consistent.isWellFormed hcompiled,
    fun _ => CollectionDeclaration.versionFault?_eq_none_iff⟩

/-- The layout of a SEQUENCE with an extension addition is well formed. -/
theorem layouts_wellFormed_defaultedSequence :
    defaultedSequence.Reachable ∧
      defaultedSequence.compiled ⟨2⟩ = .ok ⟨⟨⟨2⟩, none, []⟩, .collection defaultedLayout⟩ ∧
        ∃ collection, defaultedSequence.definition? ⟨2⟩ = some (.collection collection) ∧
          defaultedLayout.IsWellFormed defaultedSequence collection := by
  exact ⟨reachable_extendedSequence _ _ _, compiled_defaultedSequence,
    layouts_wellFormed.1 (reachable_extendedSequence _ _ _) compiled_defaultedSequence⟩

end Schema

end Asn1

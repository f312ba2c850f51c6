import Asn1.Proofs.CollectionSteps

namespace Asn1

open Schema Compile Results

section Collections

variable {compileType : TypeCompiler}

/-- A component with the tags that an encoding of its type can start with. -/
def Component.withFirstTags (component : Component CompiledType) : Component CompiledType :=
  { component with tags := component.type.firstTags }

theorem keeps_findTags (component : Component CompiledType) :
    Keeps (fun schema => schema.Has component.type) (findTags component) fun found _ =>
      found = component.withFirstTags ∧ component.type.HasBase := by
  refine (Keeps.ask _).bind fun tags => (Keeps.pure _).imp (fun _ => id) ?_
  rintro _ schema hconsistent ⟨rfl, htags, hhas⟩
  obtain ⟨hbase, rfl⟩ := (hconsistent.firstTags_eq_ok_iff hhas).mp htags
  exact ⟨rfl, hbase⟩

theorem map_place_index (index : Nat) (flat : List FlatComponent) :
    (FlatComponent.places index flat).map Prod.fst = List.range' index flat.length := by
  induction flat generalizing index with
  | nil => rfl
  | cons component rest ih =>
      rw [FlatComponent.places, List.map_cons, ih, List.length_cons, List.range'_succ]

theorem map_place_name (index : Nat) (flat : List FlatComponent) :
    (FlatComponent.places index flat).map (·.2.1) = flat.map FlatComponent.name := by
  induction flat generalizing index with
  | nil => rfl
  | cons component rest ih => rw [FlatComponent.places, List.map_cons, ih, List.map_cons]

theorem map_place_version (index : Nat) (flat : List FlatComponent) :
    (FlatComponent.places index flat).map (·.2.2) = flat.map FlatComponent.version := by
  induction flat generalizing index with
  | nil => rfl
  | cons component rest ih => rw [FlatComponent.places, List.map_cons, ih, List.map_cons]

/-- A layout is regular if its components stand where the flattened declaration puts them. -/
theorem isRegular_of_places {collection : CollectionDeclaration} {layout : Layout CompiledType}
    {flat : List FlatComponent} (hversions : collection.versionFault? = none)
    (hrepeats : Repeats (collection.items.map Prod.fst) (flat.map FlatComponent.version))
    (hnames : FlatComponent.nameFault? [] flat = none)
    (hplaces : layout.components.map Component.place = FlatComponent.places 0 flat)
    (hextensible : layout.extensible = collection.isExtensible)
    (hunambiguous : ambiguity? layout.kind layout.components = none) : layout.IsRegular := by
  have hmap {α : Type} (f : Nat × String × Nat → α) :
      layout.components.map (f ∘ Component.place) = (FlatComponent.places 0 flat).map f := by
    rw [← hplaces, List.map_map]
  have hlength : layout.components.length = flat.length := by
    have hindexes := congrArg List.length (hmap Prod.fst)
    rw [map_place_index] at hindexes
    simpa using hindexes
  refine ⟨?_, ?_, ?_, ?_, hunambiguous⟩
  · have hindexes := hmap Prod.fst
    rw [map_place_index, ← hlength, ← List.range_eq_range'] at hindexes
    exact hindexes
  · have hnodup := (nodup_names_of_nameFault? hnames).1
    rw [← map_place_name 0, ← hmap] at hnodup
    exact hnodup
  · obtain ⟨root, additions, trailing, hsplit, hone, habove, hpairwise⟩ :=
      CollectionDeclaration.exists_sections hversions hrepeats
    rw [← map_place_version 0, ← hmap, List.map_eq_append_iff] at hsplit
    obtain ⟨front, trailingComponents, hcomponents, hfront, rfl⟩ := hsplit
    obtain ⟨rootComponents, additionComponents, rfl, rfl, rfl⟩ := List.map_eq_append_iff.mp hfront
    refine ⟨rootComponents, additionComponents, trailingComponents, hcomponents, ?_, ?_, ?_⟩
    · intro component hmem
      refine hone component.version ?_
      rw [← List.map_append]
      exact List.mem_map_of_mem (f := (fun place => place.2.2) ∘ Component.place) hmem
    · intro component hmem
      have hlt := habove component.version
        (List.mem_map_of_mem (f := (fun place => place.2.2) ∘ Component.place) hmem)
      simpa [Component.isAddition] using hlt
    · exact List.pairwise_map.mp hpairwise
  · intro component hmem haddition
    have hversion : component.version ∈ flat.map FlatComponent.version := by
      rw [← map_place_version 0, ← hmap]
      exact List.mem_map_of_mem (f := (fun place => place.2.2) ∘ Component.place) hmem
    rw [hextensible]
    refine CollectionDeclaration.isExtensible_of_mem_items (hrepeats.mem_of_mem hversion) ?_
    simpa [Component.isAddition] using haddition

theorem keeps_findAllTags (components : List (Component CompiledType)) :
    Keeps (fun schema => ∀ component ∈ components, schema.Has component.type)
      (components.mapM findTags) fun found schema =>
        found = components.map Component.withFirstTags ∧
          (∀ component ∈ components, component.type.HasBase) ∧
            ∀ component ∈ components, schema.Has component.type := by
  have htags : Keeps _ (components.mapM findTags) _ :=
    Keeps.mapM (persists_forall_has components) fun component hmem =>
      (keeps_findTags component).imp (fun _ hall => hall component hmem) fun _ _ _ => id
  refine htags.imp (fun _ => id) ?_
  rintro found schema - ⟨hfound, hall⟩
  refine ⟨eq_map_of_forall₂ hfound fun _ _ _ hfound => hfound.1, ?_, hall⟩
  intro component hmem
  obtain ⟨_, -, -, hbase⟩ := forall₂_exists_of_mem hfound.flip hmem
  exact hbase

theorem element?_ne_none_of_places {schema : Schema} {collection : CollectionDeclaration}
    {layout : Layout CompiledType} {flat : List FlatComponent}
    (hflat : schema.Flattens collection.items flat)
    (hplaces : layout.components.map Component.place = FlatComponent.places 0 flat)
    (hlist : collection.kind.isList = true) : layout.element? ≠ none := by
  have hwritten : ∃ component, (1, .components [component]) ∈ collection.items := by
    rw [CollectionDeclaration.kind] at hlist
    cases hshape : collection.shape with
    | sequenceOf type => simp [CollectionDeclaration.items, CollectionDeclaration.element, hshape]
    | setOf type => simp [CollectionDeclaration.items, CollectionDeclaration.element, hshape]
    | _ => simp [hshape, CollectionKind.isList] at hlist
  obtain ⟨component, hmem⟩ := hwritten
  have hlength := length_le_of_flattens hflat hmem
  rcases flat with _ | ⟨first, rest⟩
  · simp at hlength
  · intro hnone
    rw [List.head?_eq_none_iff.mp hnone] at hplaces
    cases hplaces

/-- Whether the components of a collection get automatic tags once they have been compiled. They do
not if a tag is written on one that the collection itself declares. -/
def CollectionDeclaration.addsTags (collection : CollectionDeclaration) (flat : List FlatComponent)
    (components : List (Component CompiledType)) : Bool :=
  collection.automaticTags && !collection.kind.isList &&
    !(flat.zip components).any fun (flat, component) => flat.own && component.tagWritten

/-- Flattens the declaration of a collection and compiles the components, which gives both. -/
def declaredComponents (compileType : TypeCompiler) (collection : CollectionDeclaration) :
    Compile (List FlatComponent × List (Component CompiledType)) := do
  refuse collection.versionFault?
  let flat ← flatten compileType collection.kind collection.items
  refuse (FlatComponent.nameFault? [] flat)
  let components ← compileComponents compileType 0 flat
  return (flat, components)

/-- Finds the tags of components and makes sure that they can be told apart. -/
def completeLayout (collection : CollectionDeclaration)
    (components : List (Component CompiledType)) : Compile (Layout CompiledType) := do
  let components ← components.mapM findTags
  refuse <| (ambiguity? collection.kind components).map fun clash =>
    .tagAmbiguity clash.first clash.second clash.tag
  return ⟨collection.kind, collection.isExtensible, components⟩

/-- Automatic tags are what stands between the components of a collection and its layout. -/
theorem compileCollection_eq (compileType : TypeCompiler) (collection : CollectionDeclaration) :
    compileCollection compileType collection = (do
      let (flat, components) ← declaredComponents compileType collection
      let tagged ←
        if collection.addsTags flat components then tagAutomatically components
        else pure components
      completeLayout collection tagged) := by
  simp only [declaredComponents, bind_assoc, pure_bind]
  rfl

/-- What becomes of the declaration of a collection: it is flattened, each component is compiled,
and the components get automatic tags, which are types that `start` does not have. -/
structure Assembly (start schema : Schema) (collection : CollectionDeclaration)
    (flat : List FlatComponent) (components tagged : List (Component CompiledType)) : Prop where
  versions : collection.versionFault? = none
  flattens : FlattensTo schema collection.kind collection.items flat
  names : FlatComponent.nameFault? [] flat = none
  compiled :
    List.Forall₂ (fun flat component => component.IsCompiledFrom schema flat) flat components
  defaults : ∀ component ∈ flat, start.TakesDefault schema component
  places : components.map Component.place = FlatComponent.places 0 flat
  areTagged : collection.addsTags flat components = true →
    AreTagged start components tagged ∧ ∀ component ∈ components, component.type.HasBase
  areSame : collection.addsTags flat components = false → tagged = components
  types : ∀ component ∈ tagged, schema.Has component.type

theorem persists_assembly (start : Schema) (collection : CollectionDeclaration)
    (flat : List FlatComponent) (components tagged : List (Component CompiledType)) :
    Persists (Assembly start · collection flat components tagged) := by
  intro _ _ h hassembly
  exact { hassembly with
    flattens := persists_flattensTo _ _ _ _ _ h hassembly.flattens
    compiled := persists_forall₂_isCompiledFrom _ _ _ _ h hassembly.compiled
    defaults := fun component hmem =>
      persists_takesDefault start component _ _ h (hassembly.defaults component hmem)
    types := fun component hmem => h.compiled (hassembly.types component hmem) }

/-- Whether a collection is compiled to a layout. -/
def HasLayout (start schema : Schema) (collection : CollectionDeclaration)
    (layout : Layout CompiledType) : Prop :=
  ∃ flat components tagged, Assembly start schema collection flat components tagged ∧
    (∀ component ∈ tagged, component.type.HasBase) ∧
    ambiguity? collection.kind (tagged.map Component.withFirstTags) = none ∧
    layout = ⟨collection.kind, collection.isExtensible, tagged.map Component.withFirstTags⟩

theorem persists_hasLayout (start : Schema) (collection : CollectionDeclaration)
    (layout : Layout CompiledType) : Persists (HasLayout start · collection layout) := by
  rintro before after h ⟨flat, components, tagged, hassembly, hrest⟩
  exact ⟨flat, components, tagged, persists_assembly _ _ _ _ _ _ _ h hassembly, hrest⟩

section Assemblies

variable {start schema after : Schema} {collection : CollectionDeclaration}
  {flat : List FlatComponent} {components tagged : List (Component CompiledType)}

theorem Assembly.places_tagged (h : Assembly start schema collection flat components tagged) :
    tagged.map Component.place = FlatComponent.places 0 flat := by
  rw [← h.places]
  cases hadds : collection.addsTags flat components with
  | false => rw [h.areSame hadds]
  | true => exact (h.areTagged hadds).1.map_place

theorem Assembly.offers (h : Assembly start schema collection flat components tagged) :
    ∀ component ∈ flat, schema.Offers component.type := by
  intro component hmem
  obtain ⟨_, -, hcomponent⟩ := forall₂_exists_of_mem h.compiled.flip hmem
  exact hcomponent.offers

theorem Assembly.offers_references (h : Assembly start schema collection flat components tagged) :
    ∀ reference ∈ (Definition.collection collection).references, schema.Offers reference := by
  intro reference hmem
  obtain ⟨item, hitem, hmem⟩ := List.mem_flatMap.mp hmem
  obtain hoffers | ⟨component, hin, rfl⟩ := offers_or_of_flattens h.flattens.1 hitem hmem
  · exact hoffers
  · exact h.offers component hin

theorem forall₂_zip_of_isTagged
    {relation : FlatComponent × Nat → Component CompiledType → Prop}
    (h : ∀ {flat : FlatComponent} {number : Nat} {component tagged : Component CompiledType},
      component.IsCompiledFrom schema flat → component.IsTagged start number tagged →
        relation (flat, number) tagged.withFirstTags)
    {numbers : List Nat}
    (hcompiled : List.Forall₂ (fun flat component => component.IsCompiledFrom schema flat) flat
      components)
    (htagged : List.Forall₂ (fun pair tagged => pair.1.IsTagged start pair.2 tagged)
      (components.zip numbers) tagged) :
    List.Forall₂ relation (flat.zip numbers) (tagged.map Component.withFirstTags) := by
  induction hcompiled generalizing numbers tagged with
  | nil =>
      cases htagged
      exact .nil
  | cons hcomponent _ ih =>
      cases numbers with
      | nil =>
          cases htagged
          exact .nil
      | cons number rest =>
          cases htagged with
          | cons hfirst hrest =>
              exact .cons (h hcomponent hfirst) (ih hrest)

theorem Component.IsCompiledFrom.isTaggedFrom {flat : FlatComponent} {number : Nat}
    {component tagged : Component CompiledType} (h : component.IsCompiledFrom schema flat)
    (htagged : component.IsTagged start number tagged) :
    tagged.withFirstTags.IsTaggedFrom schema flat number := by
  obtain ⟨type, htag, -, rfl⟩ := htagged
  exact ⟨_, { h.made with }, htag⟩

theorem Component.IsCompiledFrom.comesFrom {flat : FlatComponent}
    {component : Component CompiledType} (h : component.IsCompiledFrom schema flat) :
    component.withFirstTags.ComesFrom schema flat :=
  ⟨h.declared, _, { h.made with }, .inl rfl⟩

theorem Component.IsCompiledFrom.comesFrom_of_isTagged {flat : FlatComponent} {number : Nat}
    {component tagged : Component CompiledType} (h : component.IsCompiledFrom schema flat)
    (htagged : component.IsTagged start number tagged) :
    tagged.withFirstTags.ComesFrom schema flat := by
  obtain ⟨inner, hmade, htag⟩ := h.isTaggedFrom htagged
  obtain ⟨type, -, -, rfl⟩ := htagged
  exact ⟨h.declared, inner, hmade, .inr ⟨number, htag⟩⟩

theorem Assembly.forall₂_comesFrom
    (h : Assembly start schema collection flat components tagged) :
    List.Forall₂ (fun flat component => component.ComesFrom schema flat) flat
      (tagged.map Component.withFirstTags) := by
  cases hadds : collection.addsTags flat components with
  | false =>
      rw [h.areSame hadds, List.forall₂_map_right_iff]
      exact h.compiled.imp fun _ _ hcomponent => hcomponent.comesFrom
  | true =>
      have hpairs : List.Forall₂ (fun (pair : FlatComponent × Nat) component =>
          Component.ComesFrom schema pair.1 component) _ _ :=
        forall₂_zip_of_isTagged Component.IsCompiledFrom.comesFrom_of_isTagged h.compiled
          (h.areTagged hadds).1
      rw [← List.forall₂_map_left_iff (f := Prod.fst), List.map_fst_zip] at hpairs
      · exact hpairs
      · rw [length_automaticNumbers, List.length_map, h.compiled.length_eq]

theorem Assembly.exists_declared (h : Assembly start schema collection flat components tagged) :
    ∀ component ∈ tagged.map Component.withFirstTags, ∃ source ∈ flat,
      component.declared = source.type := by
  intro component hmem
  obtain ⟨source, hsource, hcomes⟩ := forall₂_exists_of_mem h.forall₂_comesFrom hmem
  exact ⟨source, hsource, hcomes.declared⟩

theorem hasBase_of_isTagged {number : Nat} {source component : Component CompiledType}
    (h : source.IsTagged start number component) : component.type.HasBase := by
  obtain ⟨type, ⟨handle, rfl⟩, -, rfl⟩ := h
  exact ⟨_, CompiledType.aliasBase?_of_not_alias fun _ hform => nomatch hform⟩

theorem AreTagged.hasBase (h : AreTagged start components tagged) :
    ∀ component ∈ tagged, component.type.HasBase := by
  intro component hmem
  obtain ⟨_, -, htagged⟩ := forall₂_exists_of_mem h hmem
  exact hasBase_of_isTagged htagged

theorem Assembly.hasBase (h : Assembly start schema collection flat components tagged)
    (hbases : ∀ component ∈ tagged, component.type.HasBase) :
    ∀ component ∈ components, component.type.HasBase := by
  cases hadds : collection.addsTags flat components with
  | false => exact h.areSame hadds ▸ hbases
  | true => exact (h.areTagged hadds).2

theorem Assembly.hasBase_tagged (h : Assembly start schema collection flat components tagged)
    (hbases : ∀ component ∈ components, component.type.HasBase) :
    ∀ component ∈ tagged, component.type.HasBase := by
  cases hadds : collection.addsTags flat components with
  | false => exact h.areSame hadds ▸ hbases
  | true => exact (h.areTagged hadds).1.hasBase

theorem Assembly.offersBase_declared
    (h : Assembly start schema collection flat components tagged)
    (hbases : ∀ component ∈ tagged, component.type.HasBase) :
    ∀ component ∈ tagged.map Component.withFirstTags, schema.OffersBase component.declared := by
  intro component hmem
  obtain ⟨source, hsource, heq⟩ := h.exists_declared component hmem
  obtain ⟨compiled, hcompiled, hfrom⟩ := forall₂_exists_of_mem h.compiled.flip hsource
  exact heq ▸ ⟨_, _, hfrom.made.resolve, hfrom.made.compiled, h.hasBase hbases compiled hcompiled⟩

/-- Components that have got their automatic tags are those that the collection declares. -/
theorem Assembly.laysOut (h : Assembly start schema collection flat components tagged)
    (htagged : AreTagged start components tagged) :
    schema.LaysOut collection (tagged.map Component.withFirstTags) := by
  have hsame : components.map Component.version = flat.map FlatComponent.version :=
    map_eq_map_of_forall₂ h.compiled fun _ _ _ _ hcomponent => hcomponent.made.version
  rw [AreTagged, length_filter_root, hsame, List.countP_map] at htagged
  exact ⟨h.versions, flat, h.flattens.1,
    forall₂_zip_of_isTagged Component.IsCompiledFrom.isTaggedFrom h.compiled htagged⟩

theorem Assembly.addsTags (h : Assembly start schema collection flat components tagged)
    (hautomatic : schema.TagsAutomatically collection) :
    collection.addsTags flat components = true := by
  obtain ⟨hrequested, hlist, hwrites⟩ := hautomatic
  by_contra hadds
  refine hwrites (writesTag_of_any h.flattens.1 h.compiled ?_)
  simpa [CollectionDeclaration.addsTags, hrequested, hlist] using hadds

end Assemblies

/-- What holds of the layout that a collection is compiled to. -/
structure IsLaidOut (schema : Schema) (collection : CollectionDeclaration)
    (layout : Layout CompiledType) : Prop where
  kind : layout.kind = collection.kind
  extensible : layout.extensible = collection.isExtensible
  regular : layout.IsRegular
  firstTags : layout.HasFirstTags
  sound : (TypeForm.collection layout).IsSound
  types : ∀ component ∈ layout.components, schema.Has component.type
  declared : ∀ component ∈ layout.components, schema.OffersBase component.declared
  offers : ∀ reference ∈ (Definition.collection collection).references, schema.Offers reference
  arranges : schema.Arranges collection layout.components
  laidOut : schema.TagsAutomatically collection → schema.LaysOut collection layout.components

theorem HasLayout.isLaidOut {start schema : Schema} {collection : CollectionDeclaration}
    {layout : Layout CompiledType} (h : HasLayout start schema collection layout) :
    IsLaidOut schema collection layout := by
  obtain ⟨flat, components, tagged, hassembly, hbases, hclash, rfl⟩ := h
  have hplaces : (tagged.map Component.withFirstTags).map Component.place =
      FlatComponent.places 0 flat := by
    rw [← hassembly.places_tagged, List.map_map]
    rfl
  refine ⟨rfl, rfl, ?_, ?_, element?_ne_none_of_places hassembly.flattens.1 hplaces, ?_,
    hassembly.offersBase_declared hbases, hassembly.offers_references,
    ⟨hassembly.versions, ⟨flat, hassembly.flattens.1, hassembly.forall₂_comesFrom⟩, ?_⟩, ?_⟩
  · exact isRegular_of_places hassembly.versions (repeats_of_flattens hassembly.flattens.1)
      hassembly.names hplaces rfl hclash
  · intro component hmem
    obtain ⟨source, -, rfl⟩ := List.mem_map.mp hmem
    rfl
  · intro component hmem
    obtain ⟨source, hsource, rfl⟩ := List.mem_map.mp hmem
    exact hassembly.types source hsource
  · intro component hmem
    obtain ⟨source, hsource, rfl⟩ := List.mem_map.mp hmem
    exact hbases source hsource
  · intro hautomatic
    exact hassembly.laysOut (hassembly.areTagged (hassembly.addsTags hautomatic)).1

/-- Finding the tags of components and checking that they can be told apart completes a layout. -/
theorem keeps_completeLayout (start : Schema) (collection : CollectionDeclaration)
    (flat : List FlatComponent) (components tagged : List (Component CompiledType)) :
    Keeps (Assembly start · collection flat components tagged) (completeLayout collection tagged)
      fun layout schema => HasLayout start schema collection layout := by
  have htags : Keeps (Assembly start · collection flat components tagged) _ _ :=
    ((keeps_findAllTags tagged).frame (persists_assembly start collection flat components
      tagged)).imp (fun _ hassembly => ⟨hassembly.types, hassembly⟩) fun _ _ _ => id
  refine htags.bind fun found => (Keeps.refuse _).bind fun _ => (Keeps.pure _).imp (fun _ => id) ?_
  rintro _ schema - ⟨rfl, hclash, ⟨rfl, hbases, -⟩, hassembly⟩
  exact ⟨flat, components, tagged, hassembly, hbases, Option.map_eq_none_iff.mp hclash, rfl⟩

theorem nodup_index_of_places {components : List (Component CompiledType)}
    {flat : List FlatComponent} (h : components.map Component.place = FlatComponent.places 0 flat) :
    (components.map Component.index).Nodup := by
  have hmap := congrArg (List.map Prod.fst) h
  rw [List.map_map, map_place_index] at hmap
  exact hmap ▸ List.nodup_range'

/-- What holds once the components of a flattened declaration have been compiled. -/
structure AreCompiled (start schema : Schema) (collection : CollectionDeclaration)
    (flat : List FlatComponent) (components : List (Component CompiledType)) : Prop where
  grows : start.Extends schema
  flattens : FlattensTo schema collection.kind collection.items flat
  compiled :
    List.Forall₂ (fun flat component => component.IsCompiledFrom schema flat) flat components
  defaults : ∀ component ∈ flat, start.TakesDefault schema component
  places : components.map Component.place = FlatComponent.places 0 flat

theorem AreCompiled.types {start schema : Schema} {collection : CollectionDeclaration}
    {flat : List FlatComponent} {components : List (Component CompiledType)}
    (h : AreCompiled start schema collection flat components) :
    ∀ component ∈ components, schema.Has component.type := by
  intro component hmem
  obtain ⟨_, -, hcomponent⟩ := forall₂_exists_of_mem h.compiled hmem
  exact hcomponent.made.compiled

theorem keeps_compileFlat (h : compileType.Compiles) (start : Schema)
    (collection : CollectionDeclaration) (flat : List FlatComponent) :
    Keeps (fun schema => FlattensTo schema collection.kind collection.items flat ∧
        start.Extends schema)
      (compileComponents compileType 0 flat) fun components schema =>
        AreCompiled start schema collection flat components := by
  refine (((keeps_compileComponents h 0 flat).and
    (keeps_compileComponents_takesDefault h start 0 flat)).frame
      ((persists_flattensTo collection.kind collection.items flat).and
        (persists_extends start))).imp (fun _ hbefore => ⟨⟨trivial, hbefore.2⟩, hbefore⟩) ?_
  rintro components schema - ⟨⟨⟨hcompiled, hplaces⟩, hdefaults⟩, hflat, hextends⟩
  exact ⟨hextends, hflat, hcompiled, hdefaults, hplaces⟩

theorem keeps_tagCompiled (start : Schema) {collection : CollectionDeclaration}
    {flat : List FlatComponent} {components : List (Component CompiledType)}
    (hversions : collection.versionFault? = none)
    (hnames : FlatComponent.nameFault? [] flat = none)
    (hadds : collection.addsTags flat components = true) :
    Keeps (AreCompiled start · collection flat components) (tagAutomatically components)
      fun tagged schema => Assembly start schema collection flat components tagged := by
  intro before hconsistent hbefore
  obtain ⟨hleads, hafter, hresult⟩ := keeps_tagAutomatically start components
    (nodup_index_of_places hbefore.places) before hconsistent ⟨hbefore.types, hbefore.grows⟩
  refine ⟨hleads, hafter, fun tagged htagged => ?_⟩
  obtain ⟨htypes, htags, hbases⟩ := hresult tagged htagged
  have hcompiled :=
    persists_forall₂_isCompiledFrom _ _ _ _ hleads.toExtends hbefore.compiled
  have hdefaults (component : FlatComponent) (hmem : component ∈ flat) :=
    persists_takesDefault start component _ _ hleads.toExtends (hbefore.defaults component hmem)
  exact ⟨hversions, persists_flattensTo _ _ _ _ _ hleads.toExtends hbefore.flattens, hnames,
    hcompiled, hdefaults, hbefore.places, fun _ => ⟨htags, hbases⟩,
    fun hnot => absurd (hadds.symm.trans hnot) (by simp), htypes⟩

theorem AreCompiled.assembly {start schema : Schema} {collection : CollectionDeclaration}
    {flat : List FlatComponent} {components : List (Component CompiledType)}
    (h : AreCompiled start schema collection flat components)
    (hversions : collection.versionFault? = none)
    (hnames : FlatComponent.nameFault? [] flat = none)
    (hadds : collection.addsTags flat components = false) :
    Assembly start schema collection flat components components := by
  refine ⟨hversions, h.flattens, hnames, h.compiled, h.defaults, h.places, ?_, ?_, h.types⟩
  · intro hnot
    exact absurd (hadds.symm.trans hnot) (by simp)
  · intro _
    rfl

theorem keeps_flatten_extends (h : compileType.Compiles) (start : Schema)
    (collection : CollectionDeclaration) :
    Keeps start.Extends (flatten compileType collection.kind collection.items) fun flat schema =>
      FlattensTo schema collection.kind collection.items flat ∧ start.Extends schema := by
  have hflatten := (keeps_flatten h collection.kind collection.items).frame (persists_extends start)
  exact hflatten.imp (fun _ hextends => ⟨trivial, hextends⟩) fun _ _ _ => id

theorem keeps_declaredComponents (h : compileType.Compiles) (start : Schema)
    (collection : CollectionDeclaration) :
    Keeps start.Extends (declaredComponents compileType collection) fun declared schema =>
      collection.versionFault? = none ∧ FlatComponent.nameFault? [] declared.1 = none ∧
        AreCompiled start schema collection declared.1 declared.2 := by
  refine (Keeps.refuse _).bind fun _ => Keeps.assume fun hversions => ?_
  refine (keeps_flatten_extends h start collection).bind fun flat => ?_
  refine (Keeps.refuse _).bind fun _ => Keeps.assume fun hnames => ?_
  refine (keeps_compileFlat h start collection flat).bind fun components =>
    (Keeps.pure _).imp (fun _ => id) ?_
  rintro _ schema - ⟨rfl, hcompiled⟩
  exact ⟨hversions, hnames, hcompiled⟩

theorem keeps_compileCollection (h : compileType.Compiles) (start : Schema)
    (collection : CollectionDeclaration) :
    Keeps start.Extends (compileCollection compileType collection) fun layout schema =>
      HasLayout start schema collection layout := by
  rw [compileCollection_eq]
  refine (keeps_declaredComponents h start collection).bind fun (flat, components) =>
    Keeps.assume fun hversions => Keeps.assume fun hnames => ?_
  simp only
  split
  · next hadds =>
    exact (keeps_tagCompiled start hversions hnames hadds).bind fun tagged =>
      keeps_completeLayout start collection flat components tagged
  · next hadds =>
    refine (Keeps.pure components).bind fun found =>
      (keeps_completeLayout start collection flat components found).imp ?_ fun _ _ _ => id
    rintro schema ⟨rfl, hcompiled⟩
    exact hcompiled.assembly hversions hnames (Bool.eq_false_iff.mpr hadds)

end Collections

end Asn1

import Asn1.Proofs.CompilationGrowth

namespace Asn1

open Results Schema

namespace Component

/-- A component with its first tags, where the handles of types from `bound` on are not told apart.
-/
def upTo (bound : Nat) (component : Component CompiledType) : Component CompiledType :=
  component.withFirstTags.map (CompiledType.upTo bound)

/-- A component with an automatic tag, which is a type from `bound` on. -/
def addTag (bound number : Nat) (component : Component CompiledType) : Component CompiledType :=
  let tag := Tag.context (UInt32.ofNat number)
  let method : TagMethod := if component.type.isUntaggedChoice then .explicit else .implicit
  { component with
    type := ⟨⟨⟨bound⟩, none, []⟩, .tagged tag method component.type⟩
    tags := [tag] }

theorem IsTagged.upTo_eq {start : Schema} {number : Nat}
    {component tagged : Component CompiledType} (h : component.IsTagged start number tagged) :
    tagged.upTo start.nodes.size =
      (component.upTo start.nodes.size).addTag start.nodes.size number := by
  obtain ⟨type, ⟨handle, rfl⟩, hnew, rfl⟩ := h
  have hle : start.nodes.size ≤ handle.index := size_le_of_node?_eq_none hnew
  simp only [upTo, addTag, withFirstTags, map, CompiledType.firstTags_tagged, CompiledType.upTo_mk,
    CompiledType.isUntaggedChoice_upTo, TypeInfo.upTo, Handle.upTo, TypeForm.map, min_eq_right hle]

end Component

theorem AreTagged.map_upTo_eq {start : Schema} {components tagged others othersTagged :
    List (Component CompiledType)} (h : AreTagged start components tagged)
    (hother : AreTagged start others othersTagged)
    (heq : components.map (Component.upTo start.nodes.size) =
      others.map (Component.upTo start.nodes.size)) :
    tagged.map (Component.upTo start.nodes.size) =
      othersTagged.map (Component.upTo start.nodes.size) := by
  let bound := start.nodes.size
  let result (components : List (Component CompiledType)) : List (Component CompiledType) :=
    (components.zip (automaticNumbers 0 (components.filter (!·.isAddition)).length
      (components.map Component.version))).map fun pair => pair.1.addTag bound pair.2
  have hresult {components tagged : List (Component CompiledType)}
      (h : AreTagged start components tagged) :
      tagged.map (Component.upTo bound) = result (components.map (Component.upTo bound)) := by
    have hnumbers : automaticNumbers 0
        ((components.map (Component.upTo bound)).filter (!·.isAddition)).length
          ((components.map (Component.upTo bound)).map Component.version) =
        automaticNumbers 0 (components.filter (!·.isAddition)).length
          (components.map Component.version) := by
      rw [List.filter_map, List.length_map, List.map_map]
      rfl
    have htagged : List.Forall₂ (fun (pair : Component CompiledType × Nat) component =>
        component = (pair.1.upTo bound).addTag bound pair.2) _
          (tagged.map (Component.upTo bound)) :=
      List.forall₂_map_right_iff.mpr (List.Forall₂.imp (fun _ _ htag => htag.upTo_eq) h)
    rw [eq_map_of_forall₂ htagged fun _ _ _ heq => heq]
    simp only [result]
    rw [hnumbers, List.zip_map_left, List.map_map]
    rfl
  rw [hresult h, hresult hother, heq]

theorem hasBase_of_map_upTo_eq {bound : Nat} {components others : List (Component CompiledType)}
    (heq : components.map (Component.upTo bound) = others.map (Component.upTo bound))
    (h : ∀ component ∈ components, component.type.HasBase) :
    ∀ other ∈ others, other.type.HasBase := by
  intro other hmem
  have hin : other.upTo bound ∈ components.map (Component.upTo bound) :=
    heq ▸ List.mem_map_of_mem hmem
  obtain ⟨component, hcomponent, hsame⟩ := List.mem_map.mp hin
  exact (h component hcomponent).of_upTo_eq (congrArg Component.type hsame)

theorem ambiguity?_eq_of_map_upTo_eq (kind : CollectionKind) {bound : Nat}
    {components others : List (Component CompiledType)}
    (heq : components.map (Component.upTo bound) = others.map (Component.upTo bound)) :
    ambiguity? kind (components.map Component.withFirstTags) =
      ambiguity? kind (others.map Component.withFirstTags) := by
  have hmap (components : List (Component CompiledType)) :
      ambiguity? kind (components.map (Component.upTo bound)) =
        ambiguity? kind (components.map Component.withFirstTags) := by
    have hsplit : components.map (Component.upTo bound) =
        (components.map Component.withFirstTags).map (Component.map (CompiledType.upTo bound)) := by
      rw [List.map_map]
      rfl
    rw [hsplit, ambiguity?_map]
  rw [← hmap components, heq, hmap]

theorem CollectionDeclaration.addsTags_eq (collection : CollectionDeclaration) {bound : Nat}
    (flat : List FlatComponent) {components others : List (Component CompiledType)}
    (heq : components.map (Component.upTo bound) = others.map (Component.upTo bound)) :
    collection.addsTags flat components = collection.addsTags flat others := by
  have hmap (components : List (Component CompiledType)) :
      collection.addsTags flat (components.map (Component.upTo bound)) =
        collection.addsTags flat components := by
    rw [addsTags, List.zip_map_right, List.any_map]
    rfl
  rw [← hmap components, heq, hmap]

namespace Schema

/-- Whether two schemas have come from the same one, and the types that are compiled in both are the
same up to the handles of the types that have been added. -/
structure Concur (start left right : Schema) : Prop where
  consistent_start : start.Consistent
  consistent : left.Consistent
  consistent_right : right.Consistent
  grows : start.GrowsInto left
  grows_right : start.GrowsInto right
  upTo_eq : ∀ {handle type other}, (start.node? handle).isSome = true →
    left.compiled handle = .ok type → right.compiled handle = .ok other →
      type.upTo start.nodes.size = other.upTo start.nodes.size

variable {start left right : Schema}

namespace Concur

variable (h : Concur start left right)

include h

theorem target_eq {reference : TypeRef} {target other : Handle}
    (hleft : left.resolve reference = .ok target) (hright : right.resolve reference = .ok other) :
    target = other := by
  cases reference with
  | handle handle =>
      rw [(resolve_handle_eq_ok_iff.mp hleft).1, (resolve_handle_eq_ok_iff.mp hright).1]
  | name name =>
      rw [resolve_name_eq_ok_iff, h.grows.lookup_eq] at hleft
      rw [resolve_name_eq_ok_iff, h.grows_right.lookup_eq, hleft] at hright
      exact Option.some.inj hright

theorem upTo_eq_of_resolve {reference : TypeRef} {target target' : Handle}
    {type other : CompiledType} (hknows : start.Knows reference)
    (hleft : left.resolve reference = .ok target) (hcompiled : left.compiled target = .ok type)
    (hright : right.resolve reference = .ok target')
    (hcompiled' : right.compiled target' = .ok other) :
    type.upTo start.nodes.size = other.upTo start.nodes.size := by
  obtain rfl := h.target_eq hleft hright
  have hpresent := isSome_node?_of_resolve ((h.grows.resolve_iff hknows).mp hleft)
  exact h.upTo_eq hpresent hcompiled hcompiled'

theorem flattens_eq {items : List (Nat × ComponentItem)} {flat other : List FlatComponent}
    (hknows : ∀ item ∈ items, ∀ reference ∈ item.2.references, start.Knows reference)
    (hleft : left.Flattens items flat) (hright : right.Flattens items other) : flat = other := by
  induction hleft generalizing other with
  | nil =>
      cases hright
      rfl
  | cons hitem _ ih =>
      obtain ⟨hfirst, hrest⟩ := List.forall_mem_cons.mp hknows
      cases hright with
      | cons hitem' hitems' =>
          rw [ih hrest hitems']
          congr 1
          cases hitem with
          | components written =>
              cases hitem'
              rfl
          | @componentsOf reference _ type info layout hresolve hcompiled hlayout =>
              cases hitem' with
              | @componentsOf _ _ other info' layout' hresolve' hcompiled' hlayout' =>
                  have hsame := h.upTo_eq_of_resolve (hfirst reference (List.mem_singleton_self _))
                    hresolve hcompiled hresolve' hcompiled'
                  have hstands := CompiledType.StandsFor.upTo start.nodes.size hlayout
                  have hstands' := CompiledType.StandsFor.upTo start.nodes.size hlayout'
                  rw [CompiledType.upTo_mk, TypeForm.map, hsame] at hstands
                  rw [CompiledType.upTo_mk, TypeForm.map] at hstands'
                  rw [← FlatComponent.map_ofComponent_layout_map _ layout,
                    hstands.layout_unique hstands', FlatComponent.map_ofComponent_layout_map]

theorem values_eq : left.values = right.values :=
  h.grows.values_eq.trans h.grows_right.values_eq.symm

theorem canonicalize_eq {handle handle' : Handle} {type other : CompiledType}
    (htype : left.compiled handle = .ok type) (hother : right.compiled handle' = .ok other)
    (hsame : type.upTo start.nodes.size = other.upTo start.nodes.size) (values : NamedValues)
    (scope : Scope) (value : Value) :
    type.canonicalize values scope value = other.canonicalize values scope value := by
  exact CompiledType.canonicalize_of_upTo_eq hsame (h.grows.onlyTagsFrom h.consistent htype)
    (h.grows_right.onlyTagsFrom h.consistent_right hother) values scope value

theorem default?_eq {type other : CompiledType} {value? first? second? : Option Value}
    {handle : Handle} (htype : left.compiled handle = .ok type)
    (hother : right.compiled handle = .ok other)
    (hsame : type.upTo start.nodes.size = other.upTo start.nodes.size)
    (hfirst : Option.Rel (type.HasCanonical left) value? first?)
    (hsecond : Option.Rel (other.HasCanonical right) value? second?) : first? = second? := by
  cases hfirst with
  | none =>
      cases hsecond
      rfl
  | some hfirst =>
      cases hsecond with
      | some hsecond =>
          obtain ⟨values, scope, form, hwithin, hform, rfl⟩ := hfirst
          obtain ⟨values', scope', form', hwithin', hform', rfl⟩ := hsecond
          rw [h.canonicalize_eq htype hother hsame] at hform
          rw [h.values_eq] at hwithin
          rw [other.canonicalize_unique (h.consistent_right.isRegular hother) hwithin hwithin' hform
            hform']

/-- What has a canonical form on the way to one of the schemas has one in the other, as far as the
constraints overlook what has been compiled in between. -/
theorem exists_canonicalize {reference : TypeRef} {type other : CompiledType} {earlier : Schema}
    (hknows : start.Knows reference) (hoverlooks : start.OverlooksCompiling start.view)
    (htype : left.resolve reference = .ok type.handle) (hhas : left.Has type)
    (hother : right.resolve reference = .ok other.handle) (hhas' : right.Has other)
    (hstart : start.Extends earlier) (hearlier : earlier.Extends left) {value : Value}
    {form : CanonicalForm}
    (hform : type.canonicalize earlier.values (.top earlier.view) value = .ok form) :
    ∃ form, other.canonicalize right.values (.top right.view) value = .ok form := by
  have hsame := h.upTo_eq_of_resolve hknows htype hhas hother hhas'
  have hbetween : start.view.MayCompileTo earlier.view := by
    refine mayCompileTo_view hstart.retains fun hvalue => ?_
    rw [← h.grows.values_eq]
    exact hearlier.values hvalue
  have hright : start.view.MayCompileTo right.view := by
    refine mayCompileTo_view h.grows_right.retains fun hvalue => ?_
    rwa [← h.grows_right.values_eq]
  have hchecks : type.ChecksAlike earlier.view right.view :=
    (h.grows.keepsConstraints h.consistent).checksAlike h.consistent hoverlooks hhas hbetween hright
  have hlater : type.canonicalize right.values (.top right.view) value = .ok form := by
    refine CompiledType.canonicalize_of_isWithin (h.consistent.isRegular hhas) ?_
      hchecks.stillPasses .top hform
    rw [← h.values_eq]
    exact hearlier.values
  rw [h.canonicalize_eq hhas hhas' hsame] at hlater
  exact ⟨form, hlater⟩

theorem component_eq {flat : FlatComponent} {component other : Component CompiledType}
    (hknows : start.Knows flat.type) (hleft : component.IsCompiledFrom left flat)
    (hright : other.IsCompiledFrom right flat) (hindex : component.index = other.index) :
    component.upTo start.nodes.size = other.upTo start.nodes.size := by
  obtain ⟨hmade, hdeclared, htag, hnot⟩ := hleft
  obtain ⟨hmade', hdeclared', htag', hnot'⟩ := hright
  have hsame := h.upTo_eq_of_resolve hknows hmade.resolve hmade.compiled hmade'.resolve
    hmade'.compiled
  have hhandle := h.target_eq hmade.resolve hmade'.resolve
  have hdefault := h.default?_eq hmade.compiled (hhandle ▸ hmade'.compiled) hsame hmade.default?
    hmade'.default?
  have htags : component.type.firstTags = other.type.firstTags := by
    rw [← CompiledType.firstTags_upTo, hsame, CompiledType.firstTags_upTo]
  have hwritten : component.tagWritten = other.tagWritten := by
    cases htype : flat.type with
    | name name => rw [hnot name htype, hnot' name htype]
    | handle handle =>
        rw [htag handle htype, htag' handle htype, ← CompiledType.isAnonymousTag_upTo, hsame,
          CompiledType.isAnonymousTag_upTo]
  simp only [Component.upTo, Component.withFirstTags, Component.map, hmade.name, hmade'.name,
    hmade.version, hmade'.version, hmade.optional, hmade'.optional, hdeclared, hdeclared', hindex,
    hdefault, htags, hwritten, hsame]

theorem components_eq {flat : List FlatComponent}
    {components others : List (Component CompiledType)} {index : Nat}
    (hknows : ∀ component ∈ flat, start.Knows component.type)
    (hleft :
      List.Forall₂ (fun flat component => component.IsCompiledFrom left flat) flat components)
    (hright : List.Forall₂ (fun flat component => component.IsCompiledFrom right flat) flat others)
    (hplaces : components.map Component.place = FlatComponent.places index flat)
    (hplaces' : others.map Component.place = FlatComponent.places index flat) :
    components.map (Component.upTo start.nodes.size) =
      others.map (Component.upTo start.nodes.size) := by
  induction hleft generalizing others index with
  | nil =>
      cases hright
      rfl
  | cons hfirst _ ih =>
      cases hright with
      | cons hfirst' hrest' =>
          rw [List.map_cons, FlatComponent.places, List.cons.injEq] at hplaces hplaces'
          obtain ⟨hknown, hknows⟩ := List.forall_mem_cons.mp hknows
          have hindex := (Prod.mk.inj (hplaces.1.trans hplaces'.1.symm)).1
          rw [List.map_cons, List.map_cons, h.component_eq hknown hfirst hfirst' hindex,
            ih hknows hrest' hplaces.2 hplaces'.2]

theorem knows_flat {collection : CollectionDeclaration} {flat : List FlatComponent}
    (hknows : ∀ reference ∈ (Definition.collection collection).references, start.Knows reference)
    (hflat : left.Flattens collection.items flat) :
    ∀ component ∈ flat, start.Knows component.type := by
  apply h.grows.knows_flat h.consistent_start h.consistent hflat
  intro item hitem reference hmem
  exact hknows reference (collection.mem_references hitem hmem)

theorem tagged_eq {collection : CollectionDeclaration} {flat flat' : List FlatComponent}
    {components tagged others othersTagged : List (Component CompiledType)}
    (hknows : ∀ reference ∈ (Definition.collection collection).references, start.Knows reference)
    (hleft : Assembly start left collection flat components tagged)
    (hright : Assembly start right collection flat' others othersTagged) :
    tagged.map (Component.upTo start.nodes.size) =
      othersTagged.map (Component.upTo start.nodes.size) := by
  have hitems : ∀ item ∈ collection.items, ∀ reference ∈ item.2.references,
      start.Knows reference := fun item hitem reference hmem =>
    hknows reference (collection.mem_references hitem hmem)
  obtain rfl := h.flattens_eq hitems hleft.flattens.1 hright.flattens.1
  have hcomponents := h.components_eq (h.knows_flat hknows hleft.flattens.1) hleft.compiled
    hright.compiled hleft.places hright.places
  have hadds := collection.addsTags_eq flat hcomponents
  cases hcase : collection.addsTags flat components with
  | false => rw [hleft.areSame hcase, hright.areSame (hadds ▸ hcase), hcomponents]
  | true =>
      exact (hleft.areTagged hcase).1.map_upTo_eq (hright.areTagged (hadds ▸ hcase)).1 hcomponents

theorem layout_eq {collection : CollectionDeclaration} {layout other : Layout CompiledType}
    (hknows : ∀ reference ∈ (Definition.collection collection).references, start.Knows reference)
    (hleft : HasLayout start left collection layout)
    (hright : HasLayout start right collection other) :
    layout.map (CompiledType.upTo start.nodes.size) =
      other.map (CompiledType.upTo start.nodes.size) := by
  obtain ⟨flat, components, tagged, hassembly, -, -, rfl⟩ := hleft
  obtain ⟨flat', others, othersTagged, hassembly', -, -, rfl⟩ := hright
  have htagged := h.tagged_eq hknows hassembly hassembly'
  simp only [Layout.map, List.map_map]
  exact congrArg _ htagged

theorem form_eq {declared definition definition' : Definition}
    {form other : TypeForm CompiledType}
    (hknows : ∀ reference ∈ declared.references, start.Knows reference)
    (hleft : Elaborates start left declared definition form)
    (hright : Elaborates start right declared definition' other) :
    form.map (CompiledType.upTo start.nodes.size) =
      other.map (CompiledType.upTo start.nodes.size) := by
  cases hleft with
  | builtin builtin =>
      cases hright
      rfl
  | «alias» hresolve hhas =>
      cases hright with
      | «alias» hresolve' hhas' =>
          rw [TypeForm.map, TypeForm.map, h.upTo_eq_of_resolve
            (hknows _ (List.mem_singleton_self _)) hresolve hhas hresolve' hhas']
  | explicit hresolve hhas =>
      cases hright with
      | explicit hresolve' hhas' =>
          rw [TypeForm.map, TypeForm.map, h.upTo_eq_of_resolve
            (hknows _ (List.mem_singleton_self _)) hresolve hhas hresolve' hhas']
  | implicit hresolve hhas _ =>
      cases hright with
      | implicit hresolve' hhas' _ =>
          have hsame := h.upTo_eq_of_resolve (hknows _ (List.mem_singleton_self _)) hresolve hhas
            hresolve' hhas'
          rw [TypeForm.map, TypeForm.map, hsame, ← CompiledType.isUntaggedChoice_upTo, hsame,
            CompiledType.isUntaggedChoice_upTo]
  | collection hlayout =>
      cases hright with
      | collection hlayout' =>
          rw [TypeForm.map, TypeForm.map, h.layout_eq hknows hlayout hlayout']

end Concur

end Schema

end Asn1

import Asn1.Proofs.CompilationSteps
import Asn1.Proofs.SchemaViews
import Asn1.Proofs.TypeComparison
import Mathlib.Algebra.Group.Nat.Defs

/-!
Versions of a collection. If a declaration only has further extension additions behind those of
another one, and both get automatic tags, then the components of the earlier version are in the
layout of the later one as they are: with the same tags, types and defaults, and in the same order.
What is new stands together behind the additions of the earlier version.
-/

namespace Asn1

open Results

/-- Whether two components are the same, but for their places in their layouts and those of their
types in the schema. -/
structure Component.IsLike (component other : Component CompiledType) : Prop where
  name : component.name = other.name
  version : component.version = other.version
  optional : component.optional = other.optional
  default? : component.default? = other.default?
  tags : component.tags = other.tags
  form : component.type.form = other.type.form
  constraints : component.type.info.constraints = other.type.info.constraints

theorem Component.IsLike.isAddition_eq {component other : Component CompiledType}
    (h : component.IsLike other) : component.isAddition = other.isAddition := by
  rw [isAddition, isAddition, h.version]

theorem Component.IsLike.isRequired_eq {component other : Component CompiledType}
    (h : component.IsLike other) : component.isRequired = other.isRequired := by
  rw [isRequired, isRequired, h.optional, h.default?]

/-- Whether a layout is that of an earlier version: the other one has `count` more components from
the index `start` on, which are extension additions behind those of the earlier version. -/
structure Layout.IsEarlier (earlier later : Layout CompiledType) (start count : Nat) : Prop where
  regular : earlier.IsRegular
  regular_later : later.IsRegular
  kind : earlier.kind = later.kind
  like : ∀ component ∈ earlier.components, ∃ other ∈ later.components, component.IsLike other ∧
    other.index = if component.index < start then component.index else component.index + count
  isLike_or_new : ∀ other ∈ later.components,
    (∃ component ∈ earlier.components, component.IsLike other) ∨
      other.isAddition = true ∧ start ≤ other.index ∧ other.index < start + count
  additions : ∀ component ∈ earlier.components, component.isAddition = true →
    component.index < start
  context : ∀ other ∈ later.components, ∃ number, other.tags = [.context number]
  distinct : ∀ a ∈ later.components, ∀ b ∈ later.components, ∀ tag ∈ a.tags, tag ∈ b.tags → a = b

section Numbers

variable {versions rest : List Nat}

theorem automaticNumbers_of_root (h : ∀ version ∈ versions, version ≤ 1) (root addition : Nat) :
    automaticNumbers root addition (versions ++ rest) =
      List.range' root versions.length ++
        automaticNumbers (root + versions.length) addition rest := by
  induction versions generalizing root with
  | nil => rfl
  | cons version versions ih =>
      obtain ⟨hversion, hversions⟩ := List.forall_mem_cons.mp h
      rw [List.cons_append, automaticNumbers, if_neg (by omega), ih hversions, List.length_cons,
        List.range'_succ, List.cons_append, Nat.add_assoc, Nat.add_comm 1]

theorem automaticNumbers_of_additions (h : ∀ version ∈ versions, 1 < version)
    (root addition : Nat) :
    automaticNumbers root addition (versions ++ rest) =
      List.range' addition versions.length ++
        automaticNumbers root (addition + versions.length) rest := by
  induction versions generalizing addition with
  | nil => rfl
  | cons version versions ih =>
      obtain ⟨hversion, hversions⟩ := List.forall_mem_cons.mp h
      rw [List.cons_append, automaticNumbers, if_pos hversion, ih hversions, List.length_cons,
        List.range'_succ, List.cons_append, Nat.add_assoc, Nat.add_comm 1]

end Numbers

namespace ExtensionAddition

theorem numbered_append (next : Nat) (additions more : List ExtensionAddition) :
    ∃ next', numbered next (additions ++ more) =
      numbered next additions ++ numbered next' more := by
  induction additions generalizing next with
  | nil => exact ⟨next, rfl⟩
  | cons addition additions ih =>
      rw [List.cons_append, numbered, numbered]
      split
      · obtain ⟨next', hrest⟩ := ih next
        exact ⟨next', by rw [hrest, List.cons_append]⟩
      · obtain ⟨next', hrest⟩ := ih (next + 1)
        exact ⟨next', by rw [hrest, List.cons_append]⟩

end ExtensionAddition

section Correspondence

variable {schema : Schema}

theorem getElem?_insert {α : Type} (front middle back : List α) (i : Nat) :
    (front ++ (middle ++ back))[if i < front.length then i else i + middle.length]? =
      (front ++ back)[i]? := by
  split
  · next hlt => rw [List.getElem?_append_left hlt, List.getElem?_append_left hlt]
  · next hle =>
    rw [List.getElem?_append_right (by omega), List.getElem?_append_right (by omega),
      List.getElem?_append_right (by omega)]
    congr 1
    omega

theorem exists_getElem?_of_insert {α : Type} {front middle back : List α} {i : Nat} {a : α}
    (h : (front ++ (middle ++ back))[i]? = some a) :
    (∃ j : Nat, (front ++ back)[j]? = some a) ∨
      a ∈ middle ∧ front.length ≤ i ∧ i < front.length + middle.length := by
  by_cases hfront : i < front.length
  · rw [List.getElem?_append_left hfront] at h
    exact .inl ⟨i, (List.getElem?_append_left hfront).trans h⟩
  rw [List.getElem?_append_right (Nat.le_of_not_lt hfront)] at h
  by_cases hmiddle : i - front.length < middle.length
  · rw [List.getElem?_append_left hmiddle] at h
    exact .inr ⟨List.mem_of_getElem? h, Nat.le_of_not_lt hfront, by omega⟩
  · have hmem : a ∈ back := by
      rw [List.getElem?_append_right (Nat.le_of_not_lt hmiddle)] at h
      exact List.mem_of_getElem? h
    exact .inl (List.mem_iff_getElem?.mp (List.mem_append_right front hmem))

theorem Component.IsTaggedFrom.tags {flat : FlatComponent} {number : Nat}
    {component : Component CompiledType} (h : component.IsTaggedFrom schema flat number)
    (htags : component.tags = component.type.firstTags) :
    component.tags = [.context (UInt32.ofNat number)] := by
  obtain ⟨inner, -, handle, htype⟩ := h
  rw [htags, htype, CompiledType.firstTags_tagged]

theorem Component.IsTaggedFrom.name {flat : FlatComponent} {number : Nat}
    {component : Component CompiledType} (h : component.IsTaggedFrom schema flat number) :
    component.name = flat.name := by
  obtain ⟨inner, hmade, -⟩ := h
  exact hmade.name

theorem Component.IsTaggedFrom.version {flat : FlatComponent} {number : Nat}
    {component : Component CompiledType} (h : component.IsTaggedFrom schema flat number) :
    component.version = flat.version := by
  obtain ⟨inner, hmade, -⟩ := h
  exact hmade.version

theorem CompiledType.rel_hasCanonical_unique {type : CompiledType} (hregular : type.IsRegular)
    {value? canonical? other? : Option Value}
    (h : Option.Rel (type.HasCanonical schema) value? canonical?)
    (h' : Option.Rel (type.HasCanonical schema) value? other?) : canonical? = other? := by
  cases h with
  | none =>
      cases h'
      rfl
  | some hcanonical =>
      cases h' with
      | some hother => rw [hcanonical.unique hregular hother]

/-- The type of a component, apart from its handle, is settled by where the component comes from. -/
theorem Component.IsTaggedFrom.form_eq {flat : FlatComponent} {number : Nat}
    {component other : Component CompiledType} (h : component.IsTaggedFrom schema flat number)
    (h' : other.IsTaggedFrom schema flat number) : component.type.form = other.type.form := by
  obtain ⟨inner, hmade, handle, htype⟩ := h
  obtain ⟨inner', hmade', handle', htype'⟩ := h'
  have hhandle := Except.ok.inj (hmade.resolve.symm.trans hmade'.resolve)
  obtain rfl : inner = inner' := by
    have hinner := hmade.compiled
    rw [hhandle, hmade'.compiled] at hinner
    exact (Except.ok.inj hinner).symm
  rw [htype, htype']
  rfl

theorem Component.IsTaggedFrom.isLike (hconsistent : schema.Consistent) {flat : FlatComponent}
    {number : Nat} {component other : Component CompiledType}
    (h : component.IsTaggedFrom schema flat number) (h' : other.IsTaggedFrom schema flat number)
    (htags : component.tags = component.type.firstTags)
    (htags' : other.tags = other.type.firstTags) : component.IsLike other := by
  have hsame : component.tags = other.tags := (h.tags htags).trans (h'.tags htags').symm
  have hform := h.form_eq h'
  obtain ⟨inner, hmade, handle, htype⟩ := h
  obtain ⟨inner', hmade', handle', htype'⟩ := h'
  obtain rfl : inner = inner' := by
    rw [htype, htype'] at hform
    exact (TypeForm.tagged.inj hform).2.2
  refine ⟨hmade.name.trans hmade'.name.symm, hmade.version.trans hmade'.version.symm,
    hmade.optional.trans hmade'.optional.symm, ?_, hsame, hform, ?_⟩
  · exact CompiledType.rel_hasCanonical_unique (hconsistent.isRegular hmade.compiled)
      hmade.default? hmade'.default?
  · rw [htype, htype']
    rfl

/-- Components that are tagged by different numbers have no tag in common. -/
theorem Layout.IsRegular.index_eq_of_mem_tags {layout : Layout CompiledType}
    (hregular : layout.IsRegular) (htags : layout.HasFirstTags)
    {pairs : List (FlatComponent × Nat)}
    (htagged : List.Forall₂ (fun pair component => component.IsTaggedFrom schema pair.1 pair.2)
      pairs layout.components)
    (hnodup : (pairs.map Prod.snd).Nodup) (hbound : ∀ pair ∈ pairs, pair.2 < 2 ^ 32)
    {a b : Component CompiledType} (ha : a ∈ layout.components) (hb : b ∈ layout.components)
    {tag : Tag} (htag : tag ∈ a.tags) (htag' : tag ∈ b.tags) : a.index = b.index := by
  obtain ⟨pair, hindex, hfrom⟩ := forall₂_exists_of_getElem? htagged (hregular.getElem?_index ha)
  obtain ⟨pair', hindex', hfrom'⟩ := forall₂_exists_of_getElem? htagged (hregular.getElem?_index hb)
  rw [hfrom.tags (htags _ ha), List.mem_singleton] at htag
  rw [hfrom'.tags (htags _ hb), List.mem_singleton] at htag'
  have hnumber : pair.2 = pair'.2 := by
    have hsame := congrArg UInt32.toNat (Tag.mk.inj (htag.symm.trans htag')).2
    rwa [UInt32.toNat_ofNat_of_lt' (hbound pair (List.mem_of_getElem? hindex)),
      UInt32.toNat_ofNat_of_lt' (hbound pair' (List.mem_of_getElem? hindex'))] at hsame
  have hat : (pairs.map Prod.snd)[a.index]? = (pairs.map Prod.snd)[b.index]? := by
    rw [List.getElem?_map, List.getElem?_map, hindex, hindex', Option.map_some, Option.map_some,
      hnumber]
  have hlt : a.index < (pairs.map Prod.snd).length := by
    rw [List.length_map]
    exact (List.getElem?_eq_some_iff.mp hindex).1
  exact (List.getElem?_inj hlt hnodup).mp hat

variable {earlier later : Layout CompiledType} {front middle back : List (FlatComponent × Nat)}

theorem isEarlier_of_forall₂ (hconsistent : schema.Consistent)
    (hearlier : List.Forall₂ (fun pair component => component.IsTaggedFrom schema pair.1 pair.2)
      (front ++ back) earlier.components)
    (hlater : List.Forall₂ (fun pair component => component.IsTaggedFrom schema pair.1 pair.2)
      (front ++ (middle ++ back)) later.components)
    (hregular : earlier.IsRegular) (hregular' : later.IsRegular) (hkind : earlier.kind = later.kind)
    (htags : earlier.HasFirstTags) (htags' : later.HasFirstTags)
    (hmiddle : ∀ pair ∈ middle, 1 < pair.1.version)
    (hback : ∀ pair ∈ back, pair.1.version ≤ 1)
    (hnodup : ((front ++ (middle ++ back)).map Prod.snd).Nodup)
    (hbound : ∀ pair ∈ front ++ (middle ++ back), pair.2 < 2 ^ 32) :
    earlier.IsEarlier later front.length middle.length := by
  have hpair {component : Component CompiledType} (hmem : component ∈ earlier.components) :
      ∃ pair, (front ++ back)[component.index]? = some pair ∧
        component.IsTaggedFrom schema pair.1 pair.2 :=
    forall₂_exists_of_getElem? hearlier (hregular.getElem?_index hmem)
  have hpair' {component : Component CompiledType} (hmem : component ∈ later.components) :
      ∃ pair, (front ++ (middle ++ back))[component.index]? = some pair ∧
        component.IsTaggedFrom schema pair.1 pair.2 :=
    forall₂_exists_of_getElem? hlater (hregular'.getElem?_index hmem)
  refine ⟨hregular, hregular', hkind, ?_, ?_, ?_, ?_, ?_⟩
  · intro component hmem
    obtain ⟨pair, hindex, htagged⟩ := hpair hmem
    rw [← getElem?_insert front middle back] at hindex
    obtain ⟨other, hother, htagged'⟩ := forall₂_exists_of_getElem? hlater.flip hindex
    obtain ⟨hmem', hindex'⟩ := hregular'.getElem?_eq_some_iff.mp hother
    exact ⟨other, hmem', htagged.isLike hconsistent htagged' (htags _ hmem) (htags' _ hmem'),
      hindex'⟩
  · intro other hmem'
    obtain ⟨pair, hindex, htagged'⟩ := hpair' hmem'
    obtain ⟨i, hshared⟩ | ⟨hnew, hlower, hupper⟩ := exists_getElem?_of_insert hindex
    · obtain ⟨component, hcomponent, htagged⟩ := forall₂_exists_of_getElem? hearlier.flip hshared
      have hmem := List.mem_of_getElem? hcomponent
      exact .inl ⟨component, hmem, Component.IsTaggedFrom.isLike hconsistent htagged htagged'
        (htags _ hmem) (htags' _ hmem')⟩
    · refine .inr ⟨?_, hlower, hupper⟩
      simpa [Component.isAddition, htagged'.version] using hmiddle pair hnew
  · intro component hmem haddition
    obtain ⟨pair, hindex, htagged⟩ := hpair hmem
    by_contra hfront
    rw [List.getElem?_append_right (Nat.le_of_not_lt hfront)] at hindex
    have hroot := hback pair (List.mem_of_getElem? hindex)
    rw [Component.isAddition, htagged.version] at haddition
    exact absurd (of_decide_eq_true haddition) (Nat.not_lt_of_le hroot)
  · intro other hmem
    obtain ⟨pair, -, htagged⟩ := hpair' hmem
    exact ⟨_, htagged.tags (htags' _ hmem)⟩
  · intro a ha b hb tag htag htag'
    exact hregular'.index_injective ha hb
      (hregular'.index_eq_of_mem_tags htags' hlater hnodup hbound ha hb htag htag')

theorem exists_item_of_flattens {items : List (Nat × ComponentItem)} {flat : List FlatComponent}
    (h : schema.Flattens items flat) {component : FlatComponent} (hmem : component ∈ flat) :
    ∃ item ∈ items, item.1 = component.version := by
  rw [← List.mem_map]
  exact (repeats_of_flattens h).mem_of_mem (List.mem_map_of_mem hmem)

/-- The parts that declarations are flattened to which only differ in their last additions. -/
theorem exists_sections_of_flattens {collection : CollectionDeclaration}
    {more : List ExtensionAddition} {flat flat' : List FlatComponent}
    (hflat : schema.Flattens collection.items flat)
    (hflat' : schema.Flattens
      { collection with additions := collection.additions ++ more }.items flat')
    (hversions : { collection with additions := collection.additions ++ more }.versionFault? =
      none) :
    ∃ root additions new trailing, flat = root ++ (additions ++ trailing) ∧
      flat' = root ++ (additions ++ (new ++ trailing)) ∧
      (∀ component ∈ root, component.version ≤ 1) ∧
      (∀ component ∈ additions, 1 < component.version) ∧
      (∀ component ∈ new, 1 < component.version) ∧
      ∀ component ∈ trailing, component.version ≤ 1 := by
  obtain ⟨next, hnumbered⟩ := ExtensionAddition.numbered_append 2 collection.additions more
  obtain ⟨-, habove⟩ := CollectionDeclaration.numbered_of_versionFault? hversions
  rw [hnumbered, List.map_append] at habove
  rw [CollectionDeclaration.items, List.append_assoc] at hflat hflat'
  rw [hnumbered, List.append_assoc] at hflat'
  obtain ⟨root, rest, rfl, hroot, hrest⟩ := hflat.exists_append
  obtain ⟨root', rest', rfl, hroot', hrest'⟩ := hflat'.exists_append
  obtain ⟨additions, trailing, rfl, hadditions, htrailing⟩ := hrest.exists_append
  obtain ⟨additions', rest'', rfl, hadditions', hrest''⟩ := hrest'.exists_append
  obtain ⟨new, trailing', rfl, hnew, htrailing'⟩ := hrest''.exists_append
  obtain rfl := hroot.unique hroot'
  obtain rfl := hadditions.unique hadditions'
  obtain rfl := htrailing.unique htrailing'
  refine ⟨root, additions, new, trailing, rfl, rfl, ?_, ?_, ?_, ?_⟩
  · intro component hmem
    obtain ⟨item, hitem, hversion⟩ := exists_item_of_flattens hroot hmem
    obtain ⟨_, -, rfl⟩ := List.mem_map.mp hitem
    exact hversion.ge
  · intro component hmem
    obtain ⟨item, hitem, hversion⟩ := exists_item_of_flattens hadditions hmem
    rw [← hversion]
    exact habove item.1 (List.mem_append_left _ (List.mem_map_of_mem hitem))
  · intro component hmem
    obtain ⟨item, hitem, hversion⟩ := exists_item_of_flattens hnew hmem
    rw [← hversion]
    exact habove item.1 (List.mem_append_right _ (List.mem_map_of_mem hitem))
  · intro component hmem
    obtain ⟨item, hitem, hversion⟩ := exists_item_of_flattens htrailing hmem
    obtain ⟨_, -, rfl⟩ := List.mem_map.mp hitem
    exact hversion.ge

theorem zip_automaticNumbers {root additions trailing : List FlatComponent}
    (hroot : ∀ component ∈ root, component.version ≤ 1)
    (hadditions : ∀ component ∈ additions, 1 < component.version)
    (htrailing : ∀ component ∈ trailing, component.version ≤ 1) :
    let flat := root ++ (additions ++ trailing)
    flat.zip (automaticNumbers 0 (flat.countP (·.version ≤ 1)) (flat.map FlatComponent.version)) =
      root.zip (List.range' 0 root.length) ++
        (additions.zip (List.range' (root.length + trailing.length) additions.length) ++
          trailing.zip (List.range' root.length trailing.length)) := by
  have hcount : (root ++ (additions ++ trailing)).countP (·.version ≤ 1) =
      root.length + trailing.length := by
    have hnone : additions.countP (·.version ≤ 1) = 0 :=
      List.countP_eq_zero.mpr fun component hmem => by simpa using hadditions component hmem
    rw [List.countP_append, List.countP_append, hnone, Nat.zero_add,
      List.countP_eq_length.mpr (by simpa using hroot),
      List.countP_eq_length.mpr (by simpa using htrailing)]
  have hlast (root addition : Nat) : automaticNumbers root addition
      (trailing.map FlatComponent.version) = List.range' root trailing.length := by
    have hnumbers := @automaticNumbers_of_root _ [] (List.forall_mem_map.mpr htrailing) root
      addition
    simpa [automaticNumbers] using hnumbers
  intro flat
  rw [hcount, List.map_append, List.map_append,
    automaticNumbers_of_root (List.forall_mem_map.mpr hroot),
    automaticNumbers_of_additions (List.forall_mem_map.mpr hadditions), hlast, Nat.zero_add,
    List.length_map, List.length_map, List.zip_append (by simp), List.zip_append (by simp)]

theorem mem_items_of_mem {collection : CollectionDeclaration} {item : Nat × ComponentItem}
    (more : List ExtensionAddition) (h : item ∈ collection.items) :
    item ∈ { collection with additions := collection.additions ++ more }.items := by
  obtain ⟨next, hnumbered⟩ := ExtensionAddition.numbered_append 2 collection.additions more
  rw [CollectionDeclaration.items] at h ⊢
  rw [hnumbered]
  simp only [List.mem_append] at h ⊢
  exact h.imp_left (Or.imp_right .inl)

theorem tagsAutomatically_of_append {collection : CollectionDeclaration}
    {more : List ExtensionAddition} (h : schema.TagsAutomatically
      { collection with additions := collection.additions ++ more }) :
    schema.TagsAutomatically collection := by
  refine ⟨h.1, h.2.1, fun hwrites => h.2.2 ?_⟩
  obtain ⟨version, written, hitem, hwritten⟩ := hwrites
  exact ⟨version, written, mem_items_of_mem more hitem, hwritten⟩

theorem nodup_range'_append {first count second length : Nat}
    (h : first + count ≤ second ∨ second + length ≤ first) :
    (List.range' first count ++ List.range' second length).Nodup := by
  refine List.nodup_append.mpr ⟨List.nodup_range', List.nodup_range', ?_⟩
  intro a ha b hb
  rw [List.mem_range'_1] at ha hb
  omega

/-- Where components come from that only differ in their last additions, and the numbers of their
tags. -/
theorem exists_sections_of_laysOut {collection : CollectionDeclaration}
    {more : List ExtensionAddition} {components components' : List (Component CompiledType)}
    (hlays : schema.LaysOut collection components)
    (hlays' : schema.LaysOut { collection with additions := collection.additions ++ more }
      components') :
    ∃ front middle back : List (FlatComponent × Nat),
      List.Forall₂ (fun pair component => component.IsTaggedFrom schema pair.1 pair.2)
        (front ++ back) components ∧
      List.Forall₂ (fun pair component => component.IsTaggedFrom schema pair.1 pair.2)
        (front ++ (middle ++ back)) components' ∧
      (∀ pair ∈ middle, 1 < pair.1.version) ∧ (∀ pair ∈ back, pair.1.version ≤ 1) ∧
      ((front ++ (middle ++ back)).map Prod.snd).Nodup ∧
      ∀ pair ∈ front ++ (middle ++ back), pair.2 < components'.length := by
  obtain ⟨-, flat, hflat, hcomponents⟩ := hlays
  obtain ⟨hversions, flat', hflat', hcomponents'⟩ := hlays'
  obtain ⟨root, additions, new, trailing, rfl, rfl, hroot, hadditions, hnew, htrailing⟩ :=
    exists_sections_of_flattens hflat hflat' hversions
  have hall : ∀ component ∈ additions ++ new, 1 < component.version := by
    intro component hmem
    exact (List.mem_append.mp hmem).elim (hadditions component) (hnew component)
  rw [← List.append_assoc additions, zip_automaticNumbers hroot hall htrailing,
    List.length_append, ← List.range'_append_1, List.zip_append (by simp), List.append_assoc,
    ← List.append_assoc] at hcomponents'
  rw [zip_automaticNumbers hroot hadditions htrailing, ← List.append_assoc] at hcomponents
  refine ⟨_, _, _, hcomponents, hcomponents', ?_, ?_, ?_, ?_⟩
  · intro pair hmem
    exact hnew _ (List.of_mem_zip hmem).1
  · intro pair hmem
    exact htrailing _ (List.of_mem_zip hmem).1
  · rw [List.map_append, List.map_append, List.map_append, List.map_snd_zip (by simp),
      List.map_snd_zip (by simp), List.map_snd_zip (by simp), List.map_snd_zip (by simp)]
    have hlast : (List.range' (root.length + trailing.length + additions.length) new.length ++
        List.range' root.length trailing.length).Nodup :=
      nodup_range'_append (by omega)
    have hfirst : (List.range' 0 root.length ++
        List.range' (root.length + trailing.length) additions.length).Nodup :=
      nodup_range'_append (by omega)
    refine List.nodup_append.mpr ⟨hfirst, hlast, ?_⟩
    intro a ha b hb
    rw [List.mem_append, List.mem_range'_1, List.mem_range'_1] at ha hb
    omega
  · intro pair hmem
    have hlength := hcomponents'.length_eq
    simp only [List.length_append, List.length_zip, List.length_range', Nat.min_self] at hlength
    simp only [List.mem_append] at hmem
    rcases hmem with (hmem | hmem) | hmem | hmem
    all_goals
      have hnumber := List.mem_range'_1.mp (List.of_mem_zip hmem).2
      omega

/-- The layout of a collection is that of an earlier version of one with more additions. -/
theorem isEarlier_of_laysOut (hconsistent : schema.Consistent) {collection : CollectionDeclaration}
    {more : List ExtensionAddition} (hlays : schema.LaysOut collection earlier.components)
    (hlays' : schema.LaysOut { collection with additions := collection.additions ++ more }
      later.components)
    (hregular : earlier.IsRegular) (hregular' : later.IsRegular) (hkind : earlier.kind = later.kind)
    (htags : earlier.HasFirstTags) (htags' : later.HasFirstTags)
    (hbound : later.components.length ≤ 2 ^ 32) :
    ∃ start count, earlier.IsEarlier later start count := by
  obtain ⟨front, middle, back, hearlier, hlater, hmiddle, hback, hnodup, hnumbers⟩ :=
    exists_sections_of_laysOut hlays hlays'
  exact ⟨_, _, isEarlier_of_forall₂ hconsistent hearlier hlater hregular hregular' hkind htags
    htags' hmiddle hback hnodup fun pair hmem => (hnumbers pair hmem).trans_le hbound⟩

end Correspondence

namespace Layout.IsEarlier

variable {earlier later : Layout CompiledType} {start count : Nat} {name : String}
  {component other : Component CompiledType}

theorem exists_like (h : earlier.IsEarlier later start count)
    (hfind : earlier.component? name = some component) :
    ∃ other, later.component? name = some other ∧ component.IsLike other ∧
      other.index =
        if component.index < start then component.index else component.index + count := by
  obtain ⟨hmem, rfl⟩ := h.regular.component?_eq_some_iff.mp hfind
  obtain ⟨other, hother, hlike, hindex⟩ := h.like component hmem
  exact ⟨other, h.regular_later.component?_eq_some_iff.mpr ⟨hother, hlike.name.symm⟩, hlike, hindex⟩

theorem component?_eq_none (h : earlier.IsEarlier later start count)
    (hnone : later.component? name = none) :
    earlier.component? name = none := by
  cases hfind : earlier.component? name with
  | none => rfl
  | some component =>
      obtain ⟨other, hother, -⟩ := h.exists_like hfind
      rw [hnone] at hother
      contradiction

theorem isNew (h : earlier.IsEarlier later start count) (hfind : later.component? name = some other)
    (hnone : earlier.component? name = none) :
    other.isAddition = true ∧ start ≤ other.index ∧ other.index < start + count := by
  obtain ⟨hmem, rfl⟩ := h.regular_later.component?_eq_some_iff.mp hfind
  obtain ⟨component, hcomponent, hlike⟩ | hnew := h.isLike_or_new other hmem
  · rw [h.regular.component?_eq_some_iff.mpr ⟨hcomponent, hlike.name⟩] at hnone
    contradiction
  · exact hnew

theorem name_eq_of_mem_tags (h : earlier.IsEarlier later start count)
    (hcomponent : component ∈ earlier.components)
    (hmem : other ∈ later.components) {tag : Tag} (htag : tag ∈ component.tags)
    (htag' : tag ∈ other.tags) : component.name = other.name := by
  obtain ⟨twin, htwin, hlike, -⟩ := h.like component hcomponent
  rw [h.distinct other hmem twin htwin tag htag' (hlike.tags ▸ htag), hlike.name]

end Layout.IsEarlier

namespace Schema

variable {schema : Schema} {handle handle' : Handle} {info info' : TypeInfo}
  {layout layout' : Layout CompiledType}

theorem Consistent.kind_eq (h : schema.Consistent)
    (hcompiled : schema.compiled handle = .ok ⟨info, .collection layout⟩)
    {collection : CollectionDeclaration}
    (hdefinition : schema.definition? handle = some (.collection collection)) :
    layout.kind = collection.kind := by
  obtain ⟨definition, hfound, hdescribes⟩ := definition?_of_holds (h _ _ hcompiled)
  obtain rfl := Option.some.inj (hdefinition.symm.trans hfound)
  exact hdescribes.1

/-- A declaration to which additions have been added behind all others is that of a later version.
-/
theorem Consistent.exists_isEarlier (h : schema.Consistent) {collection : CollectionDeclaration}
    {more : List ExtensionAddition}
    (hcompiled : schema.compiled handle = .ok ⟨info, .collection layout⟩)
    (hcompiled' : schema.compiled handle' = .ok ⟨info', .collection layout'⟩)
    (hdefinition : schema.definition? handle = some (.collection collection))
    (hdefinition' : schema.definition? handle' =
      some (.collection { collection with additions := collection.additions ++ more }))
    (hautomatic : schema.TagsAutomatically
      { collection with additions := collection.additions ++ more })
    (hbound : layout'.components.length ≤ 2 ^ 32) :
    ∃ start count, layout.IsEarlier layout' start count := by
  have hholds := h _ _ hcompiled
  have hholds' := h _ _ hcompiled'
  obtain ⟨found, hfound, -, hlaid⟩ := hholds.laidOut layout rfl
  obtain ⟨found', hfound', -, hlaid'⟩ := hholds'.laidOut layout' rfl
  obtain rfl := Definition.collection.inj (Option.some.inj (hdefinition.symm.trans hfound))
  obtain rfl := Definition.collection.inj (Option.some.inj (hdefinition'.symm.trans hfound'))
  exact isEarlier_of_laysOut h (hlaid (tagsAutomatically_of_append hautomatic))
    (hlaid' hautomatic) (hholds.regular layout rfl) (hholds'.regular layout' rfl)
    ((h.kind_eq hcompiled hdefinition).trans (h.kind_eq hcompiled' hdefinition').symm)
    (hholds.firstTags layout rfl) (hholds'.firstTags layout' rfl) hbound

/-- Two extension additions in front of a component of the root, with automatic tags. -/
def additionSequence : CollectionDeclaration :=
  ⟨.sequence, true, false, [],
    [.single (.components [⟨"x", .handle ⟨0⟩, false, none⟩]),
      .single (.components [⟨"z", .handle ⟨1⟩, true, none⟩])],
    [⟨"b", .handle ⟨1⟩, false, none⟩]⟩

def newAddition : ExtensionAddition :=
  .single (.components [⟨"y", .handle ⟨0⟩, false, none⟩])

/-- An INTEGER, a BOOLEAN, and two compiled versions of a SEQUENCE with the constraints. -/
def versionedSequences (constraints : List Constraint) : Schema :=
  let builtins := ((empty.add ⟨.builtin .integer, []⟩).2.add ⟨.builtin .boolean, []⟩).2
  let earlier := (builtins.add ⟨.collection additionSequence, constraints⟩).2
  let later := (earlier.add ⟨.collection { additionSequence with
    additions := additionSequence.additions ++ [newAddition] }, constraints⟩).2
  ((Schema.compile ⟨3⟩).outcome ((Schema.compile ⟨2⟩).outcome later).2).2

theorem reachable_versionedSequences (constraints : List Constraint) :
    (versionedSequences constraints).Reachable :=
  .compile (.compile (.add (.add (.add (.add .empty _) _) _) _) _) _

/-- A component with an automatic tag, whose type is recorded under the handle. -/
def taggedComponent (name : String) (index version : Nat) (optional : Bool) (number : UInt32)
    (handle : Handle) (inner : CompiledType) : Component CompiledType :=
  ⟨name, index, version, optional, none, .handle inner.handle,
    ⟨⟨handle, none, []⟩, .tagged (.context number) .implicit inner⟩, false, [.context number]⟩

def integerType : CompiledType :=
  ⟨⟨⟨0⟩, none, []⟩, .builtin .integer⟩

def booleanType : CompiledType :=
  ⟨⟨⟨1⟩, none, []⟩, .builtin .boolean⟩

def earlierSequence : Layout CompiledType :=
  ⟨.sequence, true, [taggedComponent "x" 0 2 false 1 ⟨5⟩ integerType,
    taggedComponent "z" 1 3 true 2 ⟨6⟩ booleanType,
    taggedComponent "b" 2 1 false 0 ⟨4⟩ booleanType]⟩

def laterSequence : Layout CompiledType :=
  ⟨.sequence, true, [taggedComponent "x" 0 2 false 1 ⟨8⟩ integerType,
    taggedComponent "z" 1 3 true 2 ⟨9⟩ booleanType,
    taggedComponent "y" 2 4 false 3 ⟨10⟩ integerType,
    taggedComponent "b" 3 1 false 0 ⟨7⟩ booleanType]⟩

theorem compiled_earlierSequence : (versionedSequences []).compiled ⟨2⟩ =
    .ok ⟨⟨⟨2⟩, none, []⟩, .collection earlierSequence⟩ := by
  apply compiled_of_hasCompiled
  decide +kernel

theorem compiled_laterSequence : (versionedSequences []).compiled ⟨3⟩ =
    .ok ⟨⟨⟨3⟩, none, []⟩, .collection laterSequence⟩ := by
  apply compiled_of_hasCompiled
  decide +kernel

theorem definition?_earlierSequence :
    (versionedSequences []).definition? ⟨2⟩ = some (.collection additionSequence) := by
  decide +kernel

theorem definition?_laterSequence : (versionedSequences []).definition? ⟨3⟩ = some (.collection
    { additionSequence with additions := additionSequence.additions ++ [newAddition] }) := by
  decide +kernel

theorem tagsAutomatically_versionedSequences : (versionedSequences []).TagsAutomatically
    { additionSequence with additions := additionSequence.additions ++ [newAddition] } := by
  refine ⟨rfl, rfl, ?_⟩
  rintro ⟨version, written, hitem, component, hmem, handle, type, htype, hcompiled, htag⟩
  have hhandle : handle = ⟨0⟩ ∨ handle = ⟨1⟩ := by
    have hitems : ({ additionSequence with
        additions := additionSequence.additions ++ [newAddition] } : CollectionDeclaration).items =
      [(2, .components [⟨"x", .handle ⟨0⟩, false, none⟩]),
        (3, .components [⟨"z", .handle ⟨1⟩, true, none⟩]),
        (4, .components [⟨"y", .handle ⟨0⟩, false, none⟩]),
        (1, .components [⟨"b", .handle ⟨1⟩, false, none⟩])] := rfl
    rw [hitems] at hitem
    simp only [List.mem_cons, Prod.mk.injEq, ComponentItem.components.injEq, List.not_mem_nil,
      or_false] at hitem
    rcases hitem with ⟨-, rfl⟩ | ⟨-, rfl⟩ | ⟨-, rfl⟩ | ⟨-, rfl⟩
    all_goals
      obtain rfl := List.mem_singleton.mp hmem
      obtain rfl := TypeRef.handle.inj htype
      simp
  have hinteger : (versionedSequences []).compiled ⟨0⟩ = .ok integerType :=
    compiled_of_hasCompiled (by decide +kernel)
  have hboolean : (versionedSequences []).compiled ⟨1⟩ = .ok booleanType :=
    compiled_of_hasCompiled (by decide +kernel)
  rcases hhandle with rfl | rfl
  · rw [← Except.ok.inj (hinteger.symm.trans hcompiled)] at htag
    exact Bool.false_ne_true htag
  · rw [← Except.ok.inj (hboolean.symm.trans hcompiled)] at htag
    exact Bool.false_ne_true htag

end Schema

end Asn1

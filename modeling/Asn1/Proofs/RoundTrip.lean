import Asn1.Proofs.CanonicalValues
import Asn1.Proofs.CompilationSteps
import Asn1.Proofs.WrittenElements

namespace Asn1

open Read Source Results

namespace CompiledType

def knowsStep (_ : TypeInfo) : TypeForm (Value → Prop) → Value → Prop
  | .builtin _, _ => True
  | .alias target, value => target value
  | .tagged _ _ inner, value => inner value
  | .collection layout, .list items => ∀ element, layout.element? = some element →
      ∀ item ∈ items, element.type item
  | .collection layout, .collection entries =>
    ∀ entry ∈ entries, ∃ component, layout.component? entry.1 = some component ∧
      component.type entry.2
  | .collection _, _ => True

/-- Whether all entries in a value, at any level, name components of the type. -/
def Knows (type : CompiledType) : Value → Prop :=
  type.interpret knowsStep

section Knowing

variable {info : TypeInfo} {value : Value}

theorem knows_alias_iff {target : CompiledType} :
    Knows ⟨info, .alias target⟩ value ↔ target.Knows value := by
  rw [Knows, interpret_mk]
  rfl

theorem knows_tagged_iff {tag : Tag} {method : TagMethod} {inner : CompiledType} :
    Knows ⟨info, .tagged tag method inner⟩ value ↔ inner.Knows value := by
  rw [Knows, interpret_mk]
  rfl

theorem knows_list_iff {layout : Layout CompiledType} {items : List Value} :
    Knows ⟨info, .collection layout⟩ (.list items) ↔
      ∀ element, layout.element? = some element → ∀ item ∈ items, element.type.Knows item := by
  rw [Knows, interpret_mk]
  change (∀ element, (layout.map (interpret knowsStep)).element? = some element → _) ↔ _
  rw [Layout.element?_map]
  cases layout.element? <;> simp [Component.map, Knows]

theorem knows_entries_iff {layout : Layout CompiledType} {entries : Entries} :
    Knows ⟨info, .collection layout⟩ (.collection entries) ↔
      ∀ entry ∈ entries, ∃ component, layout.component? entry.1 = some component ∧
        component.type.Knows entry.2 := by
  rw [Knows, interpret_mk]
  change (∀ entry ∈ entries, ∃ component,
    (layout.map (interpret knowsStep)).component? entry.1 = some component ∧ _) ↔ _
  simp only [Layout.component?_map, Option.map_eq_some_iff]
  refine forall₂_congr fun entry _ => ?_
  constructor
  · rintro ⟨_, ⟨component, hfind, rfl⟩, hknows⟩
    exact ⟨component, hfind, hknows⟩
  · rintro ⟨component, hfind, hknows⟩
    exact ⟨_, ⟨component, hfind, rfl⟩, hknows⟩

end Knowing

/-- What a type must be like for its values to be read back from what is written for them. -/
structure IsFaithful (type : CompiledType) : Prop where
  ranges : ∀ constraint ∈ type.info.constraints, constraint.isRange = true
  tags : ∀ tag method inner, type.form = .tagged tag method inner → tag ≠ Tag.universal 0
  alternatives : ∀ layout, type.form = .collection layout → layout.kind = .choice →
    ∀ component ∈ layout.components, component.default? = none
  additions : ∀ layout, type.form = .collection layout → ∀ component ∈ layout.components,
    component.isAddition = true → component.isRequired = false

/-- Whether all types in a type are faithful. -/
def IsFaithfulWithin (type : CompiledType) : Prop :=
  ∀ inner, type.Reaches inner → inner.IsFaithful

theorem IsFaithfulWithin.of_mk {info : TypeInfo} {form : TypeForm CompiledType}
    (h : IsFaithfulWithin ⟨info, form⟩) :
    IsFaithful ⟨info, form⟩ ∧ ∀ inner ∈ form.types, inner.IsFaithfulWithin :=
  forall_reaches_mk_iff.mp h

theorem IsFaithfulWithin.hasRangesOnly {type : CompiledType} (h : type.IsFaithfulWithin) :
    type.HasRangesOnly := by
  intro inner hreaches
  exact (h inner hreaches).ranges

theorem isComplete_of_admits {layout : Layout CompiledType} {entries : Entries}
    (h : layout.Admits entries) (hkind : layout.kind ≠ .choice) : layout.IsComplete entries := by
  cases hk : layout.kind with
  | sequence => exact ((Layout.admits_sequence_iff hk).mp h).2.2
  | set => exact ((Layout.admits_set_iff hk).mp h).2.2
  | choice => exact absurd hk hkind
  | sequenceOf => exact absurd (Layout.isList_of_admits h) (by simp [hk, CollectionKind.isList])
  | setOf => exact absurd (Layout.isList_of_admits h) (by simp [hk, CollectionKind.isList])

theorem isStable_kept {info : TypeInfo} {layout : Layout CompiledType} {values : NamedValues}
    {scope : Scope} {entries kept : Entries} (hfaithful : IsFaithful ⟨info, .collection layout⟩)
    (hregular : layout.IsRegular) (hadmits : layout.Admits entries)
    (hkept : layout.IsKept values scope entries kept)
    (hknown : ∀ entry ∈ kept, layout.component? entry.1 ≠ none) : layout.IsStable kept := by
  refine ⟨?_, ?_⟩
  · rintro rfl
    have hkind : layout.kind ≠ .choice := by
      intro hkind
      obtain ⟨-, hlength⟩ := (Layout.admits_choice_iff hkind).mp hadmits
      obtain ⟨entry, rfl⟩ := List.length_eq_one_iff.mp hlength
      have hname := hkept.lost List.mem_cons_self fun component hfind =>
        hfaithful.alternatives layout rfl hkind component
          (Layout.mem_components_of_component? hfind)
      exact absurd hname List.not_mem_nil
    refine ⟨hkind, List.all_eq_true.mpr fun component hmem => ?_⟩
    by_contra hrequired
    have hrequired : component.isRequired = true := by simpa using hrequired
    -- it is not an addition, so that it has to be present and would have been kept
    have hone : component.version ≤ layout.topVersion entries := by
      refine Layout.le_topVersion_iff.mpr (.inl ?_)
      rcases hregular.version_eq_one_or hmem with hone | haddition
      · exact hone.le
      · simp [hfaithful.additions layout rfl component hmem haddition] at hrequired
    have hpresent := isComplete_of_admits hadmits hkind component hmem hrequired (.inr hone)
    exact absurd (hkept.mem_known hpresent hrequired) List.not_mem_nil
  · rintro - before entry after rfl hnone
    exact absurd hnone (hknown entry (by simp))

theorem isStable_of_canonicalize {type : CompiledType} (hregular : type.IsRegular)
    (hfaithful : type.IsFaithfulWithin) {values : NamedValues} {scope : Scope} {value : Value}
    {result : CanonicalForm} (h : type.canonicalize values scope value = .ok result)
    (hknows : type.Knows result.value) : type.IsStable result.value := by
  induction type using CompiledType.induct generalizing scope value result with
  | mk info form ih =>
      obtain ⟨hlayout, htypes⟩ := hregular.of_mk
      obtain ⟨hself, hinner⟩ := hfaithful.of_mk
      obtain ⟨resolved, canonical, -, hform, -, rfl⟩ := (canonicalize_mk_iff hlayout).mp h
      change Knows _ canonical.value at hknows
      show IsStable _ canonical.value
      cases form with
      | builtin builtin => exact isStable_builtin
      | «alias» target =>
          have hmem : target ∈ (TypeForm.alias target).types := TypeForm.target_mem_types
          exact isStable_alias_iff.mpr
            (ih target hmem (htypes _ hmem) (hinner _ hmem) hform (knows_alias_iff.mp hknows))
      | tagged tag method inner =>
          have hmem : inner ∈ (TypeForm.tagged tag method inner).types := TypeForm.inner_mem_types
          exact isStable_tagged_iff.mpr
            (ih inner hmem (htypes _ hmem) (hinner _ hmem) hform (knows_tagged_iff.mp hknows))
      | collection layout =>
          rw [TypeForm.Canonicalizes] at hform
          split at hform
          · obtain ⟨element, items, forms, helement, -, hforms, rfl⟩ := hform
            have hmem := TypeForm.type_mem_types (Layout.mem_components_of_element? helement)
            refine isStable_list_iff.mpr ?_
            intro other hother item hitem
            obtain rfl : element = other := Option.some.inj (helement.symm.trans hother)
            have hitemKnows := knows_list_iff.mp hknows element helement item hitem
            obtain ⟨form, hmemForm, rfl⟩ := List.mem_map.mp hitem
            obtain ⟨source, -, hsource⟩ := forall₂_exists_of_mem hforms hmemForm
            exact ih _ hmem (htypes _ hmem) (hinner _ hmem) hsource hitemKnows
          · obtain ⟨entries, kept, -, hadmits, hvalue, hkept⟩ :=
              Layout.CanonicalizesEntries.exists_kept hform
            rw [hvalue, knows_entries_iff] at hknows
            rw [hvalue, isStable_entries_iff]
            refine ⟨isStable_kept hself (hlayout layout rfl) hadmits hkept ?_, ?_⟩
            · intro entry hentry hnone
              obtain ⟨component, hfind, -⟩ := hknows entry hentry
              simp [hfind] at hnone
            · intro entry hentry component hfind
              obtain ⟨other, hother, hentryKnows⟩ := hknows entry hentry
              obtain rfl : component = other := Option.some.inj (hfind.symm.trans hother)
              obtain ⟨-, source, form, -, hform, heq⟩ := hkept.stems entry hentry component hfind
              have hmem := TypeForm.type_mem_types (Layout.mem_components_of_component? hfind)
              exact heq ▸ ih _ hmem (htypes _ hmem) (hinner _ hmem) hform (heq ▸ hentryKnows)

/-- Octets that are one element, which has one of the tags that it must have, and from whose content
a value of the type is read. -/
def Decodes (type : CompiledType) (rules : EncodingRules) (value : Value) (tag? : Option Tag)
    (depth : Nat) (octets : Octets) : Prop :=
  ∃ identifier, identifier.tag ∈ (tag?.map fun tag => [tag]).getD type.firstTags ∧
    identifier.tag ≠ Tag.universal 0 ∧ type.DecodesAs rules value tag? depth identifier octets

theorem Decodes.exists_decodesAs {type : CompiledType} {rules : EncodingRules} {value : Value}
    {tag? : Option Tag} {depth : Nat} {octets : Octets}
    (h : type.Decodes rules value tag? depth octets) :
    ∃ identifier, identifier.isEndOfContents = false ∧
      type.DecodesAs rules value tag? depth identifier octets := by
  obtain ⟨identifier, -, hne, hdecodes⟩ := h
  exact ⟨identifier, Identifier.isEndOfContents_eq_false hne, hdecodes⟩

section Forms

variable {encoder : Encoder} {info : TypeInfo} {value : Value} {tag? : Option Tag} {depth : Nat}
  {octets : Octets}

theorem getD_mem_tags (tag? : Option Tag) (tag : Tag) :
    tag?.getD tag ∈ (tag?.map fun tag => [tag]).getD [tag] := by
  cases tag? <;> simp

theorem decodes_builtin {builtin : Builtin} (htag? : tag? ≠ some (Tag.universal 0))
    (haccept : builtin.accept value = .ok ())
    (h : Writes ⟨info, .builtin builtin⟩ encoder value tag? octets) :
    Decodes ⟨info, .builtin builtin⟩ encoder.rules value tag? (depth + 1) octets := by
  have htag := getD_ne_universal htag? builtin.tag_ne_universal
  obtain ⟨constructed, hdecodes⟩ := decodesAs_builtin htag haccept h
  refine ⟨_, ?_, htag, hdecodes⟩
  rw [firstTags_builtin]
  exact getD_mem_tags tag? builtin.tag

theorem decodes_alias {target : CompiledType}
    (h : target.Decodes encoder.rules value tag? depth octets) :
    Decodes ⟨info, .alias target⟩ encoder.rules value tag? (depth + 1) octets := by
  obtain ⟨identifier, htag, hne, hdecodes⟩ := h
  refine ⟨identifier, ?_, hne, decodesAs_alias hdecodes⟩
  rwa [firstTags_alias]

theorem decodes_implicit {tag : Tag} {inner : CompiledType}
    (h : inner.Decodes encoder.rules value (some (tag?.getD tag)) depth octets) :
    Decodes ⟨info, .tagged tag .implicit inner⟩ encoder.rules value tag? (depth + 1) octets := by
  obtain ⟨identifier, htag, hne, hdecodes⟩ := h
  refine ⟨identifier, ?_, hne, decodesAs_implicit hdecodes⟩
  rw [firstTags_tagged, List.mem_singleton.mp htag]
  exact getD_mem_tags tag? tag

theorem decodes_explicit {tag : Tag} {inner : CompiledType}
    (hsize : octets.length < Length.sizeBound) (htag? : tag? ≠ some (Tag.universal 0))
    (htag : tag ≠ Tag.universal 0)
    (h : Writes ⟨info, .tagged tag .explicit inner⟩ encoder value tag? octets)
    (hinner : ∀ c, c.length < Length.sizeBound → inner.Writes encoder value none c →
      inner.Decodes encoder.rules value none depth c) :
    Decodes ⟨info, .tagged tag .explicit inner⟩ encoder.rules value tag? (depth + 1) octets := by
  refine ⟨_, ?_, getD_ne_universal htag? htag, decodesAs_explicit hsize h fun c hc hwrites =>
    (hinner c hc hwrites).exists_decodesAs⟩
  rw [firstTags_tagged]
  exact getD_mem_tags tag? tag

theorem getD_mem_firstTags {layout : Layout CompiledType} {tag : Tag}
    (htag : layout.kind.tag? = some tag) :
    tag?.getD tag ∈ (tag?.map fun tag => [tag]).getD (firstTags ⟨info, .collection layout⟩) := by
  rw [firstTags_collection, htag]
  exact getD_mem_tags tag? tag

theorem decodes_list {layout : Layout CompiledType} {tag : Tag}
    (htag : layout.kind.tag? = some tag) (hlist : layout.kind.isList = true)
    {element : Component CompiledType} (helement : layout.element? = some element)
    (hsize : octets.length < Length.sizeBound) (htag? : tag? ≠ some (Tag.universal 0))
    {items : List Value}
    (h : Writes ⟨info, .collection layout⟩ encoder (.list items) tag? octets)
    (hitem : ∀ item ∈ items, ∀ c, c.length < Length.sizeBound →
      element.type.Writes encoder item none c →
        element.type.Decodes encoder.rules item none depth c) :
    Decodes ⟨info, .collection layout⟩ encoder.rules (.list items) tag? (depth + 1) octets := by
  exact ⟨_, getD_mem_firstTags htag,
    getD_ne_universal htag? (CollectionKind.tag_ne_universal htag),
    decodesAs_list htag hlist helement hsize h fun item hmem c hc hwrites =>
      (hitem item hmem c hc hwrites).exists_decodesAs⟩

theorem readsPieces_entries {layout : Layout CompiledType} (hregular : layout.IsRegular)
    (hlist : layout.kind.isList = false)
    (hadditions : ∀ component ∈ layout.components, component.isAddition = true →
      component.isRequired = false) (htags : layout.HasFirstTags)
    {rules : EncodingRules} {entries rest : Entries} (hadmits : layout.Admits entries)
    {pieces : List Octets}
    (h : List.Forall₂ (fun entry piece => ∃ component,
      layout.component? entry.1 = some component ∧ component.default? ≠ some entry.2 ∧
        component.type.Decodes rules entry.2 none depth piece) rest pieces)
    {before : List (Component CompiledType)}
    (hknown : layout.known entries = before ++ layout.known rest) :
    ReadsPieces rules (Decoder.readComponent rules (layout.map fun type => type.read rules) depth)
      (before.getLast?.map Component.index) pieces rest := by
  induction h generalizing before with
  | nil => exact .nil
  | @cons entry piece rest pieces hentry _ ih =>
      obtain ⟨component, hfind, hdefault, hentryDecodes⟩ := hentry
      obtain ⟨identifier, htag, hne, hdecodes⟩ := hentryDecodes
      obtain ⟨hmem, hname⟩ := hregular.component?_eq_some_iff.mp hfind
      rw [Layout.known_cons_of_some hfind] at hknown
      have hmatch := Layout.match?_of_admits hregular hlist hadditions hadmits hknown
        (htags component hmem ▸ htag)
      have hrest : layout.known entries = (before ++ [component]) ++ layout.known rest := by
        simpa using hknown
      have hnext := ih hrest
      rw [List.getLast?_concat] at hnext
      exact .cons (Identifier.isEndOfContents_eq_false hne)
        (readsElement_component hmatch hname (fun _ => hdefault) hdecodes) hnext

theorem decodes_entries {layout : Layout CompiledType} (hregular : layout.IsRegular)
    (hlist : layout.kind.isList = false)
    (hadditions : ∀ component ∈ layout.components, component.isAddition = true →
      component.isRequired = false) (htags : layout.HasFirstTags) {tag : Tag}
    (htag : layout.kind.tag? = some tag) {entries : Entries} (hadmits : layout.Admits entries)
    (hsize : octets.length < Length.sizeBound) (htag? : tag? ≠ some (Tag.universal 0))
    (h : Writes ⟨info, .collection layout⟩ encoder (.collection entries) tag? octets)
    (hentry : ∀ entry ∈ entries, ∀ c, c.length < Length.sizeBound →
      WritesEntry layout encoder entry c → ∃ component, layout.component? entry.1 = some component ∧
        component.default? ≠ some entry.2 ∧
          component.type.Decodes encoder.rules entry.2 none depth c) :
    Decodes ⟨info, .collection layout⟩ encoder.rules (.collection entries) tag? (depth + 1)
      octets := by
  refine ⟨_, getD_mem_firstTags htag,
    getD_ne_universal htag? (CollectionKind.tag_ne_universal htag),
    decodesAs_entries htag hlist hsize h fun pieces hpiecesSize hpieces => ?_⟩
  have hdecodes := forall₂_imp_of_mem hpieces fun entry hmem piece hpiece =>
    hentry entry hmem piece (length_lt_of_mem hpiecesSize hpiece)
  exact readsPieces_entries hregular hlist hadditions htags hadmits hdecodes
    (List.nil_append _).symm

theorem decodes_choice {layout : Layout CompiledType} (hregular : layout.IsRegular)
    (hkind : layout.kind = .choice) (htags : layout.HasFirstTags)
    (hsize : octets.length < Length.sizeBound) {name : String}
    (h : Writes ⟨info, .collection layout⟩ encoder (.choice name value) tag? octets)
    (hentry : ∀ c, c.length < Length.sizeBound → WritesEntry layout encoder (name, value) c →
      ∃ component, layout.component? name = some component ∧ component.default? ≠ some value ∧
        component.type.Decodes encoder.rules value none depth c) :
    Decodes ⟨info, .collection layout⟩ encoder.rules (.choice name value) tag? (depth + 1)
      octets := by
  obtain ⟨rfl, hwrites⟩ := (writes_choice_iff_entry hkind).mp h
  obtain ⟨component, hfind, hdefault, identifier, htag, hne, hdecodes⟩ :=
    hentry octets hsize hwrites
  obtain ⟨hmem, hname⟩ := hregular.component?_eq_some_iff.mp hfind
  have htag : identifier.tag ∈ component.tags := htags component hmem ▸ htag
  have hmatch : layout.match? none identifier.tag = some component := by
    rw [layout.match?_of_ne_sequence (by simp [hkind])]
    exact Layout.componentByTag?_eq_some hregular (by simp [hkind, CollectionKind.isList])
      (by simp [hkind]) hmem htag
  refine ⟨identifier, ?_, hne,
    decodesAs_choice hkind (readsElement_component hmatch hname (fun _ => hdefault) hdecodes)⟩
  rw [firstTags_collection, hkind]
  exact List.mem_flatMap.mpr ⟨component, hmem, htag⟩

theorem decodes_collection {layout : Layout CompiledType} (hregular : layout.IsRegular)
    (hlist : layout.kind.isList = false)
    (hadditions : ∀ component ∈ layout.components, component.isAddition = true →
      component.isRequired = false) (htags : layout.HasFirstTags) {entries : Entries}
    (hadmits : layout.Admits entries) (hsize : octets.length < Length.sizeBound)
    (htag? : tag? ≠ some (Tag.universal 0))
    (h : Writes ⟨info, .collection layout⟩ encoder (.collection entries) tag? octets)
    (hentry : ∀ entry ∈ entries, ∀ c, c.length < Length.sizeBound →
      WritesEntry layout encoder entry c → ∃ component, layout.component? entry.1 = some component ∧
        component.default? ≠ some entry.2 ∧
          component.type.Decodes encoder.rules entry.2 none depth c) :
    Decodes ⟨info, .collection layout⟩ encoder.rules (.collection entries) tag? (depth + 1)
      octets := by
  cases htag : layout.kind.tag? with
  | some tag =>
      exact decodes_entries hregular hlist hadditions htags htag hadmits hsize htag? h hentry
  | none =>
      have hkind := CollectionKind.tag?_eq_none_iff.mp htag
      obtain ⟨-, hlength⟩ := (Layout.admits_choice_iff hkind).mp hadmits
      obtain ⟨⟨name, inner⟩, rfl⟩ := List.length_eq_one_iff.mp hlength
      exact decodes_choice hregular hkind htags hsize h (hentry _ List.mem_cons_self)

/-- A canonical value of a collection type is decoded if those of the components are. -/
theorem decodes_of_components {layout : Layout CompiledType} (hregular : layout.IsRegular)
    (hadditions : ∀ component ∈ layout.components, component.isAddition = true →
      component.isRequired = false) (htags : layout.HasFirstTags) {values : NamedValues}
    {scope : Scope} (hcanonical : IsCanonical ⟨info, .collection layout⟩ value)
    (haccepts : (TypeForm.collection layout).Accepts values scope value)
    (hknows : Knows ⟨info, .collection layout⟩ value)
    (hsize : octets.length < Length.sizeBound) (htag? : tag? ≠ some (Tag.universal 0))
    (h : Writes ⟨info, .collection layout⟩ encoder value tag? octets)
    (hcomponents : ∀ component ∈ layout.components, ∀ scope value,
      component.type.IsCanonical value → component.type.accept values scope value = .ok () →
        component.type.Knows value → ∀ c, c.length < Length.sizeBound →
          component.type.Writes encoder value none c →
            component.type.Decodes encoder.rules value none depth c) :
    Decodes ⟨info, .collection layout⟩ encoder.rules value tag? (depth + 1) octets := by
  rw [TypeForm.Accepts] at haccepts
  split at haccepts
  · next hlist =>
    obtain ⟨element, items, helement, rfl, hall⟩ := haccepts
    have hmem := Layout.mem_components_of_element? helement
    obtain ⟨tag, htag⟩ := CollectionKind.exists_tag_of_isList hlist
    refine decodes_list htag hlist helement hsize htag? h fun item hitem c hc hwrites => ?_
    exact hcomponents element hmem _ item
      (isCanonical_list_iff.mp hcanonical element helement item hitem) (hall item hitem)
      (knows_list_iff.mp hknows element helement item hitem) c hc hwrites
  · next hlist =>
    have hlist : layout.kind.isList = false := by simpa using hlist
    obtain ⟨entries, rfl, hadmits, hall⟩ := haccepts
    refine decodes_collection hregular hlist hadditions htags hadmits hsize htag? h ?_
    intro entry hentry c hc hwrites
    obtain ⟨component, hfind, hknowsEntry⟩ := knows_entries_iff.mp hknows entry hentry
    obtain ⟨hdefault, hcanonicalEntry⟩ :=
      (isCanonical_entries_iff.mp hcanonical).2 entry hentry component hfind
    rw [WritesEntry, hfind] at hwrites
    exact ⟨component, hfind, hdefault,
      hcomponents component (Layout.mem_components_of_component? hfind) _ entry.2 hcanonicalEntry
        (hall entry hentry component hfind) hknowsEntry c hc hwrites⟩

end Forms

/-- What is written for a canonical value of a faithful type is decoded as that value. -/
theorem decodes_of_writes {encoder : Encoder} {type : CompiledType} (hregular : type.IsRegular)
    (htags : type.HasFirstTags) (hfaithful : type.IsFaithfulWithin) {values : NamedValues}
    {scope : Scope} {value : Value} (hcanonical : type.IsCanonical value)
    (haccept : type.accept values scope value = .ok ()) (hknows : type.Knows value) {depth : Nat}
    (hdepth : type.NestsWithin depth) {tag? : Option Tag} (htag? : tag? ≠ some (Tag.universal 0))
    {octets : Octets} (hsize : octets.length < Length.sizeBound)
    (h : type.Writes encoder value tag? octets) :
    type.Decodes encoder.rules value tag? depth octets := by
  induction type using CompiledType.induct generalizing scope value depth tag? octets with
  | mk info form ih =>
      obtain ⟨hlayout, htypes⟩ := hregular.of_mk
      obtain ⟨htagsLayout, htagsInner⟩ := htags.of_mk
      obtain ⟨hself, hinner⟩ := hfaithful.of_mk
      obtain ⟨depth, rfl, hdepthInner⟩ := nestsWithin_mk_iff.mp hdepth
      obtain ⟨haccepts, -⟩ :=
        (accept_mk_iff_of_not_isReference hlayout hcanonical.isReference).mp haccept
      have hstep {inner : CompiledType} (hmem : inner ∈ form.types) {scope : Scope} {value : Value}
          (hcanonical : inner.IsCanonical value)
          (haccept : inner.accept values scope value = .ok ()) (hknows : inner.Knows value)
          {tag? : Option Tag} (htag? : tag? ≠ some (Tag.universal 0)) {octets : Octets}
          (hsize : octets.length < Length.sizeBound) (h : inner.Writes encoder value tag? octets) :
          inner.Decodes encoder.rules value tag? depth octets :=
        ih inner hmem (htypes inner hmem) (htagsInner inner hmem) (hinner inner hmem) hcanonical
          haccept hknows (hdepthInner inner hmem) htag? hsize h
      cases form with
      | builtin builtin => exact decodes_builtin htag? haccepts h
      | «alias» target =>
          exact decodes_alias (hstep TypeForm.target_mem_types (isCanonical_alias_iff.mp hcanonical)
            haccepts (knows_alias_iff.mp hknows) htag? hsize (writes_alias_iff.mp h))
      | tagged tag method inner =>
          have hne := hself.tags tag method inner rfl
          have hcanonical := isCanonical_tagged_iff.mp hcanonical
          have hknows := knows_tagged_iff.mp hknows
          cases method with
          | implicit =>
              refine decodes_implicit (hstep TypeForm.inner_mem_types hcanonical haccepts hknows ?_
                hsize (writes_implicit_iff.mp h))
              exact fun heq => getD_ne_universal htag? hne (Option.some.inj heq)
          | explicit =>
              refine decodes_explicit hsize htag? hne h fun c hc hwrites => ?_
              exact hstep TypeForm.inner_mem_types hcanonical haccepts hknows (by simp) hc hwrites
      | collection layout =>
          refine decodes_of_components (hlayout layout rfl) (hself.additions layout rfl)
            (htagsLayout layout rfl) hcanonical haccepts hknows hsize htag? h ?_
          intro component hmem scope value hcanonical haccept hknows c hc hwrites
          exact hstep (TypeForm.type_mem_types hmem) hcanonical haccept hknows (by simp) hc hwrites

end CompiledType

namespace Schema

variable {schema : Schema} {handle : Handle} {type : CompiledType} {value : Value}
  {form : CanonicalForm} {encoder : Encoder} {octets : Octets}

/-- What is written for a value of a faithful type is decoded as the canonical form of the value if
nothing in that is unknown. All encoders and rules are covered; octets in memory are fewer than the
numbers that a length can be. -/
theorem Reachable.decode_encode_eq_canonical (hschema : schema.Reachable)
    (hcompiled : schema.compiled handle = .ok type) (hfaithful : type.IsFaithfulWithin)
    (hform : schema.canonicalize handle value = .ok form) (hknows : type.Knows form.value)
    (hencode : (schema.encode handle encoder value).toExcept = .ok octets)
    (hsize : octets.length < Length.sizeBound) {maxDepth : Nat}
    (hdepth : type.NestsWithin maxDepth) :
    schema.decode handle ⟨encoder.rules, maxDepth⟩ octets = .ok form.value := by
  have hregular := hschema.consistent.isRegular hcompiled
  have htags := hschema.consistent.hasFirstTags hcompiled
  have hwrites := (encode_eq_done_iff hcompiled hform).mp hencode
  obtain ⟨-, htype⟩ := (canonicalize_eq_ok_iff hcompiled).mp hform
  have hcanonical := CompiledType.isCanonical_of_canonicalize hregular htype
  have haccept : type.accept schema.values (.top schema.view) form.value = .ok () :=
    (CompiledType.accept_canonical_iff_isStable hregular hfaithful.hasRangesOnly htype).mpr
      (CompiledType.isStable_of_canonicalize hregular hfaithful htype hknows)
  have hdecodes := CompiledType.decodes_of_writes hregular htags hfaithful hcanonical haccept hknows
    hdepth (by simp) hsize hwrites
  obtain ⟨identifier, -, -, hdecodesAs⟩ := hdecodes
  obtain ⟨header, content, rfl, hheader, -, hreads⟩ := hdecodesAs.exists_header hsize 0
  exact (decode_eq_ok_iff hcompiled).mpr ⟨header.octets, header, content, rfl, hheader, hreads _,
    (accept_eq_ok_iff hcompiled).mpr haccept⟩

/-- Without buffering, the content of the sequence is closed with a marker. -/
theorem decode_encode_defaultedSequence :
    let value : Value := .collection [("b", .boolean true)]
    let octets : Octets := [0x30, 0x80, 0x01, 0x01, 0xFF, 0x00, 0x00]
    (defaultedSequence.encode ⟨2⟩ ⟨.cer, false⟩ value).toExcept = .ok octets ∧
      defaultedSequence.decode ⟨2⟩ ⟨.cer, 2⟩ octets = .ok value := by
  intro value octets
  have hfaithful : CompiledType.IsFaithfulWithin
      ⟨⟨⟨2⟩, none, []⟩, .collection defaultedLayout⟩ := by
    apply forall_reaches_defaultedLayout
    · refine ⟨by simp [CompiledType.info], by rintro _ _ _ ⟨⟩, ?_, ?_⟩
      · rintro _ ⟨⟩ hkind
        exact absurd hkind (by decide)
      · rintro _ ⟨⟩
        decide
    · exact ⟨by simp [CompiledType.info], by rintro _ _ _ ⟨⟩, by rintro _ ⟨⟩, by rintro _ ⟨⟩⟩
    · exact ⟨by simp [CompiledType.info], by rintro _ _ _ ⟨⟩, by rintro _ ⟨⟩, by rintro _ ⟨⟩⟩
  have hknows : CompiledType.Knows ⟨⟨⟨2⟩, none, []⟩, .collection defaultedLayout⟩ value := by
    rw [CompiledType.knows_entries_iff, List.forall_mem_singleton]
    exact ⟨_, rfl, trivial⟩
  have hdepth : CompiledType.NestsWithin 2 ⟨⟨⟨2⟩, none, []⟩, .collection defaultedLayout⟩ := by
    simp [CompiledType.nestsWithin_mk_iff, TypeForm.types, defaultedLayout]
  have hform : defaultedSequence.canonicalize ⟨2⟩ value = .ok ⟨value, false⟩ := rfl
  have hencode : (defaultedSequence.encode ⟨2⟩ ⟨.cer, false⟩ value).toExcept = .ok octets := rfl
  refine ⟨hencode, ?_⟩
  exact Reachable.decode_encode_eq_canonical (reachable_extendedSequence _ _ _)
    compiled_defaultedSequence hfaithful hform hknows hencode (by decide) hdepth

end Schema

end Asn1

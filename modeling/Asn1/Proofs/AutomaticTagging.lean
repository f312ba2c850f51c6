import Asn1.Proofs.LayoutVersions
import Asn1.Proofs.TagMatching

namespace Asn1

open Results Schema Compile

/-- Whether a type is a CHOICE or an alias that leads to one, without a tag on the way. -/
def CompiledType.IsChoice (type : CompiledType) : Prop :=
  ∃ info layout, type.StandsFor ⟨info, .collection layout⟩ ∧ layout.kind = .choice

theorem CompiledType.isUntaggedChoice_iff {type : CompiledType} :
    type.isUntaggedChoice = true ↔ type.IsChoice := by
  constructor
  · intro hchoice
    induction type using formInduct with
    | builtin info builtin => simp [isUntaggedChoice_builtin] at hchoice
    | tagged info tag method inner ih => simp [isUntaggedChoice_tagged] at hchoice
    | «alias» info target ih =>
        rw [isUntaggedChoice_alias] at hchoice
        obtain ⟨info, layout, hstands, hkind⟩ := ih hchoice
        exact ⟨info, layout, .head rfl hstands, hkind⟩
    | collection info layout ih =>
        rw [isUntaggedChoice_collection] at hchoice
        exact ⟨info, layout, .refl, of_decide_eq_true hchoice⟩
  · rintro ⟨info, layout, hstands, hkind⟩
    rw [← hstands.isUntaggedChoice_eq, isUntaggedChoice_collection, hkind]
    rfl

/-- The tags of a component that has got the automatic tag with the number. -/
def automaticTags (number : Nat) : List Tag :=
  [.context (UInt32.ofNat number)]

/-- Whether a component is another one with an automatic tag around its type. The tag is explicit
where that is an untagged CHOICE, and implicit everywhere else. -/
def Component.IsNumbered (source component : Component CompiledType) : Prop :=
  ∃ number handle method,
    component = { source with
      type := ⟨⟨handle, none, []⟩,
        .tagged (.context (UInt32.ofNat number)) method source.type⟩
      tags := automaticTags number } ∧
    (method = .explicit ↔ source.type.IsChoice)

/-- Whether components, in the order of their indexes, are other ones with automatic tags. These are
numbered from 0 on, first in the root and then in the extension additions. -/
structure AreNumbered (sources components : List (Component CompiledType)) : Prop where
  indexes : components.map Component.index = List.range sources.length
  order : (tagOrder components).map Component.tags = (List.range sources.length).map automaticTags
  numbered : List.Forall₂ Component.IsNumbered sources components

section Numbers

variable {components : List (Component CompiledType)}

theorem map_tags_filter {root addition : Nat} (h : components.map Component.tags =
      (automaticNumbers root addition (components.map Component.version)).map automaticTags) :
    (components.filter (!·.isAddition)).map Component.tags =
        (List.range' root (components.filter (!·.isAddition)).length).map automaticTags ∧
      (components.filter (·.isAddition)).map Component.tags =
        (List.range' addition (components.filter (·.isAddition)).length).map automaticTags := by
  induction components generalizing root addition with
  | nil => exact ⟨rfl, rfl⟩
  | cons component rest ih =>
      rw [List.map_cons, List.map_cons, automaticNumbers] at h
      by_cases haddition : component.isAddition = true
      · rw [if_pos (of_decide_eq_true haddition), List.map_cons, List.cons.injEq] at h
        obtain ⟨hroot, hadditions⟩ := ih h.2
        rw [List.filter_cons_of_neg (by simp [haddition]), List.filter_cons_of_pos haddition,
          List.map_cons, List.length_cons, List.range'_succ, List.map_cons, h.1, hadditions]
        exact ⟨hroot, rfl⟩
      · have hversion : ¬1 < component.version := by simpa [Component.isAddition] using haddition
        rw [if_neg hversion, List.map_cons, List.cons.injEq] at h
        obtain ⟨hroot, hadditions⟩ := ih h.2
        rw [List.filter_cons_of_pos (by simp [haddition]), List.filter_cons_of_neg haddition,
          List.map_cons, List.length_cons, List.range'_succ, List.map_cons, h.1, hroot]
        exact ⟨rfl, hadditions⟩

theorem map_tags_order (h : components.map Component.tags =
      (automaticNumbers 0 ((components.map Component.version).countP (· ≤ 1))
        (components.map Component.version)).map automaticTags) :
    (tagOrder components).map Component.tags =
      (List.range components.length).map automaticTags := by
  rw [← length_filter_root] at h
  obtain ⟨hfirst, hadditions⟩ := map_tags_filter h
  have hnumbers := @List.range'_append_1 0 (components.filter (!·.isAddition)).length
    (components.filter (·.isAddition)).length
  rw [Nat.zero_add, ← List.length_append, ← tagOrder, (perm_tagOrder _).length_eq] at hnumbers
  rw [tagOrder, List.map_append, hfirst, hadditions, ← List.map_append, hnumbers,
    List.range_eq_range']

/-- As long as the numbers of tags suffice, which have 32 bits, no tag is given twice. -/
theorem nodup_flatMap_automaticTags {count : Nat} (h : count ≤ 2 ^ 32) :
    ((List.range count).flatMap automaticTags).Nodup := by
  rw [List.nodup_flatMap]
  refine ⟨fun number _ => List.nodup_singleton _, ?_⟩
  refine List.nodup_range.imp_of_mem fun {a b} ha hb hne => ?_
  rw [List.mem_range] at ha hb
  rw [Function.onFun_apply, automaticTags, automaticTags, List.singleton_disjoint,
    List.mem_singleton]
  intro heq
  have hnumber := congrArg (fun tag => tag.number.toNat) heq
  simp only [Tag.context, UInt32.toNat_ofNat_of_lt' (ha.trans_le h),
    UInt32.toNat_ofNat_of_lt' (hb.trans_le h)] at hnumber
  exact hne hnumber

theorem AreNumbered.clash?_eq_none {sources : List (Component CompiledType)}
    (h : AreNumbered sources components) (hlength : sources.length ≤ 2 ^ 32) :
    clash? components = none := by
  rw [clash?_eq_none_iff, ← List.nodup_flatMap, ← ((perm_tagOrder _).flatMap_right _).nodup_iff,
    List.flatMap_def, h.order, ← List.flatMap_def]
  exact nodup_flatMap_automaticTags hlength

end Numbers

section Ambiguity

variable {τ : Type} {components : List (Component τ)}

theorem runClash?_eq_none_of_clash? (h : clash? components = none) :
    runClash? components = none := by
  by_contra hne
  obtain ⟨clash, hclash⟩ := Option.ne_none_iff_exists'.mp hne
  obtain ⟨i, j, hshares, -⟩ := sharesTag_of_runClash? (clash?_eq_none_iff.mp h).1 hclash
  exact hshares.clash?_ne_none h

theorem ambiguity?_eq_none_of_clash? (kind : CollectionKind) (h : clash? components = none) :
    ambiguity? kind components = none := by
  cases kind with
  | sequence => exact runClash?_eq_none_of_clash? h
  | set => exact h
  | choice => exact h
  | sequenceOf => rfl
  | setOf => rfl

end Ambiguity

section Completion

variable {schema : Schema} {collection : CollectionDeclaration}
  {component : Component CompiledType} {components : List (Component CompiledType)}

theorem outcome_findTags (h : schema.Consistent) (hhas : schema.Has component.type)
    (hbase : component.type.HasBase) :
    (findTags component).outcome schema = (.ok component.withFirstTags, schema) := by
  rw [findTags, outcome_bind, outcome_ask, h.firstTags_eq_ok hhas hbase]
  rfl

theorem outcome_findAllTags (h : schema.Consistent)
    (hhas : ∀ component ∈ components, schema.Has component.type)
    (hbases : ∀ component ∈ components, component.type.HasBase) :
    (components.mapM findTags).outcome schema =
      (.ok (components.map Component.withFirstTags), schema) := by
  induction components with
  | nil =>
      rw [List.mapM_nil]
      rfl
  | cons component rest ih =>
      obtain ⟨hfirst, hrest⟩ := List.forall_mem_cons.mp hhas
      obtain ⟨hbase, hmore⟩ := List.forall_mem_cons.mp hbases
      rw [List.mapM_cons, outcome_bind, outcome_findTags h hfirst hbase]
      simp only
      rw [outcome_bind, ih hrest hmore]
      rfl

theorem outcome_completeLayout (h : schema.Consistent)
    (hhas : ∀ component ∈ components, schema.Has component.type)
    (hbases : ∀ component ∈ components, component.type.HasBase)
    (hclash : ambiguity? collection.kind (components.map Component.withFirstTags) = none) :
    (completeLayout collection components).outcome schema =
      (.ok ⟨collection.kind, collection.isExtensible, components.map Component.withFirstTags⟩,
        schema) := by
  rw [completeLayout, outcome_bind, outcome_findAllTags h hhas hbases]
  simp only
  rw [hclash]
  rfl

end Completion

section Tagging

variable {start schema : Schema} {collection : CollectionDeclaration} {flat : List FlatComponent}
  {components tagged : List (Component CompiledType)}

theorem Schema.LaysOut.map_tags_order (h : schema.LaysOut collection components)
    (htags : ∀ component ∈ components, component.tags = component.type.firstTags) :
    (tagOrder components).map Component.tags =
      (List.range components.length).map automaticTags := by
  obtain ⟨-, flat, -, hcomponents⟩ := h
  have hlength : (automaticNumbers 0 (flat.countP (·.version ≤ 1))
      (flat.map FlatComponent.version)).length = flat.length := by
    rw [length_automaticNumbers, List.length_map]
  have hversions := map_eq_map_of_forall₂ hcomponents (f := FlatComponent.version ∘ Prod.fst)
    fun _ _ _ _ htagged => htagged.version
  have hnumbers := map_eq_map_of_forall₂ hcomponents (f := automaticTags ∘ Prod.snd)
    fun _ _ component hmem htagged => htagged.tags (htags component hmem)
  rw [← List.map_map, List.map_fst_zip hlength.ge] at hversions
  rw [← List.map_map, List.map_snd_zip hlength.le] at hnumbers
  refine Asn1.map_tags_order ?_
  rw [hnumbers, hversions, List.countP_map]
  rfl

theorem Component.IsTagged.isNumbered {number : Nat} {source component : Component CompiledType}
    (h : source.IsTagged start number component) : source.IsNumbered component.withFirstTags := by
  obtain ⟨type, ⟨handle, rfl⟩, -, rfl⟩ := h
  refine ⟨number, handle, if source.type.isUntaggedChoice then .explicit else .implicit, ?_, ?_⟩
  · rw [Component.withFirstTags, CompiledType.firstTags_tagged]
    rfl
  · rw [← CompiledType.isUntaggedChoice_iff]
    cases source.type.isUntaggedChoice <;> simp

theorem AreTagged.forall₂_isNumbered (h : AreTagged start components tagged) :
    List.Forall₂ Component.IsNumbered components (tagged.map Component.withFirstTags) := by
  have hpairs : List.Forall₂ (fun (pair : Component CompiledType × Nat) component =>
      pair.1.IsNumbered component) _ (tagged.map Component.withFirstTags) :=
    List.forall₂_map_right_iff.mpr (h.imp fun _ _ htagged => htagged.isNumbered)
  rwa [← List.forall₂_map_left_iff (f := Prod.fst), map_fst_zip_automaticNumbers] at hpairs

theorem Assembly.areNumbered (h : Assembly start schema collection flat components tagged)
    (hadds : collection.addsTags flat components = true) :
    AreNumbered components (tagged.map Component.withFirstTags) := by
  obtain ⟨htagged, -⟩ := h.areTagged hadds
  have hnumbered := htagged.forall₂_isNumbered
  refine ⟨?_, ?_, hnumbered⟩
  · rw [← h.compiled.length_eq, List.range_eq_range', ← map_place_index, ← h.places_tagged,
      List.map_map, List.map_map]
    rfl
  · rw [(h.laysOut htagged).map_tags_order, hnumbered.length_eq]
    intro component hmem
    obtain ⟨source, -, rfl⟩ := List.mem_map.mp hmem
    rfl

end Tagging

namespace Schema

/-- Whether the components that a collection declares are compiled, where `before` becomes a schema
in which they then get automatic tags, which leads to `after`. -/
def TagsComponents (steps : Nat) (collection : CollectionDeclaration) (before after : Schema)
    (components tagged : List (Component CompiledType)) : Prop :=
  ∃ flat middle,
    (declaredComponents (compileWithin steps) collection).outcome before =
      (.ok (flat, components), middle) ∧
    collection.addsTags flat components = true ∧
    (tagAutomatically components).outcome middle = (.ok tagged, after)

namespace TagsComponents

variable {steps : Nat} {collection : CollectionDeclaration} {before after last : Schema}
  {components tagged : List (Component CompiledType)}

theorem exists_assembly (h : TagsComponents steps collection before after components tagged)
    (hbefore : before.Consistent) :
    before.Extends after ∧ after.Consistent ∧ ∃ flat,
      Assembly before after collection flat components tagged ∧
        collection.addsTags flat components = true := by
  obtain ⟨flat, middle, hdeclared, hadds, htagged⟩ := h
  obtain ⟨hleads, hmiddle, hresult⟩ := keeps_declaredComponents (compiles_compileWithin steps)
    before collection before hbefore (.refl before)
  rw [hdeclared] at hleads hmiddle hresult
  obtain ⟨hversions, hnames, hcompiled⟩ := hresult _ rfl
  obtain ⟨hleads', hafter, hresult'⟩ :=
    keeps_tagCompiled before hversions hnames hadds middle hmiddle hcompiled
  rw [htagged] at hleads' hafter hresult'
  exact ⟨(hleads.trans hleads').toExtends, hafter, flat, hresult' tagged rfl, hadds⟩

theorem areNumbered (h : TagsComponents steps collection before after components tagged)
    (hbefore : before.Consistent) :
    AreNumbered components (tagged.map Component.withFirstTags) := by
  obtain ⟨-, -, flat, hassembly, hadds⟩ := h.exists_assembly hbefore
  exact hassembly.areNumbered hadds

theorem ambiguity?_eq_none (h : TagsComponents steps collection before after components tagged)
    (hbefore : before.Consistent) (hlength : components.length ≤ 2 ^ 32) :
    ambiguity? collection.kind (tagged.map Component.withFirstTags) = none := by
  apply ambiguity?_eq_none_of_clash?
  exact (h.areNumbered hbefore).clash?_eq_none hlength

/-- Once the tags have been applied, nothing is left that could fail. -/
theorem outcome_compileCollection
    (h : TagsComponents steps collection before after components tagged)
    (hbefore : before.Consistent) (hlength : components.length ≤ 2 ^ 32) :
    (compileCollection (compileWithin steps) collection).outcome before =
      (.ok ⟨collection.kind, collection.isExtensible, tagged.map Component.withFirstTags⟩,
        after) := by
  have hclash := h.ambiguity?_eq_none hbefore hlength
  obtain ⟨-, hafter, flat, hassembly, hadds⟩ := h.exists_assembly hbefore
  have hbases := (hassembly.areTagged hadds).1.hasBase
  obtain ⟨flat, middle, hdeclared, hadds, htagged⟩ := h
  rw [compileCollection_eq, outcome_bind, hdeclared]
  simp only [hadds, if_true]
  rw [outcome_bind, htagged]
  exact outcome_completeLayout hafter hassembly.types hbases hclash

theorem laysOut (h : TagsComponents steps collection before after components tagged)
    (hbefore : before.Consistent) (hlast : after.Extends last) :
    last.LaysOut collection (tagged.map Component.withFirstTags) := by
  obtain ⟨-, -, flat, hassembly, hadds⟩ := h.exists_assembly hbefore
  exact (persists_assembly _ _ _ _ _ _ _ hlast hassembly).laysOut (hassembly.areTagged hadds).1

/-- A later version of the collection has the components of the earlier one, with the same tags and
the same types below them. -/
theorem exists_same (h : TagsComponents steps collection before after components tagged)
    (hbefore : before.Consistent) (hlast : after.Extends last) {steps' : Nat}
    {before' after' : Schema} {more : List ExtensionAddition}
    {components' tagged' : List (Component CompiledType)}
    (h' : TagsComponents steps' { collection with additions := collection.additions ++ more }
      before' after' components' tagged')
    (hbefore' : before'.Consistent) (hlast' : after'.Extends last) :
    ∀ component ∈ tagged.map Component.withFirstTags,
      ∃ other ∈ tagged'.map Component.withFirstTags, other.name = component.name ∧
        other.tags = component.tags ∧ other.type.form = component.type.form := by
  obtain ⟨front, middle, back, hearlier, hlater, -⟩ :=
    exists_sections_of_laysOut (h.laysOut hbefore hlast) (h'.laysOut hbefore' hlast')
  have htags {tagged : List (Component CompiledType)} :
      ∀ component ∈ tagged.map Component.withFirstTags,
        component.tags = component.type.firstTags := by
    intro component hmem
    obtain ⟨source, -, rfl⟩ := List.mem_map.mp hmem
    rfl
  intro component hmem
  obtain ⟨pair, hpair, htagged⟩ := forall₂_exists_of_mem hearlier hmem
  have hpair' : pair ∈ front ++ (middle ++ back) := by
    simp only [List.mem_append] at hpair ⊢
    exact hpair.imp_right .inr
  obtain ⟨other, hmem', htagged'⟩ : ∃ other ∈ tagged'.map Component.withFirstTags,
      other.IsTaggedFrom last pair.1 pair.2 := forall₂_exists_of_mem hlater.flip hpair'
  refine ⟨other, hmem', ?_, ?_, htagged'.form_eq htagged⟩
  · exact htagged'.name.trans htagged.name.symm
  · rw [htagged'.tags (htags other hmem'), htagged.tags (htags component hmem)]

end TagsComponents

/-- Components that get automatic tags are numbered from 0 on, those of the root first, and tagged
explicitly just where their types are untagged CHOICE types. As long as there are numbers for all
of them, which have 32 bits, compiling the collection then succeeds. A version of it with more
additions at the end leaves every component its tag, method and type, whenever and in whatever order
the two are compiled in a schema. Every schema that can be reached is consistent, and so is every
one that compiling goes through. -/
theorem automatic_tags_number_components :
    (∀ {steps : Nat} {collection : CollectionDeclaration} {before after : Schema}
      {components tagged : List (Component CompiledType)}, before.Consistent →
      TagsComponents steps collection before after components tagged →
        AreNumbered components (tagged.map Component.withFirstTags) ∧
        (components.length ≤ 2 ^ 32 →
          ambiguity? collection.kind (tagged.map Component.withFirstTags) = none ∧
          (compileCollection (compileWithin steps) collection).outcome before =
            (.ok ⟨collection.kind, collection.isExtensible, tagged.map Component.withFirstTags⟩,
              after))) ∧
    ∀ {steps steps' : Nat} {collection : CollectionDeclaration} {more : List ExtensionAddition}
      {before after before' after' last : Schema}
      {components tagged components' tagged' : List (Component CompiledType)},
      before.Consistent → TagsComponents steps collection before after components tagged →
      before'.Consistent →
      TagsComponents steps' { collection with additions := collection.additions ++ more }
        before' after' components' tagged' →
      after.Extends last → after'.Extends last →
        ∀ component ∈ tagged.map Component.withFirstTags,
          ∃ other ∈ tagged'.map Component.withFirstTags, other.name = component.name ∧
            other.tags = component.tags ∧ other.type.form = component.type.form := by
  refine ⟨fun hbefore htags => ⟨htags.areNumbered hbefore, fun hlength => ?_⟩, ?_⟩
  · exact ⟨htags.ambiguity?_eq_none hbefore hlength,
      htags.outcome_compileCollection hbefore hlength⟩
  · intro _ _ _ _ _ _ _ _ _ _ _ _ _ hbefore htags hbefore' htags' hlast hlast'
    exact htags.exists_same hbefore hlast htags' hbefore' hlast'

/-- An INTEGER, a CHOICE with one alternative, and an alias of the CHOICE. -/
def aliasedChoice : Schema :=
  let integer := (empty.add ⟨.builtin .integer, []⟩).2
  let choice := (integer.add ⟨.collection
    { CollectionDeclaration.ofShape .choice with
      root := [.components [⟨"i", .handle ⟨0⟩, false, none⟩]] }, []⟩).2
  (choice.add ⟨.alias (.handle ⟨1⟩), []⟩).2

/-- An extension addition, here of the CHOICE, between two components of the root. -/
def choiceSequence : CollectionDeclaration :=
  ⟨.sequence, true, false, [.components [⟨"a", .handle ⟨0⟩, false, none⟩]],
    [.single (.components [⟨"x", .handle ⟨2⟩, false, none⟩])],
    [⟨"b", .handle ⟨2⟩, false, none⟩]⟩

def laterChoiceSequence : CollectionDeclaration :=
  { choiceSequence with additions := choiceSequence.additions ++ [newAddition] }

/-- What is left behind when the components of the SEQUENCE are compiled, and then those of the
version of it with another addition. -/
def earlierTagged : Schema :=
  ((compileCollection (compileWithin 4) choiceSequence).outcome aliasedChoice).2

def laterTagged : Schema :=
  ((compileCollection (compileWithin 4) laterChoiceSequence).outcome earlierTagged).2

def choiceAlias : CompiledType :=
  ⟨⟨⟨2⟩, none, []⟩, .alias ⟨⟨⟨1⟩, none, []⟩, .collection ⟨.choice, false,
    [⟨"i", 0, 1, false, none, .handle ⟨0⟩, integerType, false, [.integer]⟩]⟩⟩⟩

/-- A component that has no automatic tag yet. -/
def untaggedComponent (name : String) (index version : Nat) (type : CompiledType) :
    Component CompiledType :=
  ⟨name, index, version, false, none, .handle type.handle, type, false, []⟩

/-- The component with an automatic tag, which is a type under the handle. -/
def wrap (component : Component CompiledType) (number : UInt32) (method : TagMethod)
    (handle : Handle) : Component CompiledType :=
  { component with
    type := ⟨⟨handle, none, []⟩, .tagged (.context number) method component.type⟩ }

/-- The components of the SEQUENCE, and of a version of it with another addition. -/
def choiceComponents : List (Component CompiledType) × List (Component CompiledType) :=
  ([untaggedComponent "a" 0 1 integerType, untaggedComponent "x" 1 2 choiceAlias,
    untaggedComponent "b" 2 1 choiceAlias],
  [untaggedComponent "a" 0 1 integerType, untaggedComponent "x" 1 2 choiceAlias,
    untaggedComponent "y" 2 3 integerType, untaggedComponent "b" 3 1 choiceAlias])

/-- The components of both versions with their automatic tags. -/
def choiceTags : List (Component CompiledType) × List (Component CompiledType) :=
  ([wrap (untaggedComponent "a" 0 1 integerType) 0 .implicit ⟨3⟩,
    wrap (untaggedComponent "x" 1 2 choiceAlias) 2 .explicit ⟨5⟩,
    wrap (untaggedComponent "b" 2 1 choiceAlias) 1 .explicit ⟨4⟩],
  [wrap (untaggedComponent "a" 0 1 integerType) 0 .implicit ⟨6⟩,
    wrap (untaggedComponent "x" 1 2 choiceAlias) 2 .explicit ⟨8⟩,
    wrap (untaggedComponent "y" 2 3 integerType) 3 .implicit ⟨9⟩,
    wrap (untaggedComponent "b" 3 1 choiceAlias) 1 .explicit ⟨7⟩])

/-- Both versions of the SEQUENCE are numbered, and the tags of the first one are kept. -/
theorem automatic_tags_number_components_choiceSequence :
    aliasedChoice.Consistent ∧ TagsComponents 4 choiceSequence aliasedChoice earlierTagged
        choiceComponents.1 choiceTags.1 ∧
      (AreNumbered choiceComponents.1 (choiceTags.1.map Component.withFirstTags) ∧
        ambiguity? .sequence (choiceTags.1.map Component.withFirstTags) = none ∧
        (compileCollection (compileWithin 4) choiceSequence).outcome aliasedChoice =
          (.ok ⟨.sequence, true, choiceTags.1.map Component.withFirstTags⟩, earlierTagged)) ∧
      earlierTagged.Consistent ∧ TagsComponents 4 laterChoiceSequence earlierTagged laterTagged
        choiceComponents.2 choiceTags.2 ∧ earlierTagged.Extends laterTagged ∧
      ∀ component ∈ choiceTags.1.map Component.withFirstTags,
        ∃ other ∈ choiceTags.2.map Component.withFirstTags, other.name = component.name ∧
          other.tags = component.tags ∧ other.type.form = component.type.form := by
  have hbefore : aliasedChoice.Consistent :=
    (Reachable.add (.add (.add .empty _) _) _).consistent
  have htags : TagsComponents 4 choiceSequence aliasedChoice earlierTagged choiceComponents.1
      choiceTags.1 := ⟨_, _, rfl, rfl, rfl⟩
  have htags' : TagsComponents 4 laterChoiceSequence earlierTagged laterTagged choiceComponents.2
      choiceTags.2 := ⟨_, _, rfl, rfl, rfl⟩
  obtain ⟨-, hafter, -⟩ := htags.exists_assembly hbefore
  obtain ⟨hlast, -⟩ := htags'.exists_assembly hafter
  obtain ⟨hnumbered, hcompletes⟩ := automatic_tags_number_components.1 hbefore htags
  exact ⟨hbefore, htags, ⟨hnumbered, hcompletes (by decide)⟩, hafter, htags', hlast,
    automatic_tags_number_components.2 hbefore htags hafter htags' hlast (.refl _)⟩

end Schema

end Asn1

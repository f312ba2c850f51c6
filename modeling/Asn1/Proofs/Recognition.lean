import Asn1.Proofs.Conforming
import Asn1.Proofs.LeafContent
import Asn1.Proofs.TypeReading

/-!
What elements are taken for. They are told apart by their tags only, so that a value can be read
back only if the tags of its elements lead to the components that its entries name.
-/

namespace Asn1

open Read Results

namespace Layout

variable {σ τ : Type}

/-- Whether an element with the tag is taken for the entry, where the last known component before it
has the index `previous?`. Elements that match no component are captured. -/
def RecognizesEntry (layout : Layout τ) (recognizes : τ → Tag → Value → Prop)
    (previous? : Option Nat) (tag : Tag) (entry : String × Value) : Prop :=
  match layout.match? previous? tag with
  | some component => component.name = entry.1 ∧ recognizes component.type tag entry.2
  | none => ∃ captured, captured.identifier.tag = tag ∧ entry = (tag.text, .captured captured)

/-- Whether there are elements that are taken for the entries, one after the other. -/
def RecognizesEntries (layout : Layout τ) (recognizes : τ → Tag → Value → Prop) :
    Option Nat → Entries → Prop
  | _, [] => True
  | previous?, entry :: rest => ∃ tag, layout.RecognizesEntry recognizes previous? tag entry ∧
      layout.RecognizesEntries recognizes
        (((layout.match? previous? tag).map Component.index).or previous?) rest

theorem recognizesEntry_map {f : σ → τ} {layout : Layout σ} {recognizes : τ → Tag → Value → Prop}
    {previous? : Option Nat} {tag : Tag} {entry : String × Value} :
    (layout.map f).RecognizesEntry recognizes previous? tag entry ↔
      layout.RecognizesEntry (fun type => recognizes (f type)) previous? tag entry := by
  rw [RecognizesEntry, RecognizesEntry, match?_map]
  cases layout.match? previous? tag <;> rfl

theorem recognizesEntries_map {f : σ → τ} {layout : Layout σ}
    {recognizes : τ → Tag → Value → Prop} {previous? : Option Nat} {entries : Entries} :
    (layout.map f).RecognizesEntries recognizes previous? entries ↔
      layout.RecognizesEntries (fun type => recognizes (f type)) previous? entries := by
  induction entries generalizing previous? with
  | nil => rfl
  | cons entry rest ih =>
      simp only [RecognizesEntries, recognizesEntry_map, ih, match?_map, Option.map_map]
      rfl

end Layout

namespace CompiledType

def recognizesStep (_ : TypeInfo) : TypeForm (Tag → Value → Prop) → Tag → Value → Prop
  | .builtin builtin, tag, _ => tag = builtin.tag
  | .alias target, tag, value => target tag value
  | .tagged given _ inner, tag, value => tag = given ∧ ∃ own, inner own value
  | .collection layout, tag, .list items => layout.kind.tag? = some tag ∧
      ∀ element, layout.element? = some element → ∀ item ∈ items, ∃ own, element.type own item
  | .collection layout, tag, .collection entries =>
    match layout.kind.tag? with
    | some own => tag = own ∧ layout.RecognizesEntries id none entries
    | none => ∃ entry, entries = [entry] ∧ layout.RecognizesEntry id none tag entry
  | .collection _, _, _ => False

/-- Whether an element with the tag, made up of elements for all that the value holds, is taken for
that value of the type. -/
def Recognizes (type : CompiledType) : Tag → Value → Prop :=
  type.interpret recognizesStep

/-- Whether elements are taken for the value that they are written for. -/
def IsRecognized (type : CompiledType) (value : Value) : Prop :=
  ∃ tag, type.Recognizes tag value

section Forms

variable {info : TypeInfo} {tag : Tag} {value : Value}

theorem recognizes_builtin_iff {builtin : Builtin} :
    Recognizes ⟨info, .builtin builtin⟩ tag value ↔ tag = builtin.tag := by
  rw [Recognizes, interpret_mk]
  rfl

theorem recognizes_alias_iff {target : CompiledType} :
    Recognizes ⟨info, .alias target⟩ tag value ↔ target.Recognizes tag value := by
  rw [Recognizes, interpret_mk]
  rfl

theorem recognizes_tagged_iff {given : Tag} {method : TagMethod} {inner : CompiledType} :
    Recognizes ⟨info, .tagged given method inner⟩ tag value ↔
      tag = given ∧ inner.IsRecognized value := by
  rw [Recognizes, interpret_mk]
  rfl

theorem recognizes_list_iff {layout : Layout CompiledType} {items : List Value} :
    Recognizes ⟨info, .collection layout⟩ tag (.list items) ↔
      layout.kind.tag? = some tag ∧ ∀ element, layout.element? = some element →
        ∀ item ∈ items, element.type.IsRecognized item := by
  rw [Recognizes, interpret_mk]
  change (layout.kind.tag? = some tag ∧
    ∀ element, (layout.map (interpret recognizesStep)).element? = some element → _) ↔ _
  rw [Layout.element?_map]
  cases layout.element? <;> simp [Component.map, IsRecognized, Recognizes]

theorem recognizes_entries_iff {layout : Layout CompiledType} {own : Tag}
    (hown : layout.kind.tag? = some own) {entries : Entries} :
    Recognizes ⟨info, .collection layout⟩ tag (.collection entries) ↔
      tag = own ∧ layout.RecognizesEntries Recognizes none entries := by
  rw [Recognizes, interpret_mk]
  show recognizesStep info (.collection (layout.map (interpret recognizesStep))) tag
    (.collection entries) ↔ _
  simp only [recognizesStep, Layout.kind_map, hown, Layout.recognizesEntries_map]
  rfl

theorem recognizes_choice_iff {layout : Layout CompiledType} (hkind : layout.kind = .choice)
    {entries : Entries} : Recognizes ⟨info, .collection layout⟩ tag (.collection entries) ↔
      ∃ entry, entries = [entry] ∧ layout.RecognizesEntry Recognizes none tag entry := by
  have htag := CollectionKind.tag?_eq_none_iff.mpr hkind
  rw [Recognizes, interpret_mk]
  show recognizesStep info (.collection (layout.map (interpret recognizesStep))) tag
    (.collection entries) ↔ _
  simp only [recognizesStep, Layout.kind_map, htag, Layout.recognizesEntry_map]
  rfl

end Forms

section Reading

variable {rules : EncodingRules} {header : Header} {info : TypeInfo}
  {layout : Layout CompiledType} {tag? : Option Tag} {depth position : Nat} {octets : Octets}
  {value : Value}

/-- What the values of collection types are read from. -/
inductive ReadsCollection (layout : Layout CompiledType) (rules : EncodingRules) (header : Header)
    (depth position : Nat) : Option Tag → Octets → Value → Prop
  | list {tag? : Option Tag} {octets : Octets} {tag : Tag} {element : Component CompiledType}
    {items : List Value} (htag : layout.kind.tag? = some tag)
    (hlist : layout.kind.isList = true) (helement : layout.element? = some element)
    (hheader : header.tag = tag?.getD tag)
    (helements : ReadsElements rules (!header.length.isIndefinite)
      (Decoder.readItem (element.map fun type => type.read rules) depth) position () octets items) :
    ReadsCollection layout rules header depth position tag? octets (.list items)
  | entries {tag? : Option Tag} {octets : Octets} {tag : Tag} {entries : Entries}
    (htag : layout.kind.tag? = some tag) (hlist : layout.kind.isList = false)
    (hheader : header.tag = tag?.getD tag)
    (helements : ReadsElements rules (!header.length.isIndefinite)
      (Decoder.readComponent rules (layout.map fun type => type.read rules) depth) position none
        octets entries) :
    ReadsCollection layout rules header depth position tag? octets (.collection entries)
  | alternative {octets : Octets} {component : Component CompiledType} {value : Value}
    (hkind : layout.kind = .choice)
    (hmatch : layout.componentByTag? header.tag = some component)
    (hvalue : (component.type.read rules ⟨header, none, depth⟩).Reads position octets value) :
    ReadsCollection layout rules header depth position none octets (.choice component.name value)
  | unknown {octets : Octets} {name : String} {value : Value} (hkind : layout.kind = .choice)
    (hmatch : layout.componentByTag? header.tag = none)
    (hallows : layout.allowsUnknown none = true)
    (hunknown : (Decoder.readUnknown rules header depth).Reads position octets (name, value)) :
    ReadsCollection layout rules header depth position none octets (.choice name value)

theorem readsCollection_of_reads
    (h : (read ⟨info, .collection layout⟩ rules ⟨header, tag?, depth + 1⟩).Reads position octets
      value) : ReadsCollection layout rules header depth position tag? octets value := by
  cases htag : layout.kind.tag? with
  | some tag =>
      cases hlist : layout.kind.isList with
      | true =>
          obtain ⟨element, helement⟩ :=
            Option.ne_none_iff_exists'.mp (element?_ne_none_of_reads htag hlist h)
          obtain ⟨hheader, -, -, items, rfl, helements⟩ := (reads_list_iff htag hlist helement).mp h
          exact .list htag hlist helement hheader helements
      | false =>
          obtain ⟨hheader, -, -, entries, rfl, helements⟩ := (reads_entries_iff htag hlist).mp h
          exact .entries htag hlist hheader helements
  | none =>
      have hkind := CollectionKind.tag?_eq_none_iff.mp htag
      cases tag? with
      | some tag =>
          rw [read_tagged_choice hkind] at h
          exact absurd h not_reads_failAt
      | none =>
          cases hmatch : layout.componentByTag? header.tag with
          | some component =>
              obtain ⟨inner, rfl, hinner⟩ := (reads_choice_iff hkind hmatch).mp h
              exact .alternative hkind hmatch hinner
          | none =>
              obtain ⟨hallows, name, inner, rfl, hunknown⟩ :=
                (reads_unknown_choice_iff hkind hmatch).mp h
              exact .unknown hkind hmatch hallows hunknown

/-- What leaf values and captured elements have, and lists and collections whose parts have it, is
had by every value that is read. Only the outermost element can be an end-of-contents marker. -/
theorem of_reads (admits : Header → Prop) (property : Nat → Value → Prop)
    (hadmits : ∀ position form header, Header.IsForm rules position form header →
      header.isEndOfContents = false → admits header)
    (hleaf : ∀ depth value, value.IsLeaf → property depth value)
    (hcaptured : ∀ header depth position octets copied, admits header →
      (Captured.copyElement rules depth header).Reads position octets copied →
        property depth (.captured ⟨header.identifier, copied⟩))
    (hdeeper : ∀ depth value, property depth value → property (depth + 1) value)
    (hlist : ∀ depth items, (∀ item ∈ items, property depth item) →
      property (depth + 1) (.list items))
    (hcollection : ∀ depth entries, (∀ entry ∈ entries, property depth entry.2) →
      property (depth + 1) (.collection entries))
    {type : CompiledType} (hheader : admits header)
    (h : (type.read rules ⟨header, tag?, depth⟩).Reads position octets value) :
    property depth value := by
  have hunknown {header : Header} {depth position : Nat} {octets : Octets}
      {entry : String × Value} (hheader : admits header)
      (h : (Decoder.readUnknown rules header depth).Reads position octets entry) :
      property depth entry.2 := by
    obtain ⟨copied, hcopy, rfl⟩ := Decoder.reads_readUnknown_iff.mp h
    exact hcaptured _ _ _ _ _ hheader hcopy
  induction h using readsInduct with
  | builtin _ hreads =>
      obtain ⟨-, content, hvalue⟩ := exists_content_of_reads hreads
      exact hleaf _ _ (Builtin.isLeaf_of_decodeContent hvalue)
  | «alias» _ _ ih => exact hdeeper _ _ (ih hheader)
  | implicit _ _ _ ih => exact hdeeper _ _ (ih hheader)
  | explicit _ _ _ hform houter _ ih => exact hdeeper _ _ (ih (hadmits _ _ _ hform houter))
  | collection layout h ih =>
      cases readsCollection_of_reads h with
      | list htag hislist helement hheader helements =>
          refine hlist _ _ fun item hitem => ?_
          obtain ⟨_, _, _, _, _, _, hform, hnext, hreads⟩ := helements.exists_of_mem hitem
          have hmem := Layout.mem_components_of_element? helement
          exact ih _ hmem ((Decoder.reads_readItem_iff (isLocal_read _ rules)).mp hreads)
            (hadmits _ _ _ hform hnext)
      | entries htag hislist hheader helements =>
          refine hcollection _ _ fun entry hentry => ?_
          obtain ⟨_, _, found, _, previous?, _, hform, hnext, hreads⟩ :=
            helements.exists_of_mem hentry
          have hfound := hadmits _ _ _ hform hnext
          cases hmatch : layout.match? previous? found.tag with
          | none => exact hunknown hfound ((reads_unknown_iff hmatch).mp hreads).2.2
          | some component =>
              obtain ⟨-, -, hvalue, -⟩ := (reads_component_iff hmatch).mp hreads
              exact ih _ (Layout.mem_components_of_match? hmatch) hvalue hfound
      | alternative hkind hmatch hvalue =>
          refine hcollection _ _ (List.forall_mem_singleton.mpr ?_)
          exact ih _ (List.mem_of_find?_eq_some hmatch) hvalue hheader
      | unknown hkind hmatch hallows hread =>
          exact hcollection _ _ (List.forall_mem_singleton.mpr (hunknown hheader hread))
theorem isReference_of_reads {type : CompiledType}
    (h : (type.read rules ⟨header, tag?, depth⟩).Reads position octets value) :
    value.isReference = false := by
  refine of_reads (fun _ => True) (fun _ value => value.isReference = false)
    (fun _ _ _ _ _ => trivial) (fun _ value hleaf => ?_) (fun _ _ _ _ _ _ _ => rfl)
    (fun _ _ => id) (fun _ _ _ => rfl) (fun _ _ _ => rfl) trivial h
  exact hleaf.isReference

theorem accepts_of_reads {form : TypeForm CompiledType} (hregular : IsRegular ⟨info, form⟩)
    (h : (read ⟨info, form⟩ rules ⟨header, tag?, depth⟩).Reads position octets value)
    {values : NamedValues} {scope : Scope}
    (haccept : accept ⟨info, form⟩ values scope value = .ok ()) :
    form.Accepts values (scope.typed info.handle info.description) value := by
  have hreference := isReference_of_reads h
  rw [accept_mk_iff_of_not_isReference hregular.of_mk.1 hreference] at haccept
  exact haccept.1

theorem recognizesEntry_of_unknown {previous? : Option Nat} {entry : String × Value}
    (hmatch : layout.match? previous? header.tag = none)
    (h : (Decoder.readUnknown rules header depth).Reads position octets entry) :
    layout.RecognizesEntry Recognizes previous? header.tag entry := by
  obtain ⟨copied, -, rfl⟩ := Decoder.reads_readUnknown_iff.mp h
  rw [Layout.RecognizesEntry, hmatch]
  exact ⟨_, rfl, rfl⟩

theorem recognizesEntry_of_component {previous? : Option Nat} {component : Component CompiledType}
    (hmatch : layout.match? previous? header.tag = some component) {entry : String × Value}
    (hname : entry.1 = component.name) (h : component.type.Recognizes header.tag entry.2) :
    layout.RecognizesEntry Recognizes previous? header.tag entry := by
  rw [Layout.RecognizesEntry, hmatch]
  exact ⟨hname.symm, h⟩

theorem recognizesEntries_of_reads {definite : Bool} {previous? : Option Nat} {entries : Entries}
    (hcomponents : ∀ component ∈ layout.components, ∀ header position octets value,
      (component.type.read rules ⟨header, none, depth⟩).Reads position octets value →
        component.type.Recognizes header.tag value)
    (h : ReadsElements rules definite
      (Decoder.readComponent rules (layout.map fun type => type.read rules) depth) position
        previous? octets entries) : layout.RecognizesEntries Recognizes previous? entries := by
  induction h with
  | nil => trivial
  | @cons _ previous? _ _ _ _ header entry _ _ _ hentry _ ih =>
      cases hmatch : layout.match? previous? header.tag with
      | some component =>
          obtain ⟨hname, rfl, hreads, -⟩ := (reads_component_iff hmatch).mp hentry
          have hrecognizes :=
            hcomponents _ (Layout.mem_components_of_match? hmatch) _ _ _ _ hreads
          refine ⟨header.tag, recognizesEntry_of_component hmatch hname hrecognizes, ?_⟩
          rw [hmatch]
          exact ih
      | none =>
          obtain ⟨-, rfl, hunknown⟩ := (reads_unknown_iff hmatch).mp hentry
          refine ⟨header.tag, recognizesEntry_of_unknown hmatch hunknown, ?_⟩
          rw [hmatch]
          exact ih

theorem recognizes_of_readsCollection
    (hcomponents : ∀ component ∈ layout.components, ∀ header position octets value,
      (component.type.read rules ⟨header, none, depth⟩).Reads position octets value →
        component.type.Recognizes header.tag value)
    (h : ReadsCollection layout rules header depth position tag? octets value) :
    ∃ tag, Recognizes ⟨info, .collection layout⟩ tag value ∧ header.tag = tag?.getD tag := by
  cases h with
  | @list _ _ tag element items htag hlist helement hheader helements =>
      refine ⟨tag, recognizes_list_iff.mpr ⟨htag, ?_⟩, hheader⟩
      intro other hother item hitem
      obtain rfl : element = other := Option.some.inj (helement.symm.trans hother)
      obtain ⟨_, _, _, _, _, _, -, -, hreads⟩ := helements.exists_of_mem hitem
      have hread := (Decoder.reads_readItem_iff (isLocal_read element.type rules)).mp hreads
      exact ⟨_, hcomponents _ (Layout.mem_components_of_element? helement) _ _ _ _ hread⟩
  | @entries _ _ tag entries htag hlist hheader helements =>
      exact ⟨tag, (recognizes_entries_iff htag).mpr
        ⟨rfl, recognizesEntries_of_reads hcomponents helements⟩, hheader⟩
  | alternative hkind hmatch hvalue =>
      rw [← Layout.match?_of_ne_sequence (by simp [hkind]) none] at hmatch
      refine ⟨header.tag, (recognizes_choice_iff hkind).mpr ⟨_, rfl, ?_⟩, rfl⟩
      exact recognizesEntry_of_component hmatch rfl
        (hcomponents _ (Layout.mem_components_of_match? hmatch) _ _ _ _ hvalue)
  | unknown hkind hmatch _ hunknown =>
      rw [← Layout.match?_of_ne_sequence (by simp [hkind]) none] at hmatch
      refine ⟨header.tag, (recognizes_choice_iff hkind).mpr ⟨_, rfl, ?_⟩, rfl⟩
      exact recognizesEntry_of_unknown hmatch hunknown

theorem recognizes_of_reads {type : CompiledType}
    (h : (type.read rules ⟨header, tag?, depth⟩).Reads position octets value) :
    ∃ tag, type.Recognizes tag value ∧ header.tag = tag?.getD tag := by
  induction h using readsInduct with
  | builtin _ hreads =>
      obtain ⟨htag, -⟩ := exists_content_of_reads hreads
      exact ⟨_, recognizes_builtin_iff.mpr rfl, htag⟩
  | «alias» _ _ ih =>
      obtain ⟨tag, hrecognizes, htag⟩ := ih
      exact ⟨tag, recognizes_alias_iff.mpr hrecognizes, htag⟩
  | implicit tag _ _ ih =>
      obtain ⟨own, hrecognizes, htag⟩ := ih
      exact ⟨tag, recognizes_tagged_iff.mpr ⟨rfl, own, hrecognizes⟩, htag⟩
  | explicit tag h _ _ _ _ ih =>
      obtain ⟨own, hrecognizes, -⟩ := ih
      obtain ⟨htag, -⟩ := reads_explicit_iff.mp h
      exact ⟨tag, recognizes_tagged_iff.mpr ⟨rfl, own, hrecognizes⟩, htag⟩
  | collection layout h ih =>
      refine recognizes_of_readsCollection ?_ (readsCollection_of_reads h)
      intro component hmem header position octets value hreads
      obtain ⟨tag, hrecognizes, rfl⟩ := ih component hmem hreads
      exact hrecognizes

end Reading

/-- An entry that is recognized where the next element would be matched names what that is matched
to. -/
theorem component?_of_recognizes {layout : Layout CompiledType} (hregular : layout.IsRegular)
    (htypes : ∀ component ∈ layout.components, component.type.IsRegular) {values : NamedValues}
    {scope : Scope} {previous? : Option Nat} {tag : Tag} {entry : String × Value}
    (hrecognizes : layout.RecognizesEntry Recognizes previous? tag entry)
    (haccept : ∀ component, layout.component? entry.1 = some component →
      component.type.accept values scope entry.2 = .ok ()) :
    layout.component? entry.1 = layout.match? previous? tag := by
  rw [Layout.RecognizesEntry] at hrecognizes
  cases hmatch : layout.match? previous? tag with
  | some component =>
      simp only [hmatch] at hrecognizes
      exact hregular.component?_eq_some_iff.mpr
        ⟨Layout.mem_components_of_match? hmatch, hrecognizes.1⟩
  | none =>
      simp only [hmatch] at hrecognizes
      obtain ⟨captured, -, rfl⟩ := hrecognizes
      exact Layout.component?_eq_none_of_accept_captured htypes haccept

end CompiledType

end Asn1

import Asn1.Proofs.CompilationSteps
import Asn1.Proofs.ElementExtents

/-!
What becomes of the elements in decoded octets. Each is kept in the value, under the name of the
component that it belongs to or as a captured element, and only what is foreign to a collection is
captured. In a SEQUENCE this depends on the place of the element: components up to the last known
one are not considered any more, so that an addition of a later version may have a tag of theirs.
-/

namespace Asn1

open Read

namespace Layout

variable {τ : Type}

/-- Whether an element with the tag is foreign to a collection where it follows the last known
component. In a SEQUENCE that has to be an extension addition, and only the components behind it
could still take the element. -/
def IsForeign (layout : Layout τ) (last? : Option (Component τ)) (tag : Tag) : Prop :=
  if layout.kind = .sequence then
    ∃ last ∈ last?, last.isAddition = true ∧
      ∀ component ∈ layout.components, tag ∈ component.tags → component.index ≤ last.index
  else layout.extensible = true ∧ ∀ component ∈ layout.components, tag ∉ component.tags

/-- What decoding ensures for the entries of a collection. -/
structure IsArranged (layout : Layout τ) (entries : Entries) : Prop where
  ordered : layout.kind = .sequence → (layout.known entries).Pairwise (·.index < ·.index)
  distinct : (layout.known entries).Pairwise (·.index ≠ ·.index)
  foreign : ∀ before name captured after, entries = before ++ (name, .captured captured) :: after →
    layout.IsForeign (layout.known before).getLast? captured.identifier.tag

/-- Whether an entry keeps an element: it names a component with the tag, or holds the element. -/
def KeepsElement (layout : Layout τ) (element : PlacedElement) (entry : String × Value) : Prop :=
  match layout.component? entry.1 with
  | some component => element.header.tag ∈ component.tags
  | none => ∃ captured, captured.identifier = element.header.identifier ∧
      entry = (element.header.tag.text, .captured captured)

/-- Whether the elements are those that the entries of a collection value are decoded from. A CHOICE
has no element of its own. -/
def HasParts (layout : Layout τ) (rules : EncodingRules) (element : PlacedElement)
    (parts : List PlacedElement) : Prop :=
  if layout.kind = .choice then parts = [element] else element.IsMadeOf rules parts

section Matching

variable {layout : Layout τ} {recognizes : τ → Tag → Value → Prop} {entries : Entries}

/-- Entries that are recognized one after the other are recognized where they stand: after the last
known component before them. -/
theorem exists_recognizesEntry {previous? : Option Nat}
    (hnamed : ∀ entry ∈ entries, ∀ previous? tag,
      layout.RecognizesEntry recognizes previous? tag entry →
        layout.component? entry.1 = layout.match? previous? tag)
    (h : layout.RecognizesEntries recognizes previous? entries) {before after : Entries}
    {entry : String × Value} (hsplit : entries = before ++ entry :: after) :
    ∃ tag, layout.RecognizesEntry recognizes
      (((layout.known before).getLast?.map Component.index).or previous?) tag entry := by
  induction before generalizing previous? entries with
  | nil =>
      obtain rfl := hsplit
      obtain ⟨tag, hentry, -⟩ := h
      exact ⟨tag, hentry⟩
  | cons first before ih =>
      obtain rfl := hsplit
      obtain ⟨tag, hfirst, hrest⟩ := h
      -- the index that matching goes on from is that of the last component named
      rw [← hnamed first List.mem_cons_self _ _ hfirst] at hrest
      rw [lastIndex_cons]
      exact ih (fun entry hmem => hnamed entry (List.mem_cons_of_mem _ hmem)) hrest rfl

theorem isForeign_iff (hregular : layout.IsRegular) (hlist : layout.kind.isList = false)
    {last? : Option (Component τ)} (hlast : ∀ last ∈ last?, last ∈ layout.components) {tag : Tag} :
    layout.IsForeign last? tag ↔ layout.match? (last?.map Component.index) tag = none ∧
      layout.allowsUnknown (last?.map Component.index) = true := by
  rw [IsForeign]
  split
  · next hkind =>
    rw [match?, if_pos hkind, componentByTagFrom?_eq_none_iff hregular,
      allowsUnknown_sequence_iff hregular hkind hlast]
    constructor
    · rintro ⟨last, rfl, haddition, hbehind⟩
      refine ⟨fun component hmem hlt htag => ?_, last, rfl, haddition⟩
      exact absurd (hbehind component hmem htag) (Nat.not_le_of_lt hlt)
    · rintro ⟨hbehind, last, rfl, haddition⟩
      refine ⟨last, rfl, haddition, fun component hmem htag => ?_⟩
      by_contra hlt
      exact hbehind component hmem (Nat.lt_of_not_le hlt) htag
  · next hkind =>
    have hallows (previous? : Option Nat) :
        layout.allowsUnknown previous? = layout.extensible := by
      rw [allowsUnknown]
      cases hk : layout.kind <;> simp_all [CollectionKind.allowsUnknown, CollectionKind.isList]
    rw [match?_of_ne_sequence hkind, componentByTag?, List.find?_eq_none, hallows, and_comm]
    simp [Component.hasTag]

theorem isArranged_of_admits (hregular : layout.IsRegular) (hadmits : layout.Admits entries)
    (hcaptured : ∀ name captured, (name, Value.captured captured) ∈ entries →
      layout.component? name = none)
    (hnamed : ∀ entry ∈ entries, ∀ previous? tag,
      layout.RecognizesEntry recognizes previous? tag entry →
        layout.component? entry.1 = layout.match? previous? tag)
    (h : layout.RecognizesEntries recognizes none entries) : layout.IsArranged entries := by
  have hordered (hkind : layout.kind = .sequence) :
      (layout.known entries).Pairwise (·.index < ·.index) :=
    ((admits_sequence_iff hkind).mp hadmits).2.1
  refine ⟨hordered, ?_, ?_⟩
  · cases hkind : layout.kind with
    | sequence => exact (hordered hkind).imp fun hlt => hlt.ne
    | set => exact ((admits_set_iff hkind).mp hadmits).2.1
    | choice =>
        obtain ⟨entry, rfl⟩ := List.length_eq_one_iff.mp ((admits_choice_iff hkind).mp hadmits).2
        cases hfind : layout.component? entry.1 with
        | none =>
            rw [known_cons_of_none hfind]
            exact .nil
        | some component =>
            rw [known_cons_of_some hfind]
            exact List.pairwise_singleton _ _
    | sequenceOf | setOf =>
        have hlist := isList_of_admits hadmits
        simp [hkind, CollectionKind.isList] at hlist
  · intro before name captured after hsplit
    have hnone : layout.component? name = none := hcaptured name captured (by simp [hsplit])
    obtain ⟨tag, hentry⟩ := exists_recognizesEntry hnamed h hsplit
    have hmatch := hnamed _ (by simp [hsplit]) _ _ hentry
    rw [hnone, Option.or_none] at hmatch
    rw [RecognizesEntry, Option.or_none, ← hmatch] at hentry
    obtain ⟨found, rfl, heq⟩ := hentry
    obtain rfl := Value.captured.inj (Prod.mk.inj heq).2
    have hallows := hadmits.1 before _ after hsplit hnone
    rw [Option.or_none] at hallows
    refine (isForeign_iff hregular (isList_of_admits hadmits) ?_).mpr ⟨hmatch.symm, hallows⟩
    exact fun last hlast => mem_components_of_mem_known (List.mem_of_getLast? hlast)

end Matching

end Layout

namespace CompiledType

/-- Whether a value of a type keeps the elements inside an element, at all levels down to the
builtin types: each is an item, the entry of a component with its tag, or captured if foreign. -/
inductive Keeps (rules : EncodingRules) : CompiledType → PlacedElement → Value → Prop
  | builtin {info : TypeInfo} {builtin : Builtin} {element : PlacedElement} {value : Value} :
    Keeps rules ⟨info, .builtin builtin⟩ element value
  | alias {info : TypeInfo} {target : CompiledType} {element : PlacedElement} {value : Value}
    (htarget : Keeps rules target element value) : Keeps rules ⟨info, .alias target⟩ element value
  | implicit {info : TypeInfo} {tag : Tag} {inner : CompiledType} {element : PlacedElement}
    {value : Value} (hinner : Keeps rules inner element value) :
    Keeps rules ⟨info, .tagged tag .implicit inner⟩ element value
  | explicit {info : TypeInfo} {tag : Tag} {inner : CompiledType} {element part : PlacedElement}
    {value : Value} (hmade : element.IsMadeOf rules [part])
    (hinner : Keeps rules inner part value) :
    Keeps rules ⟨info, .tagged tag .explicit inner⟩ element value
  | list {info : TypeInfo} {layout : Layout CompiledType} {component : Component CompiledType}
    {element : PlacedElement} {parts : List PlacedElement} {items : List Value}
    (helement : layout.element? = some component) (hmade : element.IsMadeOf rules parts)
    (hlength : parts.length = items.length)
    (hitems : ∀ pair ∈ parts.zip items, Keeps rules component.type pair.1 pair.2) :
    Keeps rules ⟨info, .collection layout⟩ element (.list items)
  | entries {info : TypeInfo} {layout : Layout CompiledType} {element : PlacedElement}
    {parts : List PlacedElement} {entries : Entries} (hparts : layout.HasParts rules element parts)
    (hkept : List.Forall₂ layout.KeepsElement parts entries) (harranged : layout.IsArranged entries)
    (hvalues : ∀ pair ∈ parts.zip entries, ∀ component,
      layout.component? pair.2.1 = some component →
        Keeps rules component.type pair.1 pair.2.2) :
    Keeps rules ⟨info, .collection layout⟩ element (.collection entries)

section Reading

variable {rules : EncodingRules} {layout : Layout CompiledType} {depth : Nat}
  {values : NamedValues} {scope : Scope} {part : PlacedElement} {entry : String × Value}

/-- Whether a value of the type is read from an element under the type's own tag. -/
def ReadsFrom (type : CompiledType) (rules : EncodingRules) (depth : Nat) (part : PlacedElement)
    (value : Value) : Prop :=
  (type.read rules ⟨part.header, none, depth⟩).Reads part.position part.content value

/-- How the entry of a collection value is read from an element. -/
inductive ReadsPart (layout : Layout CompiledType) (rules : EncodingRules) (depth : Nat)
    (part : PlacedElement) (entry : String × Value) : Prop
  | component {component : Component CompiledType}
    (hfind : layout.component? entry.1 = some component) (htag : part.header.tag ∈ component.tags)
    (hreads : component.type.ReadsFrom rules depth part entry.2)
  | unknown (hreads : (Decoder.readUnknown rules part.header depth).Reads part.position part.content
      entry)

theorem readsPart_of_readComponent (hregular : layout.IsRegular) {previous? next? : Option Nat}
    (h : (Decoder.readComponent rules (layout.map fun type => type.read rules) depth previous?
      part.header).Reads part.position part.content (entry, next?)) :
    ReadsPart layout rules depth part entry := by
  cases hmatch : layout.match? previous? part.header.tag with
  | some component =>
      obtain ⟨hname, -, hreads, -⟩ := (reads_component_iff hmatch).mp h
      have hfind : layout.component? entry.1 = some component :=
        hregular.component?_eq_some_iff.mpr ⟨Layout.mem_components_of_match? hmatch, hname.symm⟩
      exact .component hfind (Layout.mem_tags_of_match? hmatch) hreads
  | none =>
      obtain ⟨-, -, hunknown⟩ := (reads_unknown_iff hmatch).mp h
      exact .unknown hunknown

theorem ReadsPart.keepsElement
    (htypes : ∀ component ∈ layout.components, component.type.IsRegular)
    (haccept : ∀ component, layout.component? entry.1 = some component →
      component.type.accept values scope entry.2 = .ok ())
    (h : ReadsPart layout rules depth part entry) : layout.KeepsElement part entry := by
  rw [Layout.KeepsElement]
  cases h with
  | component hfind htag =>
      rw [hfind]
      exact htag
  | unknown hreads =>
      obtain ⟨copied, -, rfl⟩ := Decoder.reads_readUnknown_iff.mp hreads
      rw [Layout.component?_eq_none_of_accept_captured htypes haccept]
      exact ⟨_, rfl, rfl⟩

theorem ReadsPart.reads (htypes : ∀ component ∈ layout.components, component.type.IsRegular)
    (haccept : ∀ component, layout.component? entry.1 = some component →
      component.type.accept values scope entry.2 = .ok ())
    (h : ReadsPart layout rules depth part entry) {component : Component CompiledType}
    (hfind : layout.component? entry.1 = some component) :
    component.type.ReadsFrom rules depth part entry.2 := by
  cases h with
  | component hother _ hreads =>
      obtain rfl := Option.some.inj (hother.symm.trans hfind)
      exact hreads
  | unknown hreads =>
      obtain ⟨copied, -, rfl⟩ := Decoder.reads_readUnknown_iff.mp hreads
      rw [Layout.component?_eq_none_of_accept_captured htypes haccept] at hfind
      contradiction

variable {info : TypeInfo} {header : Header} {position : Nat} {octets : Octets}

theorem keeps_list {component : Component CompiledType} {items : List Value}
    (helement : layout.element? = some component)
    (hcomponent : ∀ part, ∀ item ∈ items,
      component.type.ReadsFrom rules depth part item → component.type.Keeps rules part item)
    (h : ReadsElements rules (!header.length.isIndefinite)
      (Decoder.readItem (component.map fun type => type.read rules) depth) position () octets
        items) :
    Keeps rules ⟨info, .collection layout⟩ ⟨header, position, octets⟩ (.list items) := by
  obtain ⟨parts, hparts, hitems⟩ : ∃ parts,
      Elements rules (!header.length.isIndefinite) position octets parts ∧
        List.Forall₂ (component.type.ReadsFrom rules depth) parts items :=
    h.exists_elements_forall₂ fun hreads => by
      have hread := (Decoder.reads_readItem_iff (isLocal_read component.type rules)).mp hreads
      exact ⟨isContent_of_reads hread, hread⟩
  obtain ⟨hlength, hzip⟩ := List.forall₂_iff_zip.mp hitems
  refine .list helement (Elements.isMadeOf hparts) hlength ?_
  rintro ⟨part, item⟩ hmem
  exact hcomponent part item (List.of_mem_zip hmem).2 (hzip hmem)

theorem keeps_entries {entries : Entries} {element : PlacedElement} {parts : List PlacedElement}
    (hregular : layout.IsRegular)
    (htypes : ∀ component ∈ layout.components, component.type.IsRegular)
    (hadmits : layout.Admits entries)
    (haccept : ∀ entry ∈ entries, ∀ component, layout.component? entry.1 = some component →
      component.type.accept values scope entry.2 = .ok ())
    (hrecognizes : layout.RecognizesEntries Recognizes none entries)
    (hcomponents : ∀ component ∈ layout.components, ∀ part value,
      component.type.ReadsFrom rules depth part value →
        component.type.accept values scope value = .ok () → component.type.Keeps rules part value)
    (hparts : layout.HasParts rules element parts)
    (hreads : List.Forall₂ (ReadsPart layout rules depth) parts entries) :
    Keeps rules ⟨info, .collection layout⟩ element (.collection entries) := by
  obtain ⟨hlength, hzip⟩ := List.forall₂_iff_zip.mp hreads
  refine .entries hparts (List.forall₂_iff_zip.mpr ⟨hlength, fun {part entry} hmem => ?_⟩) ?_ ?_
  · exact (hzip hmem).keepsElement htypes (haccept entry (List.of_mem_zip hmem).2)
  · refine Layout.isArranged_of_admits hregular hadmits (fun name captured hmem => ?_)
      (fun entry hmem _ _ hentry => ?_) hrecognizes
    · exact Layout.component?_eq_none_of_accept_captured htypes (haccept _ hmem)
    · exact component?_of_recognizes hregular htypes hentry (haccept entry hmem)
  · rintro ⟨part, entry⟩ hmem component hfind
    have hentry := haccept entry (List.of_mem_zip hmem).2
    exact hcomponents component (Layout.mem_components_of_component? hfind) part entry.2
      ((hzip hmem).reads htypes hentry hfind) (hentry component hfind)

theorem keeps_choice (hregular : layout.IsRegular)
    (htypes : ∀ component ∈ layout.components, component.type.IsRegular)
    (hcomponents : ∀ component ∈ layout.components, ∀ part value scope,
      component.type.ReadsFrom rules depth part value →
        component.type.accept values scope value = .ok () → component.type.Keeps rules part value)
    {tag : Tag} (hkind : layout.kind = .choice)
    (hrecognizes : Recognizes ⟨info, .collection layout⟩ tag (.collection [entry]))
    (haccepts : (TypeForm.collection layout).Accepts values scope (.collection [entry]))
    (h : ReadsPart layout rules depth part entry) :
    Keeps rules ⟨info, .collection layout⟩ part (.collection [entry]) := by
  have hlist : layout.kind.isList = false := CollectionKind.isList_of_choice hkind
  obtain ⟨hadmits, hall⟩ := (TypeForm.accepts_entries_iff hlist).mp haccepts
  obtain ⟨_, hentry, hrecognizes⟩ := (recognizes_choice_iff hkind).mp hrecognizes
  obtain rfl := List.singleton_inj.mp hentry
  refine keeps_entries hregular htypes hadmits hall ⟨tag, hrecognizes, trivial⟩
    (fun component hmem part value => hcomponents component hmem part value _) ?_ (.cons h .nil)
  rw [Layout.HasParts, if_pos hkind]

theorem keeps_collection (hregular : layout.IsRegular)
    (htypes : ∀ component ∈ layout.components, component.type.IsRegular)
    (hcomponents : ∀ component ∈ layout.components, ∀ part value scope,
      component.type.ReadsFrom rules depth part value →
        component.type.accept values scope value = .ok () → component.type.Keeps rules part value)
    {tag? : Option Tag} {value : Value}
    (hreads : (read ⟨info, .collection layout⟩ rules ⟨header, tag?, depth + 1⟩).Reads position
      octets value) (haccepts : (TypeForm.collection layout).Accepts values scope value) :
    Keeps rules ⟨info, .collection layout⟩ ⟨header, position, octets⟩ value := by
  obtain ⟨tag, hrecognizes, -⟩ := recognizes_of_reads hreads
  cases readsCollection_of_reads hreads with
  | @list _ _ _ component items _ hlist helement _ helements =>
      have hitems := (TypeForm.accepts_list_iff hlist helement).mp haccepts
      refine keeps_list helement (fun part item hmem hitem => ?_) helements
      exact hcomponents component (Layout.mem_components_of_element? helement) part item _ hitem
        (hitems item hmem)
  | @entries _ _ own entries htag hlist _ helements =>
      obtain ⟨hadmits, hall⟩ := (TypeForm.accepts_entries_iff hlist).mp haccepts
      obtain ⟨parts, hparts, hentries⟩ : ∃ parts,
          Elements rules (!header.length.isIndefinite) position octets parts ∧
            List.Forall₂ (ReadsPart layout rules depth) parts entries :=
        helements.exists_elements_forall₂ fun hreads =>
          ⟨isContent_of_readComponent (fun _ _ => isContent_of_reads) hreads,
            readsPart_of_readComponent hregular hreads⟩
      have hkind : layout.kind ≠ .choice := by
        rintro hkind
        rw [CollectionKind.tag?_eq_none_iff.mpr hkind] at htag
        contradiction
      refine keeps_entries hregular htypes hadmits hall
        ((recognizes_entries_iff htag).mp hrecognizes).2
        (fun component hmem part value => hcomponents component hmem part value _) ?_ hentries
      rw [Layout.HasParts, if_neg hkind]
      exact hparts.isMadeOf
  | @alternative _ component value hkind hmatch hvalue =>
      rw [← Layout.match?_of_ne_sequence (by simp [hkind]) none] at hmatch
      have hfind : layout.component? component.name = some component :=
        hregular.component?_eq_some_iff.mpr ⟨Layout.mem_components_of_match? hmatch, rfl⟩
      exact keeps_choice hregular htypes hcomponents hkind hrecognizes haccepts
        (.component hfind (Layout.mem_tags_of_match? hmatch) hvalue)
  | unknown hkind _ _ hunknown =>
      exact keeps_choice hregular htypes hcomponents hkind hrecognizes haccepts (.unknown hunknown)

end Reading

/-- The value that is read from an element keeps the elements inside it, if the type accepts it. -/
theorem keeps_of_reads {rules : EncodingRules} {type : CompiledType} (hregular : type.IsRegular)
    {values : NamedValues} {scope : Scope} {header : Header} {tag? : Option Tag}
    {depth position : Nat} {octets : Octets} {value : Value}
    (hreads : (type.read rules ⟨header, tag?, depth⟩).Reads position octets value)
    (haccept : type.accept values scope value = .ok ()) :
    type.Keeps rules ⟨header, position, octets⟩ value := by
  induction hreads using readsInduct generalizing scope with
  | builtin => exact .builtin
  | «alias» h _ ih =>
      have htarget := hregular.of_mk.2 _ TypeForm.target_mem_types
      exact .alias (ih htarget (accepts_of_reads hregular h haccept))
  | implicit _ h _ ih =>
      have hinner := hregular.of_mk.2 _ TypeForm.inner_mem_types
      exact .implicit (ih hinner (accepts_of_reads hregular h haccept))
  | explicit _ h hreads hform hmark hend ih =>
      have hinner := hregular.of_mk.2 _ TypeForm.inner_mem_types
      have hone := Elements.cons hform hmark (isContent_of_reads hreads) (.nil hend)
      exact .explicit (Elements.isMadeOf hone) (ih hinner (accepts_of_reads hregular h haccept))
  | collection layout h ih =>
      obtain ⟨hlayout, htypes⟩ := hregular.of_mk
      have hinner (component) (hmem : component ∈ layout.components) :=
        htypes component.type (TypeForm.type_mem_types hmem)
      exact keeps_collection (hlayout layout rfl) hinner
        (fun component hmem part value scope hreads => ih component hmem hreads (hinner _ hmem))
        h (accepts_of_reads hregular h haccept)

end CompiledType

namespace Schema

variable {schema : Schema} {handle : Handle} {type : CompiledType} {decoder : Decoder}
  {octets : Octets} {value : Value}

/-- Decoding keeps all elements, at all levels: known ones in the order of their components or at
least without repetition, and only foreign ones as captured elements. -/
theorem Reachable.decode_keeps_elements (h : schema.Reachable)
    (hcompiled : schema.compiled handle = .ok type)
    (hdecode : schema.decode handle decoder octets = .ok value) :
    ∃ element, (∀ other, other.Fills decoder.rules octets ↔ other = element) ∧
      type.Keeps decoder.rules element value := by
  obtain ⟨form, header, content, rfl, hform, hreads, haccept⟩ :=
    (decode_eq_ok_iff hcompiled).mp hdecode
  rw [accept_eq_ok_iff hcompiled] at haccept
  have hfills : PlacedElement.Fills decoder.rules (form ++ content)
      ⟨header, form.length, content⟩ := ⟨form, rfl, hform, rfl⟩
  refine ⟨_, fun other => ⟨fun hother => hother.unique hfills, ?_⟩,
    CompiledType.keeps_of_reads (h.consistent.isRegular hcompiled) hreads haccept⟩
  rintro rfl
  exact hfills

/-- The element behind the addition `x` is not known to the sequence and captured. -/
theorem decode_keeps_elements_defaultedSequence :
    let octets : Octets := [0x30, 0x06, 0x02, 0x01, 0x05, 0x85, 0x01, 0x07]
    let value : Value := .collection [("x", .integer ⟨5, by decide, by decide⟩),
      ((Tag.context 5).text, .captured ⟨⟨.context 5, false⟩, [0x85, 0x01, 0x07]⟩)]
    defaultedSequence.decode ⟨2⟩ ⟨.der, 2⟩ octets = .ok value ∧
      ∃ element, (∀ other, PlacedElement.Fills .der octets other ↔ other = element) ∧
        CompiledType.Keeps .der ⟨⟨⟨2⟩, none, []⟩, .collection defaultedLayout⟩ element value := by
  intro octets value
  have hdecode : defaultedSequence.decode ⟨2⟩ ⟨.der, 2⟩ octets = .ok value := by decide +kernel
  exact ⟨hdecode, Reachable.decode_keeps_elements (reachable_extendedSequence _ _ _)
    compiled_defaultedSequence hdecode⟩

/-- An element with the tag of the component `a` is captured behind the addition `x`. In a later
version of the type it can be another addition. -/
theorem exists_captured_with_known_tag :
    let first := extendedSequence [⟨"a", .handle ⟨0⟩, false, none⟩]
      [⟨"x", .handle ⟨1⟩, false, none⟩] []
    let second := extendedSequence [⟨"a", .handle ⟨0⟩, false, none⟩]
      [⟨"x", .handle ⟨1⟩, false, none⟩, ⟨"y", .handle ⟨0⟩, false, none⟩] []
    let layout : Layout CompiledType := ⟨.sequence, true,
      [⟨"a", 0, 1, false, none, .handle ⟨0⟩,
          ⟨⟨⟨0⟩, none, []⟩, .builtin .integer⟩, false, [.integer]⟩,
        ⟨"x", 1, 2, false, none, .handle ⟨1⟩,
          ⟨⟨⟨1⟩, none, []⟩, .builtin .boolean⟩, false, [.boolean]⟩]⟩
    let known : Entries := [("a", .integer ⟨5, by decide, by decide⟩), ("x", .boolean true)]
    let octets : Octets := [0x30, 0x09, 0x02, 0x01, 0x05, 0x01, 0x01, 0xff, 0x02, 0x01, 0x07]
    first.Reachable ∧ first.compiled ⟨2⟩ = .ok ⟨⟨⟨2⟩, none, []⟩, .collection layout⟩ ∧
      (∃ component ∈ layout.components, Tag.integer ∈ component.tags) ∧
        first.decode ⟨2⟩ ⟨.der, 2⟩ octets = .ok (.collection (known ++
          [(Tag.integer.text, .captured ⟨⟨.integer, false⟩, [0x02, 0x01, 0x07]⟩)])) ∧
          second.decode ⟨2⟩ ⟨.der, 2⟩ octets = .ok (.collection (known ++
            [("y", .integer ⟨7, by decide, by decide⟩)])) := by
  refine ⟨reachable_extendedSequence _ _ _, rfl, ⟨_, List.mem_cons_self, List.mem_cons_self⟩,
    ?_, ?_⟩
  · decide +kernel
  · decide +kernel

end Schema

end Asn1

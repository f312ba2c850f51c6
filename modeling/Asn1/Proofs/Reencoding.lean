import Asn1.Proofs.DecodedForms
import Asn1.Proofs.ElementTrees
import Asn1.Proofs.WrittenElements

/-!
Encoding what was decoded. Nothing that was read gets lost in the canonical form that is written,
captured elements included. Whether the form is read back depends on the components that it leaves
out because they equal their defaults, as other entries may have stood behind them.
-/

namespace Asn1

open Read Results

namespace CompiledType

def preservesStep (_ : TypeInfo) : TypeForm (Value → Value → Prop) → Value → Value → Prop
  | .builtin _, value, other => value = other
  | .alias target, value, other => target value other
  | .tagged _ _ inner, value, other => inner value other
  | .collection layout, .list items, .list others => ∀ element, layout.element? = some element →
      List.Forall₂ element.type items others
  | .collection layout, .collection entries, .collection others =>
    (others.filter layout.isUnknown).Perm (entries.filter layout.isUnknown) ∧
      ∀ entry ∈ entries, ∀ component, layout.component? entry.1 = some component →
        ∃ value, ((entry.1, value) ∈ others ∨ component.default? = some value) ∧
          component.type entry.2 value
  | .collection _, _, _ => False

/-- Whether another value holds all that a value of the type does. A component that is left out
holds its default, and what is unknown has to be there as it is. -/
def Preserves (type : CompiledType) : Value → Value → Prop :=
  type.interpret preservesStep

section Preserving

variable {info : TypeInfo} {value other : Value}

theorem preserves_builtin {builtin : Builtin} : Preserves ⟨info, .builtin builtin⟩ value value := by
  rw [Preserves, interpret_mk]
  rfl

theorem preserves_alias_iff {target : CompiledType} :
    Preserves ⟨info, .alias target⟩ value other ↔ target.Preserves value other := by
  rw [Preserves, interpret_mk]
  rfl

theorem preserves_tagged_iff {tag : Tag} {method : TagMethod} {inner : CompiledType} :
    Preserves ⟨info, .tagged tag method inner⟩ value other ↔ inner.Preserves value other := by
  rw [Preserves, interpret_mk]
  rfl

theorem preserves_list_iff {layout : Layout CompiledType} {items others : List Value} :
    Preserves ⟨info, .collection layout⟩ (.list items) (.list others) ↔
      ∀ element, layout.element? = some element →
        List.Forall₂ element.type.Preserves items others := by
  rw [Preserves, interpret_mk]
  change (∀ element, (layout.map (interpret preservesStep)).element? = some element → _) ↔ _
  rw [Layout.element?_map]
  cases layout.element? <;> simp [Component.map, Preserves]

theorem preserves_entries_iff {layout : Layout CompiledType} {entries others : Entries} :
    Preserves ⟨info, .collection layout⟩ (.collection entries) (.collection others) ↔
      (others.filter layout.isUnknown).Perm (entries.filter layout.isUnknown) ∧
        ∀ entry ∈ entries, ∀ component, layout.component? entry.1 = some component →
          ∃ value, ((entry.1, value) ∈ others ∨ component.default? = some value) ∧
            component.type.Preserves entry.2 value := by
  have hunknown : (layout.map (interpret preservesStep)).isUnknown = layout.isUnknown := by
    funext entry
    rw [Layout.isUnknown, Layout.component?_map, Option.isNone_map]
    rfl
  rw [Preserves, interpret_mk]
  change ((others.filter (layout.map (interpret preservesStep)).isUnknown).Perm
    (entries.filter (layout.map (interpret preservesStep)).isUnknown) ∧
      ∀ entry ∈ entries, ∀ component,
        (layout.map (interpret preservesStep)).component? entry.1 = some component → _) ↔ _
  simp only [hunknown, forall_component?_map_iff]
  rfl

end Preserving

/-- Whether no tag in a type is that of the end-of-contents marker. -/
def IsUnmarked (type : CompiledType) : Prop :=
  ∀ inner, type.Reaches inner →
    ∀ tag method target, inner.form = .tagged tag method target → tag ≠ Tag.universal 0

theorem IsUnmarked.of_mk {info : TypeInfo} {form : TypeForm CompiledType}
    (h : IsUnmarked ⟨info, form⟩) :
    (∀ tag method target, form = .tagged tag method target → tag ≠ Tag.universal 0) ∧
      ∀ inner ∈ form.types, inner.IsUnmarked :=
  forall_reaches_mk_iff.mp h

/-- What becomes of a value that was read from an element with the header: it is in the form that is
written, and the form is read back if it is one of the type's values and recognized. -/
structure Reencodes (type : CompiledType) (values : NamedValues) (buffering : Bool)
    (tag? : Option Tag) (depth : Nat) (header : Header) (value form : Value) : Prop where
  preserves : type.Preserves value form
  writes : ∃ octets, type.Writes ⟨.ber, buffering⟩ form tag? octets
  decodes : ∀ scope tag octets, type.accept values scope form = .ok () →
    type.Recognizes tag form → octets.length < Length.sizeBound →
      type.Writes ⟨.ber, buffering⟩ form tag? octets → ∃ identifier,
        identifier.tag = tag?.getD tag ∧
          (header.isEndOfContents = false → identifier.isEndOfContents = false) ∧
            type.DecodesAs .ber form tag? depth identifier octets

/-- Whether all values that are read from elements can be encoded so. -/
def IsReencodable (type : CompiledType) (values : NamedValues) (buffering : Bool)
    (tag? : Option Tag) (depth : Nat) : Prop :=
  ∀ start outer header position content value, Header.IsForm .ber start outer header →
    (type.read .ber ⟨header, tag?, depth⟩).Reads position content value →
      ∀ scope form, type.canonicalize values scope value = .ok form →
        type.Reencodes values buffering tag? depth header value form.value

section Forms

variable {values : NamedValues} {buffering : Bool} {info : TypeInfo} {tag? : Option Tag}
  {depth : Nat}

theorem writesConstructed_ber (buffering : Bool) :
    Encoder.writesConstructed ⟨.ber, buffering⟩ = true := by
  cases buffering <;> rfl

theorem isReencodable_builtin {builtin : Builtin} (htag? : tag? ≠ some (Tag.universal 0)) :
    IsReencodable ⟨info, .builtin builtin⟩ values buffering tag? (depth + 1) := by
  intro start outer header position content value _ hreads scope result hresult
  have hregular : IsRegular ⟨info, .builtin builtin⟩ :=
    forall_reaches_mk_iff.mpr ⟨by rintro _ ⟨⟩, by simp [TypeForm.types]⟩
  obtain ⟨canonical, ⟨haccept, rfl⟩, heq, -⟩ :=
    exists_canonical_of_reads hregular hreads hresult
  have htag := getD_ne_universal htag? builtin.tag_ne_universal
  rw [heq]
  refine ⟨preserves_builtin, ?_, ?_⟩
  · obtain ⟨content, hcontent⟩ := Builtin.exists_encodeContent
      (show EncodingRules.ber.isRestricted = false from rfl) haccept
    refine ⟨_, writes_builtin_iff.mpr (Encoder.builtin_eq_done_iff.mpr
      ⟨content, hcontent, .inl ⟨?_, rfl⟩⟩)⟩
    rintro ⟨hrules, -⟩
    exact absurd hrules Bool.noConfusion
  · intro scope tag octets _ hrecognizes _ hwrites
    obtain rfl := recognizes_builtin_iff.mp hrecognizes
    obtain ⟨constructed, hdecodes⟩ := decodesAs_builtin htag haccept hwrites
    exact ⟨_, rfl, fun _ => Identifier.isEndOfContents_eq_false htag, hdecodes⟩

theorem isReencodable_alias {target : CompiledType} (hregular : IsRegular ⟨info, .alias target⟩)
    (h : target.IsReencodable values buffering tag? depth) :
    IsReencodable ⟨info, .alias target⟩ values buffering tag? (depth + 1) := by
  intro start outer header position content value hform hreads scope result hresult
  obtain ⟨canonical, hcanonical, heq, haccepts⟩ :=
    exists_canonical_of_reads hregular hreads hresult
  rw [read_alias] at hreads
  obtain ⟨hpreserves, ⟨octets, hwrites⟩, hdecodes⟩ := h _ _ _ _ _ _ hform hreads _ _ hcanonical
  rw [heq]
  refine ⟨preserves_alias_iff.mpr hpreserves, ⟨octets, writes_alias_iff.mpr hwrites⟩, ?_⟩
  intro scope tag octets haccept hrecognizes hsize hwrites
  obtain ⟨identifier, htag, hmark, hdecodesAs⟩ := hdecodes _ tag octets (haccepts scope haccept)
    (recognizes_alias_iff.mp hrecognizes) hsize (writes_alias_iff.mp hwrites)
  exact ⟨identifier, htag, hmark, decodesAs_alias hdecodesAs⟩

theorem isReencodable_implicit {given : Tag} {inner : CompiledType}
    (hregular : IsRegular ⟨info, .tagged given .implicit inner⟩)
    (h : inner.IsReencodable values buffering (some (tag?.getD given)) depth) :
    IsReencodable ⟨info, .tagged given .implicit inner⟩ values buffering tag? (depth + 1) := by
  intro start outer header position content value hform hreads scope result hresult
  obtain ⟨canonical, hcanonical, heq, haccepts⟩ :=
    exists_canonical_of_reads hregular hreads hresult
  rw [read_implicit] at hreads
  obtain ⟨hpreserves, ⟨octets, hwrites⟩, hdecodes⟩ := h _ _ _ _ _ _ hform hreads _ _ hcanonical
  rw [heq]
  refine ⟨preserves_tagged_iff.mpr hpreserves, ⟨octets, writes_implicit_iff.mpr hwrites⟩, ?_⟩
  intro scope tag octets haccept hrecognizes hsize hwrites
  obtain ⟨rfl, own, hown⟩ := recognizes_tagged_iff.mp hrecognizes
  obtain ⟨identifier, htag, hmark, hdecodesAs⟩ := hdecodes _ own octets (haccepts scope haccept)
    hown hsize (writes_implicit_iff.mp hwrites)
  exact ⟨identifier, htag, hmark, decodesAs_implicit hdecodesAs⟩

theorem isReencodable_explicit {given : Tag} {inner : CompiledType}
    (hregular : IsRegular ⟨info, .tagged given .explicit inner⟩)
    (h : inner.IsReencodable values buffering none depth) :
    IsReencodable ⟨info, .tagged given .explicit inner⟩ values buffering tag? (depth + 1) := by
  intro start outer header position content value _ hreads scope result hresult
  obtain ⟨canonical, hcanonical, heq, haccepts⟩ :=
    exists_canonical_of_reads hregular hreads hresult
  obtain ⟨-, -, -, form, innerHeader, _, _, -, hform, hheader, hinner, -⟩ :=
    reads_explicit_iff.mp hreads
  obtain ⟨hpreserves, ⟨octets, hwrites⟩, hdecodes⟩ := h _ _ _ _ _ _ hform hinner _ _ hcanonical
  obtain ⟨whole, hwhole⟩ :=
    Encoder.exists_constructed (writesConstructed_ber buffering) (tag?.getD given) hwrites
  rw [heq]
  refine ⟨preserves_tagged_iff.mpr hpreserves, ⟨whole, writes_explicit_iff.mpr hwhole⟩, ?_⟩
  intro scope tag octets haccept hrecognizes hsize hwrites
  obtain ⟨rfl, own, hown⟩ := recognizes_tagged_iff.mp hrecognizes
  refine ⟨_, rfl, fun _ => Identifier.isEndOfContents_constructed _,
    decodesAs_explicit hsize hwrites fun c hc hwritesInner => ?_⟩
  obtain ⟨identifier, -, hmark, hdecodesAs⟩ :=
    hdecodes _ own c (haccepts scope haccept) hown hc hwritesInner
  exact ⟨identifier, hmark hheader, hdecodesAs⟩

theorem reencodes_list {layout : Layout CompiledType} (hregular : layout.IsRegular) {tag : Tag}
    (htag : layout.kind.tag? = some tag) (hlist : layout.kind.isList = true)
    {element : Component CompiledType} (helement : layout.element? = some element)
    (h : element.type.IsReencodable values buffering none depth) (header : Header)
    {definite : Bool} {position : Nat} {octets : Octets} {items : List Value}
    (helements : ReadsElements .ber definite
      (Decoder.readItem (element.map fun type => type.read .ber) depth) position () octets items)
    {scope : Scope} {forms : List CanonicalForm}
    (hforms : List.Forall₂ (fun item form =>
      element.type.canonicalize values scope item = .ok form) items forms) :
    Reencodes ⟨info, .collection layout⟩ values buffering tag? (depth + 1) header (.list items)
      (.list (forms.map CanonicalForm.value)) := by
  have hitems : List.Forall₂ (fun item form => ∃ header, header.isEndOfContents = false ∧
      element.type.Reencodes values buffering none depth header item form)
        items (forms.map CanonicalForm.value) := by
    rw [List.forall₂_map_right_iff]
    refine forall₂_imp_of_mem hforms fun item hitem form _ hform => ?_
    obtain ⟨_, _, header, _, _, _, hheaderForm, hheader, hreads⟩ := helements.exists_of_mem hitem
    have hread := (Decoder.reads_readItem_iff (isLocal_read element.type .ber)).mp hreads
    exact ⟨header, hheader, h _ _ _ _ _ _ hheaderForm hread _ _ hform⟩
  refine ⟨?_, ?_, ?_⟩
  · refine preserves_list_iff.mpr fun other hother => ?_
    obtain rfl : element = other := Option.some.inj (helement.symm.trans hother)
    exact hitems.imp fun _ _ ⟨_, _, hitem⟩ => hitem.preserves
  · obtain ⟨pieces, hpieces⟩ := forall₂_exists_iff.mpr fun form hmem => by
      obtain ⟨_, _, _, _, hitem⟩ := forall₂_exists_of_mem hitems hmem
      exact hitem.writes
    obtain ⟨whole, hwhole⟩ := Encoder.exists_constructed (writesConstructed_ber buffering)
      (tag?.getD tag) ((content_list_eq_done_iff hlist helement).mpr ⟨pieces, rfl, hpieces⟩)
    exact ⟨whole, (writes_collection_iff htag).mpr hwhole⟩
  · intro scope own octets haccept hrecognizes hsize hwrites
    have hall := (TypeForm.accepts_list_iff hlist helement).mp
      (accepts_collection_of_accept hregular rfl haccept)
    obtain ⟨hown, hrecognized⟩ := recognizes_list_iff.mp hrecognizes
    obtain rfl := Option.some.inj (htag.symm.trans hown)
    refine ⟨_, rfl, fun _ => Identifier.isEndOfContents_constructed _,
      decodesAs_list htag hlist helement hsize hwrites fun form hmem c hc hwritesItem => ?_⟩
    obtain ⟨tag, htagItem⟩ := hrecognized element helement form hmem
    obtain ⟨_, _, _, hheader, hitem⟩ := forall₂_exists_of_mem hitems hmem
    obtain ⟨identifier, -, hmark, hdecodes⟩ :=
      hitem.decodes _ tag c (hall form hmem) htagItem hc hwritesItem
    exact ⟨identifier, hmark hheader, hdecodes⟩

end Forms

section Entries

variable {values : NamedValues} {scope : Scope} {buffering : Bool} {depth : Nat}
  {layout : Layout CompiledType} {header : Header} {entry : String × Value}

/-- What the types of components are like whose values can be encoded again. -/
structure HasReencodable (layout : Layout CompiledType) (values : NamedValues) (buffering : Bool)
    (depth : Nat) : Prop where
  regular : layout.IsRegular
  types : ∀ component ∈ layout.components, component.type.IsRegular
  ranges : ∀ component ∈ layout.components, component.type.HasRangesOnly
  reencodable : ∀ component ∈ layout.components,
    component.type.IsReencodable values buffering none depth

theorem ReadsEntry.reencodes (hlayout : HasReencodable layout values buffering depth)
    {start : Nat} {outer : Octets} (hform : Header.IsForm .ber start outer header)
    (h : ReadsEntry layout .ber depth header entry) {component : Component CompiledType}
    (hfind : layout.component? entry.1 = some component) {form : CanonicalForm}
    (hcanonical : component.type.canonicalize values scope entry.2 = .ok form) :
    component.type.Reencodes values buffering none depth header entry.2 form.value := by
  have hmem := Layout.mem_components_of_component? hfind
  obtain ⟨_, _, hreads⟩ := h.exists_reads hlayout.types hlayout.ranges hfind hcanonical
  exact hlayout.reencodable component hmem _ _ _ _ _ _ hform hreads _ _ hcanonical

/-- What becomes of an entry that stays in the canonical form. -/
structure ReencodesEntry (layout : Layout CompiledType) (values : NamedValues) (buffering : Bool)
    (depth : Nat) (header : Header) (entry : String × Value) : Prop where
  writes : ∃ piece, WritesEntry layout ⟨.ber, buffering⟩ entry piece
  decodes : ∀ scope previous? tag piece,
    (∀ component, layout.component? entry.1 = some component →
      component.type.accept values scope entry.2 = .ok ()) →
    (layout.component? entry.1 = none → layout.allowsUnknown previous? = true) →
    layout.RecognizesEntry Recognizes previous? tag entry → piece.length < Length.sizeBound →
      WritesEntry layout ⟨.ber, buffering⟩ entry piece → ∃ identifier, identifier.tag = tag ∧
        (header.isEndOfContents = false → identifier.isEndOfContents = false) ∧
          ReadsElement .ber (Decoder.readComponent .ber (layout.map fun type => type.read .ber)
            depth previous?) identifier piece
              (entry, ((layout.component? entry.1).map Component.index).or previous?)

theorem reencodesEntry_of_component (hlayout : HasReencodable layout values buffering depth)
    {component : Component CompiledType} (hfind : layout.component? entry.1 = some component)
    {source : Value}
    (h : component.type.Reencodes values buffering none depth header source entry.2) :
    ReencodesEntry layout values buffering depth header entry := by
  have hwritesEntry (piece : Octets) : WritesEntry layout ⟨.ber, buffering⟩ entry piece ↔
      component.type.Writes ⟨.ber, buffering⟩ entry.2 none piece := by
    rw [WritesEntry, hfind]
  refine ⟨?_, ?_⟩
  · obtain ⟨piece, hpiece⟩ := h.writes
    exact ⟨piece, (hwritesEntry piece).mpr hpiece⟩
  · intro scope previous? tag piece haccept _ hrecognizes hsize hwrites
    have hmatch := component?_of_recognizes hlayout.regular hlayout.types hrecognizes haccept
    rw [hfind] at hmatch
    rw [Layout.RecognizesEntry, ← hmatch] at hrecognizes
    obtain ⟨hname, hrecognizes⟩ := hrecognizes
    obtain ⟨identifier, rfl, hmark, hdecodes⟩ := h.decodes scope tag piece (haccept component hfind)
      hrecognizes hsize ((hwritesEntry piece).mp hwrites)
    refine ⟨identifier, rfl, hmark, ?_⟩
    rw [hfind]
    exact readsElement_component hmatch.symm hname Bool.noConfusion hdecodes

theorem reencodesEntry_of_unknown (hlayout : HasReencodable layout values buffering depth)
    {start position : Nat} {outer content : Octets} (hform : Header.IsForm .ber start outer header)
    (hreads : (Decoder.readUnknown .ber header depth).Reads position content entry)
    (hnone : layout.component? entry.1 = none) :
    ReencodesEntry layout values buffering depth header entry := by
  obtain ⟨captured, rfl, hidentifier, helement⟩ := exists_captured_of_reads hform hreads
  have hwritesEntry (piece : Octets) : WritesEntry layout ⟨.ber, buffering⟩
      (captured.identifier.tag.text, .captured captured) piece ↔ captured.octets = piece := by
    rw [WritesEntry, hnone]
    exact Written.done_inj
  refine ⟨⟨_, (hwritesEntry _).mpr rfl⟩, ?_⟩
  intro scope previous? tag piece haccept hallows hrecognizes hsize hwrites
  obtain rfl := (hwritesEntry piece).mp hwrites
  have hmatch := component?_of_recognizes hlayout.regular hlayout.types hrecognizes haccept
  rw [hnone] at hmatch
  rw [Layout.RecognizesEntry, ← hmatch] at hrecognizes
  obtain ⟨other, rfl, heq⟩ := hrecognizes
  obtain rfl := Value.captured.inj (Prod.mk.inj heq).2
  refine ⟨captured.identifier, rfl, fun hmark => hidentifier ▸ hmark, ?_⟩
  rw [hnone]
  exact readsElement_unknown hmatch.symm (hallows hnone) helement

/-- The entries that stay can be written, where each stems from an element that was read. -/
theorem reencodesEntry_of_kept (hlayout : HasReencodable layout values buffering depth)
    {entries kept : Entries} (hkept : layout.IsKept values scope entries kept) {p : Header → Prop}
    (hentries : ∀ entry ∈ entries, ∃ header,
      (p header ∧ ∃ start outer, Header.IsForm .ber start outer header) ∧
        ReadsEntry layout .ber depth header entry) :
    ∀ entry ∈ kept, ∃ header, p header ∧
      ReencodesEntry layout values buffering depth header entry := by
  intro entry hentry
  obtain ⟨header, ⟨hp, start, outer, hform⟩, hstems⟩ :=
    exists_stemsFrom_of_kept hlayout.types hlayout.ranges hkept hentries entry hentry
  refine ⟨header, hp, ?_⟩
  cases hstems with
  | component hfind hreads hcanonical hvalue =>
      have hmem := Layout.mem_components_of_component? hfind
      have hreencodes := hlayout.reencodable _ hmem _ _ _ _ _ _ hform hreads _ _ hcanonical
      rw [hvalue] at hreencodes
      exact reencodesEntry_of_component hlayout hfind hreencodes
  | unknown hnone hreads => exact reencodesEntry_of_unknown hlayout hform hreads hnone

theorem preserves_of_kept {info : TypeInfo} (hlayout : HasReencodable layout values buffering depth)
    {entries kept : Entries} (hkept : layout.IsKept values scope entries kept) {p : Header → Prop}
    (hentries : ∀ entry ∈ entries, ∃ header,
      (p header ∧ ∃ start outer, Header.IsForm .ber start outer header) ∧
        ReadsEntry layout .ber depth header entry) :
    Preserves ⟨info, .collection layout⟩ (.collection entries) (.collection kept) := by
  refine preserves_entries_iff.mpr ⟨hkept.unknown, ?_⟩
  intro entry hentry component hfind
  obtain ⟨form, hcanonical, hfate⟩ := hkept.fates entry hentry component hfind
  obtain ⟨header, ⟨-, start, outer, hform⟩, hread⟩ := hentries entry hentry
  exact ⟨form.value, hfate, (hread.reencodes hlayout hform hfind hcanonical).preserves⟩

/-- Entries are read from the pieces that are written for them if they are recognized and may stand
where they stand. -/
theorem readsPieces_of_recognizes (hlayout : HasReencodable layout values buffering depth)
    {entries : Entries} {pieces : List Octets}
    (hpieces : List.Forall₂ (WritesEntry layout ⟨.ber, buffering⟩) entries pieces)
    (hsize : pieces.flatten.length < Length.sizeBound)
    (hentries : ∀ entry ∈ entries, ∃ header, header.isEndOfContents = false ∧
      ReencodesEntry layout values buffering depth header entry)
    (haccept : ∀ entry ∈ entries, ∀ component, layout.component? entry.1 = some component →
      component.type.accept values scope entry.2 = .ok ())
    {previous? : Option Nat} (hallows : layout.AllowsAfter previous? entries)
    (hrecognizes : layout.RecognizesEntries Recognizes previous? entries) :
    ReadsPieces .ber (Decoder.readComponent .ber (layout.map fun type => type.read .ber) depth)
      previous? pieces entries := by
  induction hpieces generalizing previous? with
  | nil => exact .nil
  | cons hpiece _ ih =>
      rw [List.forall_mem_cons] at hentries haccept
      obtain ⟨⟨header, hheader, hentry⟩, hentries⟩ := hentries
      obtain ⟨hacceptEntry, haccept⟩ := haccept
      obtain ⟨hallowsEntry, hallows⟩ := Layout.allowsAfter_cons_iff.mp hallows
      obtain ⟨tag, hrecognizesEntry, hrecognizes⟩ := hrecognizes
      -- Encoding goes on from the component that the entry names, decoding from the one that its
      -- tag is matched to. They are the same as the value of the entry is accepted.
      rw [← component?_of_recognizes hlayout.regular hlayout.types hrecognizesEntry
        hacceptEntry] at hrecognizes
      simp only [List.flatten_cons, List.length_append] at hsize
      obtain ⟨identifier, -, hmark, helement⟩ := hentry.decodes scope previous? tag _ hacceptEntry
        hallowsEntry hrecognizesEntry (by omega) hpiece
      exact .cons (hmark hheader) helement (ih (by omega) hentries haccept hallows hrecognizes)

variable {info : TypeInfo} {tag? : Option Tag}

theorem reencodes_entries {tag : Tag} (htag : layout.kind.tag? = some tag)
    (hlist : layout.kind.isList = false) (hlayout : HasReencodable layout values buffering depth)
    {entries kept : Entries} (hkept : layout.IsKept values scope entries kept)
    (hentries : ∀ entry ∈ entries, ∃ header,
      (header.isEndOfContents = false ∧ ∃ start outer, Header.IsForm .ber start outer header) ∧
        ReadsEntry layout .ber depth header entry)
    (header : Header) :
    Reencodes ⟨info, .collection layout⟩ values buffering tag? (depth + 1) header
      (.collection entries) (.collection kept) := by
  have hreencodes := reencodesEntry_of_kept hlayout hkept hentries
  refine ⟨preserves_of_kept hlayout hkept hentries, ?_, ?_⟩
  · obtain ⟨pieces, hpieces⟩ := forall₂_exists_iff.mpr fun entry hentry => by
      obtain ⟨_, -, hentryReencodes⟩ := hreencodes entry hentry
      exact hentryReencodes.writes
    obtain ⟨whole, hwhole⟩ := Encoder.exists_constructed (writesConstructed_ber buffering)
      (tag?.getD tag) ((content_entries_eq_done_iff hlist).mpr ⟨pieces, rfl, hpieces⟩)
    exact ⟨whole, (writes_collection_iff htag).mpr hwhole⟩
  · intro scope own octets haccept hrecognizes hsize hwrites
    obtain ⟨hadmits, hall⟩ := (TypeForm.accepts_entries_iff hlist).mp
      (accepts_collection_of_accept hlayout.regular rfl haccept)
    obtain ⟨rfl, hrecognized⟩ := (recognizes_entries_iff htag).mp hrecognizes
    exact ⟨_, rfl, fun _ => Identifier.isEndOfContents_constructed _,
      decodesAs_entries htag hlist hsize hwrites fun pieces hpiecesSize hpieces =>
        readsPieces_of_recognizes hlayout hpieces hpiecesSize hreencodes hall hadmits.1 hrecognized⟩

theorem reencodes_choice (hkind : layout.kind = .choice)
    (hlayout : HasReencodable layout values buffering depth) {start : Nat} {outer : Octets}
    (hform : Header.IsForm .ber start outer header)
    (hread : ReadsEntry layout .ber depth header entry) {kept : Entries}
    (hkept : layout.IsKept values scope [entry] kept) :
    Reencodes ⟨info, .collection layout⟩ values buffering none (depth + 1) header
      (.collection [entry]) (.collection kept) := by
  have hlist : layout.kind.isList = false := CollectionKind.isList_of_choice hkind
  have hentries : ∀ other ∈ [entry], ∃ found,
      (found = header ∧ ∃ start outer, Header.IsForm .ber start outer found) ∧
        ReadsEntry layout .ber depth found other :=
    List.forall_mem_singleton.mpr ⟨header, ⟨rfl, start, outer, hform⟩, hread⟩
  have hreencodes := reencodesEntry_of_kept hlayout hkept hentries
  refine ⟨preserves_of_kept hlayout hkept hentries, ?_, ?_⟩
  · obtain ⟨pieces, hpieces⟩ := forall₂_exists_iff.mpr fun entry hentry => by
      obtain ⟨_, -, hentryReencodes⟩ := hreencodes entry hentry
      exact hentryReencodes.writes
    exact ⟨_, (writes_choice_iff hkind).mpr
      ⟨rfl, (content_entries_eq_done_iff hlist).mpr ⟨pieces, rfl, hpieces⟩⟩⟩
  · intro scope tag octets haccept hrecognizes hsize hwrites
    obtain ⟨hadmits, hall⟩ := (TypeForm.accepts_entries_iff hlist).mp
      (accepts_collection_of_accept hlayout.regular rfl haccept)
    obtain ⟨⟨name, value⟩, rfl, hrecognized⟩ := (recognizes_choice_iff hkind).mp hrecognizes
    obtain ⟨-, hwritesEntry⟩ := (writes_choice_iff_entry hkind).mp hwrites
    obtain ⟨_, rfl, hentry⟩ := hreencodes _ List.mem_cons_self
    obtain ⟨identifier, htag, hmark, helement⟩ := hentry.decodes _ none tag octets
      (hall _ List.mem_cons_self) (Layout.allowsAfter_cons_iff.mp hadmits.1).1 hrecognized hsize
      hwritesEntry
    exact ⟨identifier, htag, hmark, decodesAs_choice hkind helement⟩

theorem isReencodable_collection (hlayout : HasReencodable layout values buffering depth)
    (hregular : IsRegular ⟨info, .collection layout⟩) :
    IsReencodable ⟨info, .collection layout⟩ values buffering tag? (depth + 1) := by
  intro start outer header position content value hform hreads scope result hresult
  have hread := readsForm_of_canonicalize hregular hreads hresult
  generalize result.value = canonical at hread
  cases hread with
  | list htag hlist helement helements hforms =>
      exact reencodes_list hlayout.regular htag hlist helement
        (hlayout.reencodable _ (Layout.mem_components_of_element? helement)) header helements hforms
  | entries htag hlist hentries hkept =>
      exact reencodes_entries htag hlist hlayout hkept hentries header
  | choice hkind hentry hkept => exact reencodes_choice hkind hlayout hform hentry hkept

end Entries

theorem isReencodable {type : CompiledType} (hregular : type.IsRegular)
    (hranges : type.HasRangesOnly) (hunmarked : type.IsUnmarked) (values : NamedValues)
    (buffering : Bool) {tag? : Option Tag} (htag? : tag? ≠ some (Tag.universal 0)) (depth : Nat) :
    type.IsReencodable values buffering tag? depth := by
  induction type, tag?, depth using depthInduct with
  | zero type tag? =>
      intro start outer header position content value _ hreads
      rw [read_zero] at hreads
      exact absurd hreads not_reads_failAt
  | builtin info builtin tag? depth => exact isReencodable_builtin htag?
  | «alias» info target tag? depth ih =>
      have htarget := hregular.of_mk.2 target TypeForm.target_mem_types
      have hrangesTarget := hranges.of_mk.2 target TypeForm.target_mem_types
      have hunmarkedTarget := hunmarked.of_mk.2 target TypeForm.target_mem_types
      exact isReencodable_alias hregular (ih htarget hrangesTarget hunmarkedTarget htag?)
  | implicit info tag inner tag? depth ih =>
      have hinner := hregular.of_mk.2 inner TypeForm.inner_mem_types
      have hrangesInner := hranges.of_mk.2 inner TypeForm.inner_mem_types
      have hunmarkedInner := hunmarked.of_mk.2 inner TypeForm.inner_mem_types
      have hne := getD_ne_universal htag? (hunmarked.of_mk.1 tag _ inner rfl)
      exact isReencodable_implicit hregular (ih hinner hrangesInner hunmarkedInner fun heq =>
        hne (Option.some.inj heq))
  | explicit info tag inner tag? depth ih =>
      have hinner := hregular.of_mk.2 inner TypeForm.inner_mem_types
      have hrangesInner := hranges.of_mk.2 inner TypeForm.inner_mem_types
      have hunmarkedInner := hunmarked.of_mk.2 inner TypeForm.inner_mem_types
      exact isReencodable_explicit hregular
        (ih none depth hinner hrangesInner hunmarkedInner (by simp))
  | collection info layout tag? depth ih =>
      have htypes (component) (hmem : component ∈ layout.components) :=
        hregular.of_mk.2 component.type (TypeForm.type_mem_types hmem)
      have hrangesTypes (component) (hmem : component ∈ layout.components) :=
        hranges.of_mk.2 component.type (TypeForm.type_mem_types hmem)
      have hunmarkedTypes (component) (hmem : component ∈ layout.components) :=
        hunmarked.of_mk.2 component.type (TypeForm.type_mem_types hmem)
      have hlayout : HasReencodable layout values buffering depth :=
        ⟨hregular.of_mk.1 layout rfl, htypes, hrangesTypes, fun component hmem =>
          ih component hmem none depth (htypes component hmem) (hrangesTypes component hmem)
            (hunmarkedTypes component hmem) (by simp)⟩
      exact isReencodable_collection hlayout hregular

end CompiledType

namespace Schema

variable {schema : Schema} {handle : Handle} {type : CompiledType} {octets : Octets} {value : Value}
  {maxDepth : Nat}

/-- What is decoded under the basic rules is encoded again without losing anything, and decoded as
the canonical form of the value exactly if that is stable and recognized. Octets in memory are fewer
than the numbers that a length can be. -/
theorem Reachable.decode_reencoded_iff (hschema : schema.Reachable)
    (hcompiled : schema.compiled handle = .ok type) (hranges : type.HasRangesOnly)
    (hunmarked : type.IsUnmarked)
    (hdecode : schema.decode handle ⟨.ber, maxDepth⟩ octets = .ok value) (buffering : Bool) :
    ∃ form others, schema.canonicalize handle value = .ok form ∧ type.Preserves value form.value ∧
      (schema.encode handle ⟨.ber, buffering⟩ value).toExcept = .ok others ∧
        (others.length < Length.sizeBound →
          (schema.decode handle ⟨.ber, maxDepth⟩ others = .ok form.value ↔
            type.IsStable form.value ∧ type.IsRecognized form.value)) := by
  have hregular := hschema.consistent.isRegular hcompiled
  obtain ⟨outer, header, content, form, rfl, hheader, hreads, -, hform, hcanonicalize⟩ :=
    hschema.exists_canonical_of_decode hcompiled hranges hdecode
  obtain ⟨hpreserves, ⟨others, hwrites⟩, hdecodes⟩ := CompiledType.isReencodable hregular hranges
    hunmarked schema.values buffering (by simp) maxDepth _ _ _ _ _ _ hheader hreads _ _ hform
  have hstable : type.accept schema.values (.top schema.view) form.value = .ok () ↔
      type.IsStable form.value :=
    CompiledType.accept_canonical_iff_isStable hregular hranges hform
  refine ⟨form, others, hcanonicalize, hpreserves,
    (encode_eq_done_iff hcompiled hcanonicalize).mpr hwrites, fun hsize => ⟨?_, ?_⟩⟩
  · intro hothers
    obtain ⟨_, _, _, -, -, hreadsForm, hacceptForm⟩ := (decode_eq_ok_iff hcompiled).mp hothers
    obtain ⟨tag, hrecognizes, -⟩ := CompiledType.recognizes_of_reads hreadsForm
    exact ⟨hstable.mp ((accept_eq_ok_iff hcompiled).mp hacceptForm), tag, hrecognizes⟩
  · rintro ⟨hformStable, tag, hrecognizes⟩
    have hacceptForm := hstable.mpr hformStable
    obtain ⟨identifier, -, -, hdecodesAs⟩ :=
      hdecodes _ tag others hacceptForm hrecognizes hsize hwrites
    obtain ⟨found, rest, rfl, hfound, -, hreadsForm⟩ := hdecodesAs.exists_header hsize 0
    exact (decode_eq_ok_iff hcompiled).mpr ⟨found.octets, found, rest, rfl, hfound, hreadsForm _,
      (accept_eq_ok_iff hcompiled).mpr hacceptForm⟩

/-- The default of `b` is left out, and the unknown element still follows the addition `x`. -/
theorem decode_reencoded_defaultedSequence :
    let type : CompiledType := ⟨⟨⟨2⟩, none, []⟩, .collection defaultedLayout⟩
    let rest : Entries := [("x", .integer ⟨5, by decide, by decide⟩),
      ((Tag.context 5).text, .captured ⟨⟨.context 5, false⟩, [0x85, 0x01, 0x07]⟩)]
    let value : Value := .collection (("b", .boolean false) :: rest)
    defaultedSequence.decode ⟨2⟩ ⟨.ber, 2⟩
        [0x30, 0x09, 0x01, 0x01, 0x00, 0x02, 0x01, 0x05, 0x85, 0x01, 0x07] = .ok value ∧
      type.Preserves value (.collection rest) ∧ type.IsStable (.collection rest) ∧
        type.IsRecognized (.collection rest) := by
  intro type rest value
  have hunmarked : type.IsUnmarked :=
    forall_reaches_defaultedLayout (by rintro _ _ _ ⟨⟩) (by rintro _ _ _ ⟨⟩) (by rintro _ _ _ ⟨⟩)
  have hdecode : defaultedSequence.decode ⟨2⟩ ⟨.ber, 2⟩
      [0x30, 0x09, 0x01, 0x01, 0x00, 0x02, 0x01, 0x05, 0x85, 0x01, 0x07] = .ok value := by
    decide +kernel
  have hcanonicalize : defaultedSequence.canonicalize ⟨2⟩ value = .ok ⟨.collection rest, true⟩ :=
    rfl
  have hencode : (defaultedSequence.encode ⟨2⟩ ⟨.ber, true⟩ value).toExcept =
      .ok [0x30, 0x06, 0x02, 0x01, 0x05, 0x85, 0x01, 0x07] := by decide +kernel
  have hagain : defaultedSequence.decode ⟨2⟩ ⟨.ber, 2⟩
      [0x30, 0x06, 0x02, 0x01, 0x05, 0x85, 0x01, 0x07] = .ok (.collection rest) := by decide +kernel
  obtain ⟨form, others, hform, hpreserves, hothers, hiff⟩ :=
    Reachable.decode_reencoded_iff (reachable_extendedSequence _ _ _) compiled_defaultedSequence
      hasRangesOnly_defaultedLayout hunmarked hdecode true
  obtain rfl := Except.ok.inj (hcanonicalize.symm.trans hform)
  obtain rfl := Except.ok.inj (hencode.symm.trans hothers)
  exact ⟨hdecode, hpreserves, (hiff (by decide)).mp hagain⟩

/-- Without the addition, which is left out for its default, nothing tells that the value is of a
later version and may hold unknown elements. -/
theorem decode_reencoded_fails_of_defaulted_addition :
    let schema := extendedSequence [⟨"a", .handle ⟨0⟩, false, none⟩]
      [⟨"x", .handle ⟨1⟩, false, some (.boolean false)⟩] []
    let unknown : String × Value :=
      ((Tag.context 5).text, .captured ⟨⟨.context 5, false⟩, [0x85, 0x01, 0x07]⟩)
    let value : Value :=
      .collection [("a", .integer ⟨1, by decide, by decide⟩), ("x", .boolean false), unknown]
    schema.Reachable ∧
      (∃ type, schema.compiled ⟨2⟩ = .ok type ∧ type.HasRangesOnly ∧ type.IsUnmarked) ∧
        schema.decode ⟨2⟩ ⟨.ber, 2⟩
            [0x30, 0x09, 0x02, 0x01, 0x01, 0x01, 0x01, 0x00, 0x85, 0x01, 0x07] = .ok value ∧
          (schema.encode ⟨2⟩ ⟨.ber, true⟩ value).toExcept =
              .ok [0x30, 0x06, 0x02, 0x01, 0x01, 0x85, 0x01, 0x07] ∧
            ∀ other, schema.decode ⟨2⟩ ⟨.ber, 2⟩
              [0x30, 0x06, 0x02, 0x01, 0x01, 0x85, 0x01, 0x07] ≠ .ok other := by
  refine ⟨reachable_extendedSequence _ _ _, ⟨⟨⟨⟨2⟩, none, []⟩, .collection ⟨.sequence, true,
    [⟨"a", 0, 1, false, none, .handle ⟨0⟩,
        ⟨⟨⟨0⟩, none, []⟩, .builtin .integer⟩, false, [.integer]⟩,
      ⟨"x", 1, 2, false, some (.boolean false), .handle ⟨1⟩,
        ⟨⟨⟨1⟩, none, []⟩, .builtin .boolean⟩, false, [.boolean]⟩]⟩⟩, rfl, ?_, ?_⟩, ?_, ?_, ?_⟩
  · rw [CompiledType.HasRangesOnly]
    simp [CompiledType.forall_reaches_mk_iff, TypeForm.types, CompiledType.info]
  · rw [CompiledType.IsUnmarked]
    simp [CompiledType.forall_reaches_mk_iff, TypeForm.types, CompiledType.form]
  · decide +kernel
  · decide +kernel
  · intro other
    refine ne_of_eq_of_ne (b := .error (.format (.unknownTag (.context 5)) 5)) ?_ (by simp)
    decide +kernel

end Schema

end Asn1

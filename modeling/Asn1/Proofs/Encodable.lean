import Asn1.Proofs.CapturedElements
import Asn1.Proofs.DecodedForms
import Asn1.Proofs.ElementTrees
import Asn1.Proofs.LeafContent
import Asn1.Proofs.RulesRelaxation

namespace Asn1

open Read Results

namespace Builtin

theorem exists_encodeContent_of_decodeContent {builtin : Builtin} {rules : EncodingRules}
    {value : Value} {content : Octets} (haccept : builtin.accept value = .ok ())
    (h : builtin.decodeContent rules content = .ok value) :
    ∃ content, builtin.encodeContent rules value = .ok content := by
  cases hrules : rules.isRestricted with
  | false => exact exists_encodeContent hrules haccept
  | true => exact ⟨content, encodeContent_of_isContent (isContent_of_decodeContent hrules h)⟩

end Builtin

namespace Encoder

variable {encoder : Encoder}

theorem exists_builtin {builtin : Builtin} {value : Value} (tag : Tag) {content : Octets}
    (h : builtin.encodeContent encoder.rules value = .ok content) :
    ∃ octets, encoder.builtin builtin value tag = .done octets := by
  by_cases hsegmented : IsSegmented encoder.rules builtin content
  · exact ⟨_, builtin_eq_done_iff.mpr ⟨content, h, .inr ⟨hsegmented, rfl⟩⟩⟩
  · exact ⟨_, builtin_eq_done_iff.mpr ⟨content, h, .inl ⟨hsegmented, rfl⟩⟩⟩

end Encoder

namespace CompiledType

/-- Whether all values that are read from elements can be written in canonical form. -/
def IsEncodable (type : CompiledType) (encoder : Encoder) (values : NamedValues)
    (tag? : Option Tag) (depth : Nat) : Prop :=
  ∀ start outer header position content value, Header.IsForm encoder.rules start outer header →
    (type.read encoder.rules ⟨header, tag?, depth⟩).Reads position content value →
      ∀ scope form, type.canonicalize values scope value = .ok form →
        ∃ octets, type.Writes encoder form.value tag? octets

variable {encoder : Encoder} {values : NamedValues} {info : TypeInfo} {tag? : Option Tag}
  {depth : Nat}

section Entries

variable {scope : Scope} {layout : Layout CompiledType} {header : Header} {entry : String × Value}

/-- What the types of components are like whose values can be written. -/
structure HasEncodable (layout : Layout CompiledType) (encoder : Encoder) (values : NamedValues)
    (depth : Nat) : Prop where
  regular : layout.IsRegular
  types : ∀ component ∈ layout.components, component.type.IsRegular
  ranges : ∀ component ∈ layout.components, component.type.HasRangesOnly
  encodable : ∀ component ∈ layout.components,
    component.type.IsEncodable encoder values none depth

theorem exists_pieces_of_canonical_items {element : Component CompiledType}
    (h : element.type.IsEncodable encoder values none depth) {definite : Bool} {position : Nat}
    {octets : Octets} {items : List Value} (helements : ReadsElements encoder.rules definite
      (Decoder.readItem (element.map fun type => type.read encoder.rules) depth) position () octets
        items) {forms : List CanonicalForm}
    (hforms : List.Forall₂ (fun item form =>
      element.type.canonicalize values scope item = .ok form) items forms) :
    ∃ pieces, List.Forall₂ (fun item piece => element.type.Writes encoder item none piece)
      (forms.map CanonicalForm.value) pieces := by
  refine forall₂_exists_iff.mpr fun value hvalue => ?_
  obtain ⟨form, hmem, rfl⟩ := List.mem_map.mp hvalue
  obtain ⟨item, hitem, hform⟩ := forall₂_exists_of_mem hforms hmem
  obtain ⟨_, _, _, _, _, _, hheader, -, hreads⟩ := helements.exists_of_mem hitem
  have hread := (Decoder.reads_readItem_iff (isLocal_read element.type encoder.rules)).mp hreads
  exact h _ _ _ _ _ _ hheader hread _ _ hform

theorem exists_writesEntry_of_unknown {start position : Nat} {outer content : Octets}
    (hform : Header.IsForm encoder.rules start outer header)
    (h : (Decoder.readUnknown encoder.rules header depth).Reads position content entry)
    (hnone : layout.component? entry.1 = none) :
    ∃ piece, WritesEntry layout encoder entry piece := by
  simp only [WritesEntry, hnone]
  obtain ⟨copied, hcopied, rfl⟩ := Decoder.reads_readUnknown_iff.mp h
  exact ⟨copied, Encoder.unknown_captured_eq_done (Captured.ofOctets_of_copied hform hcopied)⟩

theorem exists_pieces_of_kept (hlayout : HasEncodable layout encoder values depth)
    {entries kept : Entries} (hkept : layout.IsKept values scope entries kept)
    (hentries : ∀ entry ∈ entries, ∃ header,
      (∃ start outer, Header.IsForm encoder.rules start outer header) ∧
        ReadsEntry layout encoder.rules depth header entry) :
    ∃ pieces, List.Forall₂ (WritesEntry layout encoder) kept pieces := by
  refine forall₂_exists_iff.mpr fun entry hentry => ?_
  obtain ⟨header, ⟨start, outer, hform⟩, hstems⟩ :=
    exists_stemsFrom_of_kept hlayout.types hlayout.ranges hkept hentries entry hentry
  cases hstems with
  | component hfind hreads hcanonical hvalue =>
      have hmem := Layout.mem_components_of_component? hfind
      simp only [WritesEntry, hfind, ← hvalue]
      exact hlayout.encodable _ hmem _ _ _ _ _ _ hform hreads _ _ hcanonical
  | unknown hnone hreads => exact exists_writesEntry_of_unknown hform hreads hnone

theorem isEncodable_collection (hconstructs : encoder.writesConstructed = true)
    (hlayout : HasEncodable layout encoder values depth)
    (hregular : IsRegular ⟨info, .collection layout⟩) :
    IsEncodable ⟨info, .collection layout⟩ encoder values tag? (depth + 1) := by
  intro start outer header position content value hform hreads scope result hresult
  have hread := readsForm_of_canonicalize hregular hreads hresult
  generalize result.value = canonical at hread
  cases hread with
  | list htag hlist helement helements hforms =>
      obtain ⟨pieces, hpieces⟩ := exists_pieces_of_canonical_items
        (hlayout.encodable _ (Layout.mem_components_of_element? helement)) helements hforms
      obtain ⟨octets, hwrites⟩ := Encoder.exists_constructed hconstructs _
        ((content_list_eq_done_iff hlist helement).mpr ⟨pieces, rfl, hpieces⟩)
      exact ⟨octets, (writes_collection_iff htag).mpr hwrites⟩
  | entries htag hlist hentries hkept =>
      obtain ⟨pieces, hpieces⟩ := exists_pieces_of_kept hlayout hkept fun entry hentry => by
        obtain ⟨other, ⟨-, hotherForm⟩, hread⟩ := hentries entry hentry
        exact ⟨other, hotherForm, hread⟩
      obtain ⟨octets, hwrites⟩ := Encoder.exists_constructed hconstructs _
        ((content_entries_eq_done_iff hlist).mpr ⟨pieces, rfl, hpieces⟩)
      exact ⟨octets, (writes_collection_iff htag).mpr hwrites⟩
  | choice hkind hentry hkept =>
      obtain ⟨pieces, hpieces⟩ := exists_pieces_of_kept hlayout hkept
        (List.forall_mem_singleton.mpr ⟨header, ⟨start, outer, hform⟩, hentry⟩)
      have hcontent := (content_entries_eq_done_iff (CollectionKind.isList_of_choice hkind)).mpr
        ⟨pieces, rfl, hpieces⟩
      exact ⟨_, (writes_choice_iff hkind).mpr ⟨rfl, hcontent⟩⟩

end Entries

/-- Whatever is read from an element can be written in canonical form under the same rules. -/
theorem isEncodable {type : CompiledType} (hregular : type.IsRegular)
    (hranges : type.HasRangesOnly) (hconstructs : encoder.writesConstructed = true)
    (values : NamedValues) (tag? : Option Tag) (depth : Nat) :
    type.IsEncodable encoder values tag? depth := by
  intro start outer header position content value hform hreads scope result hresult
  induction hreads using readsInduct generalizing start outer scope result with
  | @builtin _ builtin _ tag? _ _ _ _ h hreads =>
      obtain ⟨_, ⟨haccept, rfl⟩, heq, -⟩ := exists_canonical_of_reads hregular h hresult
      obtain ⟨-, _, hcontent⟩ := exists_content_of_reads hreads
      obtain ⟨content, hcontent⟩ := Builtin.exists_encodeContent_of_decodeContent haccept hcontent
      obtain ⟨octets, hoctets⟩ := Encoder.exists_builtin (tag?.getD builtin.tag) hcontent
      rw [heq]
      exact ⟨octets, writes_builtin_iff.mpr hoctets⟩
  | «alias» h _ ih =>
      have htarget := hregular.of_mk.2 _ TypeForm.target_mem_types
      have hrangesTarget := hranges.of_mk.2 _ TypeForm.target_mem_types
      obtain ⟨canonical, hcanonical, heq, -⟩ := exists_canonical_of_reads hregular h hresult
      obtain ⟨octets, hwrites⟩ := ih htarget hrangesTarget _ _ hform _ _ hcanonical
      rw [heq]
      exact ⟨octets, writes_alias_iff.mpr hwrites⟩
  | implicit _ h _ ih =>
      have hinner := hregular.of_mk.2 _ TypeForm.inner_mem_types
      have hrangesInner := hranges.of_mk.2 _ TypeForm.inner_mem_types
      obtain ⟨canonical, hcanonical, heq, -⟩ := exists_canonical_of_reads hregular h hresult
      obtain ⟨octets, hwrites⟩ := ih hinner hrangesInner _ _ hform _ _ hcanonical
      rw [heq]
      exact ⟨octets, writes_implicit_iff.mpr hwrites⟩
  | @explicit _ tag _ _ _ tag? _ _ _ _ _ _ h _ houter _ _ ih =>
      have hinner := hregular.of_mk.2 _ TypeForm.inner_mem_types
      have hrangesInner := hranges.of_mk.2 _ TypeForm.inner_mem_types
      obtain ⟨canonical, hcanonical, heq, -⟩ := exists_canonical_of_reads hregular h hresult
      obtain ⟨octets, hwrites⟩ := ih hinner hrangesInner _ _ houter _ _ hcanonical
      obtain ⟨whole, hwhole⟩ := Encoder.exists_constructed hconstructs (tag?.getD tag) hwrites
      rw [heq]
      exact ⟨whole, writes_explicit_iff.mpr hwhole⟩
  | collection layout h ih =>
      have htypes (component) (hmem : component ∈ layout.components) :=
        hregular.of_mk.2 component.type (TypeForm.type_mem_types hmem)
      have hrangesTypes (component) (hmem : component ∈ layout.components) :=
        hranges.of_mk.2 component.type (TypeForm.type_mem_types hmem)
      have hlayout : HasEncodable layout encoder values _ :=
        ⟨hregular.of_mk.1 layout rfl, htypes, hrangesTypes,
          fun component hmem start outer header position content value hform hreads =>
            ih component hmem hreads (htypes component hmem) (hrangesTypes component hmem) start
              outer hform⟩
      exact isEncodable_collection hconstructs hlayout hregular _ _ _ _ _ _ hform h _ _ hresult

theorem reads_ber {type : CompiledType} {rules : EncodingRules} {element : Element}
    {position : Nat} {content : Octets} {value : Value}
    (h : (type.read rules element).Reads position content value) :
    (type.read .ber element).Reads position content value := by
  intro rest
  obtain ⟨_, rfl, hber⟩ := type.relaxes_read rules element _ _ _ (h rest)
  exact hber

end CompiledType

theorem Header.IsForm.ber {rules : EncodingRules} {position : Nat} {octets : Octets}
    {header : Header} (h : IsForm rules position octets header) :
    IsForm .ber position octets header := by
  rw [← Header.reads_read_iff] at h ⊢
  intro rest
  obtain ⟨_, rfl, hber⟩ := relaxes_read rules _ _ _ (h rest)
  exact hber

namespace Schema

variable {schema : Schema} {handle : Handle} {type : CompiledType} {octets : Octets} {value : Value}
  {rules : EncodingRules} {maxDepth : Nat}

/-- What is decoded can be encoded again, both under the same rules and under the basic rules. -/
theorem Reachable.exists_encode_of_decode (hschema : schema.Reachable)
    (hcompiled : schema.compiled handle = .ok type) (hranges : type.HasRangesOnly)
    (hdecode : schema.decode handle ⟨rules, maxDepth⟩ octets = .ok value) :
    (∃ others, (schema.encode handle ⟨.ber, true⟩ value).toExcept = .ok others) ∧
      ∃ others, (schema.encode handle ⟨rules, true⟩ value).toExcept = .ok others := by
  have hregular := hschema.consistent.isRegular hcompiled
  obtain ⟨outer, header, content, form, rfl, hheader, hreads, -, hform, hcanonicalize⟩ :=
    hschema.exists_canonical_of_decode hcompiled hranges hdecode
  have hencode {encoder : Encoder} (hconstructs : encoder.writesConstructed = true)
      (hheader : Header.IsForm encoder.rules 0 outer header)
      (hreads : (type.read encoder.rules ⟨header, none, maxDepth⟩).Reads outer.length content
        value) : ∃ others, (schema.encode handle encoder value).toExcept = .ok others := by
    obtain ⟨others, hwrites⟩ := CompiledType.isEncodable hregular hranges hconstructs
      schema.values none maxDepth _ _ _ _ _ _ hheader hreads _ _ hform
    exact ⟨others, (encode_eq_done_iff hcompiled hcanonicalize).mpr hwrites⟩
  refine ⟨hencode rfl hheader.ber (CompiledType.reads_ber hreads), hencode ?_ hheader hreads⟩
  cases rules <;> rfl

/-- With an unknown element of indefinite length behind the addition `x`, and the default of `b`
left out. -/
theorem exists_encode_of_decode_defaultedSequence :
    let octets : Octets := [0x30, 0x80, 0x02, 0x01, 0x05, 0xa5, 0x80, 0x05, 0x00, 0x00, 0x00, 0x00,
      0x00]
    let value : Value := .collection [("x", .integer ⟨5, by decide, by decide⟩),
      ((Tag.context 5).text,
        .captured ⟨⟨.context 5, true⟩, [0xa5, 0x80, 0x05, 0x00, 0x00, 0x00]⟩)]
    defaultedSequence.decode ⟨2⟩ ⟨.cer, 2⟩ octets = .ok value ∧
      (∃ others, (defaultedSequence.encode ⟨2⟩ ⟨.ber, true⟩ value).toExcept = .ok others) ∧
        ∃ others, (defaultedSequence.encode ⟨2⟩ ⟨.cer, true⟩ value).toExcept = .ok others := by
  intro octets value
  have hdecode : defaultedSequence.decode ⟨2⟩ ⟨.cer, 2⟩ octets = .ok value := by decide +kernel
  exact ⟨hdecode, Reachable.exists_encode_of_decode (reachable_extendedSequence _ _ _)
    compiled_defaultedSequence hasRangesOnly_defaultedLayout hdecode⟩

end Schema

end Asn1

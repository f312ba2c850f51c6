import Asn1.Proofs.TypeReading
import Asn1.Proofs.TypeWriting

namespace Asn1

open Read Source Results

theorem Builtin.tag_ne_universal (builtin : Builtin) : builtin.tag ≠ Tag.universal 0 := by
  cases builtin <;> decide

namespace CollectionKind

variable {kind : CollectionKind}

theorem tag_ne_universal {tag : Tag} (h : kind.tag? = some tag) : tag ≠ Tag.universal 0 := by
  rintro rfl
  cases kind <;> exact absurd h (by decide)

theorem exists_tag_of_isList (h : kind.isList = true) : ∃ tag, kind.tag? = some tag := by
  cases kind with
  | sequenceOf => exact ⟨.sequence, rfl⟩
  | setOf => exact ⟨.set, rfl⟩
  | _ => simp [isList] at h

end CollectionKind

theorem Identifier.isEndOfContents_eq_false {identifier : Identifier}
    (h : identifier.tag ≠ Tag.universal 0) : identifier.isEndOfContents = false := by
  rw [isEndOfContents, decide_eq_false_iff_not]
  rintro rfl
  exact h rfl

theorem Identifier.isEndOfContents_constructed (tag : Tag) :
    (⟨tag, true⟩ : Identifier).isEndOfContents = false := by
  simp [isEndOfContents, endOfContents]

section Elements

variable {σ α β : Type} {rules : EncodingRules} {identifier : Identifier} {octets : Octets}

/-- Octets that are one element with the identifier, behind a header in its shortest form, from
whose content `a` is read wherever the element stands. -/
def ReadsElement (rules : EncodingRules) (read : Header → Read α) (identifier : Identifier)
    (octets : Octets) (a : α) : Prop :=
  ∃ length content, octets = identifier.octets ++ (length.octets ++ content) ∧
    (∀ start, (⟨identifier, length, start⟩ : Header).fault? rules = none) ∧
    (∀ size, length = .definite size → size = content.length) ∧
    ∀ start position, (read ⟨identifier, length, start⟩).Reads position content a

namespace ReadsElement

theorem exists_header {read : Header → Read α} {a : α}
    (h : ReadsElement rules read identifier octets a) (hsize : octets.length < Length.sizeBound)
    (start : Nat) :
    ∃ header content, octets = header.octets ++ content ∧
      Header.IsForm rules start header.octets header ∧ header.identifier = identifier ∧
        ∀ position, (read header).Reads position content a := by
  obtain ⟨length, content, rfl, hfault, hlength, hreads⟩ := h
  refine ⟨⟨identifier, length, start⟩, content, by simp [Header.octets], ?_, rfl, hreads start⟩
  refine Header.isForm_octets (hfault start) ?_
  intro size heq
  rw [hlength size heq]
  simp only [List.length_append] at hsize
  omega

theorem imp {read : Header → Read α} {other : Header → Read β} {a : α} {b : β}
    (h : ReadsElement rules read identifier octets a)
    (himp : ∀ header position content, header.identifier = identifier →
      (read header).Reads position content a → (other header).Reads position content b) :
    ReadsElement rules other identifier octets b := by
  obtain ⟨length, content, hoctets, hfault, hlength, hreads⟩ := h
  exact ⟨length, content, hoctets, hfault, hlength, fun start position =>
    himp _ position content rfl (hreads start position)⟩

end ReadsElement

/-- Pieces that are elements, each read by means of the state left by the one before. None of them
is an end-of-contents marker. -/
inductive ReadsPieces (rules : EncodingRules) (readElement : σ → Header → Read (α × σ)) :
    σ → List Octets → List α → Prop
  | nil {state : σ} : ReadsPieces rules readElement state [] []
  | cons {state next : σ} {identifier : Identifier} {piece : Octets} {pieces : List Octets} {a : α}
    {results : List α} (hmark : identifier.isEndOfContents = false)
    (helement : ReadsElement rules (readElement state) identifier piece (a, next))
    (hrest : ReadsPieces rules readElement next pieces results) :
    ReadsPieces rules readElement state (piece :: pieces) (a :: results)

theorem ReadsPieces.readsElements {readElement : σ → Header → Read (α × σ)} {state : σ}
    {pieces : List Octets} {results : List α}
    (h : ReadsPieces rules readElement state pieces results)
    (hsize : pieces.flatten.length < Length.sizeBound) {definite : Bool} {mark : Octets}
    (hend : ∀ position, IsEnd rules definite position mark) (position : Nat) :
    ReadsElements rules definite readElement position state (pieces.flatten ++ mark) results := by
  induction h generalizing position with
  | nil => exact .nil (hend position)
  | cons hmark helement _ ih =>
      simp only [List.flatten_cons, List.length_append] at hsize
      obtain ⟨header, content, rfl, hform, rfl, hreads⟩ :=
        helement.exists_header (by omega) position
      rw [List.flatten_cons, List.append_assoc, List.append_assoc]
      exact .cons hform hmark (hreads _) (ih (by omega) _)

theorem length_lt_of_mem {pieces : List Octets} (h : pieces.flatten.length < Length.sizeBound)
    {piece : Octets} (hmem : piece ∈ pieces) : piece.length < Length.sizeBound := by
  have hle := (List.sublist_flatten_of_mem hmem).length_le
  exact hle.trans_lt h

end Elements

namespace CompiledType

/-- Octets that are one element with the identifier, from whose content a value of the type is read.
-/
def DecodesAs (type : CompiledType) (rules : EncodingRules) (value : Value) (tag? : Option Tag)
    (depth : Nat) (identifier : Identifier) (octets : Octets) : Prop :=
  ReadsElement rules (fun header => type.read rules ⟨header, tag?, depth⟩) identifier octets value

/-- What is written for a constructed element: its content, and what ends it. -/
theorem exists_mark_of_constructed {encoder : Encoder} {tag : Tag} {content : Written}
    {octets : Octets} (h : encoder.constructed tag content = .done octets) :
    ∃ length c mark, content = .done c ∧
      octets = (Identifier.mk tag true).octets ++ (length.octets ++ (c ++ mark)) ∧
        (∀ start, (⟨⟨tag, true⟩, length, start⟩ : Header).fault? encoder.rules = none) ∧
          (∀ size, length = .definite size → size = (c ++ mark).length) ∧
            ∀ position, IsEnd encoder.rules (!length.isIndefinite) position mark := by
  obtain ⟨c, hcontent, hform⟩ := Encoder.constructed_eq_done_iff.mp h
  split at hform
  · next hdefinite =>
    rw [Encoder.isDefinite, Bool.and_eq_true] at hdefinite
    refine ⟨.definite c.length, c, [], hcontent, ?_, ?_, ?_, fun _ => rfl⟩
    · simpa [headerOctets] using hform
    · exact Header.fault?_constructed_definite hdefinite.2 tag _
    · rintro size ⟨⟩
      simp
  · obtain ⟨hindefinite, rfl⟩ := hform
    refine ⟨.indefinite, c, Header.endOfContents, hcontent, ?_, ?_, ?_, ?_⟩
    · simp [headerOctets]
    · exact Header.fault?_constructed_indefinite hindefinite tag
    · rintro size ⟨⟩
    · exact fun position => ⟨_, Header.isForm_endOfContents _ position, rfl⟩

variable {encoder : Encoder} {info : TypeInfo} {value : Value} {tag? : Option Tag} {depth : Nat}
  {identifier : Identifier} {octets : Octets}

theorem getD_ne_universal {tag : Tag} (htag? : tag? ≠ some (Tag.universal 0))
    (htag : tag ≠ Tag.universal 0) : tag?.getD tag ≠ Tag.universal 0 := by
  cases tag? with
  | none => exact htag
  | some given => exact fun heq => htag? (congrArg some heq)

theorem decodesAs_builtin {builtin : Builtin} (htag : tag?.getD builtin.tag ≠ Tag.universal 0)
    (haccept : builtin.accept value = .ok ())
    (h : Writes ⟨info, .builtin builtin⟩ encoder value tag? octets) :
    ∃ constructed, DecodesAs ⟨info, .builtin builtin⟩ encoder.rules value tag? (depth + 1)
      ⟨tag?.getD builtin.tag, constructed⟩ octets := by
  obtain ⟨content, hcontent, hform⟩ := Encoder.builtin_eq_done_iff.mp (writes_builtin_iff.mp h)
  have hvalue := Builtin.decodeContent_of_isContent
    (Builtin.isContent_of_encodeContent haccept hcontent)
  rcases hform with ⟨hwhole, rfl⟩ | ⟨hsegmented, rfl⟩
  · refine ⟨false, .definite content.length, content, ?_, Header.fault?_primitive htag _, ?_, ?_⟩
    · simp [primitiveElement, headerOctets]
    · rintro size ⟨⟩
      rfl
    · intro start position
      simp only [read_builtin]
      exact (reads_readBuiltin_primitive_iff rfl).mpr ⟨rfl, rfl, hwhole, hvalue⟩
  · obtain ⟨hrules, hsegmentable, hlong⟩ := hsegmented
    have hcer := EncodingRules.eq_cer hrules
    rw [hcer] at hvalue ⊢
    refine ⟨true, .indefinite, ((segments EncodingRules.segmentLength content).map
      (primitiveElement .octetString)).flatten ++ Header.endOfContents, ?_,
      Header.fault?_constructed_indefinite rfl _, ?_, ?_⟩
    · exact List.append_assoc _ _ _
    · rintro size ⟨⟩
    · intro start position
      simp only [read_builtin]
      exact reads_readBuiltin_segments hsegmentable rfl rfl rfl hlong hvalue

theorem decodesAs_alias {rules : EncodingRules} {target : CompiledType}
    (h : target.DecodesAs rules value tag? depth identifier octets) :
    DecodesAs ⟨info, .alias target⟩ rules value tag? (depth + 1) identifier octets := by
  refine h.imp fun header position content _ hreads => ?_
  rw [read_alias]
  exact hreads

theorem decodesAs_implicit {rules : EncodingRules} {tag : Tag} {inner : CompiledType}
    (h : inner.DecodesAs rules value (some (tag?.getD tag)) depth identifier octets) :
    DecodesAs ⟨info, .tagged tag .implicit inner⟩ rules value tag? (depth + 1) identifier
      octets := by
  refine h.imp fun header position content _ hreads => ?_
  rw [read_implicit]
  exact hreads

theorem decodesAs_constructed {type : CompiledType} {tag : Tag} {content : Written}
    (hsize : octets.length < Length.sizeBound)
    (h : encoder.constructed tag content = .done octets)
    (hreads : ∀ c, content = .done c → c.length < Length.sizeBound →
      ∀ (header : Header) mark, header.tag = tag → header.isConstructed = true →
        (∀ size, header.length = .definite size → (c ++ mark).length = size) →
          (∀ position, IsEnd encoder.rules (!header.length.isIndefinite) position mark) →
            ∀ position, (type.read encoder.rules ⟨header, tag?, depth⟩).Reads position (c ++ mark)
              value) :
    type.DecodesAs encoder.rules value tag? depth ⟨tag, true⟩ octets := by
  obtain ⟨length, c, mark, hcontent, rfl, hfault, hlength, hend⟩ := exists_mark_of_constructed h
  refine ⟨length, c ++ mark, rfl, hfault, hlength, ?_⟩
  intro start position
  refine hreads c hcontent ?_ _ mark rfl rfl (fun size heq => (hlength size heq).symm) hend position
  simp only [List.length_append] at hsize
  omega

theorem decodesAs_explicit {tag : Tag} {inner : CompiledType}
    (hsize : octets.length < Length.sizeBound)
    (h : Writes ⟨info, .tagged tag .explicit inner⟩ encoder value tag? octets)
    (hinner : ∀ c, c.length < Length.sizeBound → inner.Writes encoder value none c →
      ∃ identifier, identifier.isEndOfContents = false ∧
        inner.DecodesAs encoder.rules value none depth identifier c) :
    DecodesAs ⟨info, .tagged tag .explicit inner⟩ encoder.rules value tag? (depth + 1)
      ⟨tag?.getD tag, true⟩ octets := by
  refine decodesAs_constructed hsize (writes_explicit_iff.mp h) ?_
  intro c hc hcsize header mark htag hconstructed hlength hend position
  obtain ⟨identifier, hmark, hdecodes⟩ := hinner c hcsize hc
  obtain ⟨outer, content, rfl, hform, rfl, hreads⟩ := hdecodes.exists_header hcsize position
  exact reads_explicit_iff.mpr ⟨htag, hconstructed, hlength, outer.octets, outer, content, mark,
    by simp, hform, hmark, hreads _, hend _⟩

theorem readsPieces_items {element : Component CompiledType} {rules : EncodingRules}
    {items : List Value} {pieces : List Octets}
    (h : List.Forall₂ (fun item piece => ∃ identifier, identifier.isEndOfContents = false ∧
      element.type.DecodesAs rules item none depth identifier piece) items pieces) :
    ReadsPieces rules (Decoder.readItem (element.map fun type => type.read rules) depth) ()
      pieces items := by
  induction h with
  | nil => exact .nil
  | cons hitem _ ih =>
      obtain ⟨identifier, hmark, hdecodes⟩ := hitem
      refine .cons hmark (hdecodes.imp fun header position content _ hreads => ?_) ih
      exact (Decoder.reads_readItem_iff (isLocal_read element.type rules)).mpr hreads

theorem decodesAs_list {layout : Layout CompiledType} {tag : Tag}
    (htag : layout.kind.tag? = some tag) (hlist : layout.kind.isList = true)
    {element : Component CompiledType} (helement : layout.element? = some element)
    (hsize : octets.length < Length.sizeBound) {items : List Value}
    (h : Writes ⟨info, .collection layout⟩ encoder (.list items) tag? octets)
    (hitem : ∀ item ∈ items, ∀ c, c.length < Length.sizeBound →
      element.type.Writes encoder item none c → ∃ identifier, identifier.isEndOfContents = false ∧
        element.type.DecodesAs encoder.rules item none depth identifier c) :
    DecodesAs ⟨info, .collection layout⟩ encoder.rules (.list items) tag? (depth + 1)
      ⟨tag?.getD tag, true⟩ octets := by
  refine decodesAs_constructed hsize ((writes_collection_iff htag).mp h) ?_
  intro c hc hcsize header mark htagHeader hconstructed hlength hend position
  obtain ⟨pieces, rfl, hpieces⟩ := (content_list_eq_done_iff hlist helement).mp hc
  have hdecodes := forall₂_imp_of_mem hpieces fun item hmem piece hpiece =>
    hitem item hmem piece (length_lt_of_mem hcsize hpiece)
  exact (reads_list_iff htag hlist helement).mpr ⟨htagHeader, hconstructed, hlength, items, rfl,
    (readsPieces_items hdecodes).readsElements hcsize hend position⟩

/-- An element with a tag of a component is read as an entry that names it. -/
theorem readsElement_component {layout : Layout CompiledType} {rules : EncodingRules}
    {previous? : Option Nat} {component : Component CompiledType}
    (hmatch : layout.match? previous? identifier.tag = some component) {entry : String × Value}
    (hname : component.name = entry.1)
    (hdefault : rules.isRestricted = true → component.default? ≠ some entry.2)
    (h : component.type.DecodesAs rules entry.2 none depth identifier octets) :
    ReadsElement rules (Decoder.readComponent rules (layout.map fun type => type.read rules) depth
      previous?) identifier octets (entry, some component.index) := by
  refine h.imp fun header position content hidentifier hreads => ?_
  have hmatch : layout.match? previous? header.tag = some component := by
    rw [Header.tag, hidentifier]
    exact hmatch
  exact (reads_component_iff hmatch).mpr ⟨hname.symm, rfl, hreads, hdefault⟩

theorem readsElement_unknown {layout : Layout CompiledType} {rules : EncodingRules}
    {previous? : Option Nat} (hmatch : layout.match? previous? identifier.tag = none)
    (hallows : layout.allowsUnknown previous? = true) {entry : String × Value}
    (h : ReadsElement rules (fun header => Decoder.readUnknown rules header depth) identifier octets
      entry) :
    ReadsElement rules (Decoder.readComponent rules (layout.map fun type => type.read rules) depth
      previous?) identifier octets (entry, previous?) := by
  refine h.imp fun header position content hidentifier hreads => ?_
  have hmatch : layout.match? previous? header.tag = none := by
    rw [Header.tag, hidentifier]
    exact hmatch
  exact (reads_unknown_iff hmatch).mpr ⟨hallows, rfl, hreads⟩

theorem exists_captured_of_reads {rules : EncodingRules} {start position : Nat}
    {form content : Octets} {header : Header} {entry : String × Value}
    (hform : Header.IsForm rules start form header)
    (h : (Decoder.readUnknown rules header depth).Reads position content entry) :
    ∃ captured, entry = (captured.identifier.tag.text, .captured captured) ∧
      captured.identifier = header.identifier ∧
        ReadsElement rules (fun header => Decoder.readUnknown rules header depth)
          captured.identifier captured.octets entry := by
  obtain ⟨copied, hcopied, rfl⟩ := Decoder.reads_readUnknown_iff.mp h
  obtain ⟨rest, rfl, hlength, hreads⟩ := Captured.isCopied_of_reads hcopied
  refine ⟨⟨header.identifier, header.octets ++ rest⟩, rfl, rfl, header.length, rest, ?_,
    fun start => (hform.shortest start).2.1, hlength, fun start position => ?_⟩
  · exact List.append_assoc _ _ _
  · exact Decoder.reads_readUnknown_iff.mpr ⟨_, hreads start position, rfl⟩

theorem decodesAs_entries {layout : Layout CompiledType} {tag : Tag}
    (htag : layout.kind.tag? = some tag) (hlist : layout.kind.isList = false)
    (hsize : octets.length < Length.sizeBound) {entries : Entries}
    (h : Writes ⟨info, .collection layout⟩ encoder (.collection entries) tag? octets)
    (hentries : ∀ pieces, pieces.flatten.length < Length.sizeBound →
      List.Forall₂ (WritesEntry layout encoder) entries pieces →
        ReadsPieces encoder.rules (Decoder.readComponent encoder.rules
          (layout.map fun type => type.read encoder.rules) depth) none pieces entries) :
    DecodesAs ⟨info, .collection layout⟩ encoder.rules (.collection entries) tag? (depth + 1)
      ⟨tag?.getD tag, true⟩ octets := by
  refine decodesAs_constructed hsize ((writes_collection_iff htag).mp h) ?_
  intro c hc hcsize header mark htagHeader hconstructed hlength hend position
  obtain ⟨pieces, rfl, hpieces⟩ := (content_entries_eq_done_iff hlist).mp hc
  exact (reads_entries_iff htag hlist).mpr ⟨htagHeader, hconstructed, hlength, entries, rfl,
    (hentries pieces hcsize hpieces).readsElements hcsize hend position⟩

/-- A CHOICE has no element of its own, so that it is read from that of its only entry. -/
theorem decodesAs_choice {layout : Layout CompiledType} (hkind : layout.kind = .choice)
    {rules : EncodingRules} {entry : String × Value} {next? : Option Nat}
    (h : ReadsElement rules (Decoder.readComponent rules (layout.map fun type => type.read rules)
      depth none) identifier octets (entry, next?)) :
    DecodesAs ⟨info, .collection layout⟩ rules (.collection [entry]) none (depth + 1) identifier
      octets := by
  refine h.imp fun header position content _ hreads => ?_
  have hmatch := layout.match?_of_ne_sequence (by simp [hkind]) none header.tag
  cases hcomponent : layout.componentByTag? header.tag with
  | some component =>
      obtain ⟨hname, -, hvalue, -⟩ := (reads_component_iff (hmatch.trans hcomponent)).mp hreads
      refine (reads_choice_iff hkind hcomponent).mpr ⟨entry.2, ?_, hvalue⟩
      rw [← hname]
      rfl
  | none =>
      obtain ⟨hallows, -, hunknown⟩ := (reads_unknown_iff (hmatch.trans hcomponent)).mp hreads
      exact (reads_unknown_choice_iff hkind hcomponent).mpr
        ⟨hallows, entry.1, entry.2, rfl, hunknown⟩

end CompiledType

end Asn1

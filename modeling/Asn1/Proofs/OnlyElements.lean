import Asn1.Proofs.SequenceRule
import Asn1.Proofs.Splicing
import Asn1.Proofs.TypeComparison

/-!
Elements that are alone in the content of a collection. They are read as they would be without the
collection around them, provided that a SEQUENCE finds its component by their tag. The tags that it
goes by are all that the encodings of the component can start with, except for those of alternatives
that a CHOICE does not know.
-/

namespace Asn1

open Read Source

namespace CompiledType

variable {type : CompiledType} {tag : Tag} {value : Value}

/-- Whether a value is that of an alternative that an untagged CHOICE does not know. -/
def ChoosesUnknown (type : CompiledType) (value : Value) : Prop :=
  type.isUntaggedChoice = true ∧ ∃ name element, value = .choice name (.captured element)

section Collections

variable {info : TypeInfo} {layout : Layout CompiledType}

theorem eq_of_recognizes_collection {own : Tag} (hown : layout.kind.tag? = some own)
    (h : Recognizes ⟨info, .collection layout⟩ tag value) : tag = own := by
  cases value with
  | list items =>
      obtain ⟨htag, -⟩ := recognizes_list_iff.mp h
      exact Option.some.inj (htag.symm.trans hown)
  | collection entries => exact ((recognizes_entries_iff hown).mp h).1
  | _ =>
      rw [Recognizes, interpret_mk] at h
      exact h.elim

theorem exists_entry_of_recognizes_choice (hkind : layout.kind = .choice)
    (h : Recognizes ⟨info, .collection layout⟩ tag value) :
    ∃ name inner, value = .choice name inner ∧
      layout.RecognizesEntry Recognizes none tag (name, inner) := by
  cases value with
  | list items =>
      obtain ⟨htag, -⟩ := recognizes_list_iff.mp h
      rw [CollectionKind.tag?_eq_none_iff.mpr hkind] at htag
      contradiction
  | collection entries =>
      obtain ⟨⟨name, inner⟩, rfl, hentry⟩ := (recognizes_choice_iff hkind).mp h
      exact ⟨name, inner, rfl, hentry⟩
  | _ =>
      rw [Recognizes, interpret_mk] at h
      exact h.elim

end Collections

theorem mem_firstTags_of_recognizes (h : type.Recognizes tag value)
    (hknown : ¬type.ChoosesUnknown value) : tag ∈ type.firstTags := by
  induction type using formInduct generalizing tag value with
  | builtin info builtin =>
      rw [firstTags_builtin, List.mem_singleton]
      exact recognizes_builtin_iff.mp h
  | «alias» info target ih =>
      rw [firstTags_alias]
      rw [ChoosesUnknown, isUntaggedChoice_alias] at hknown
      exact ih (recognizes_alias_iff.mp h) hknown
  | tagged info given method inner ih =>
      rw [firstTags_tagged, List.mem_singleton]
      exact (recognizes_tagged_iff.mp h).1
  | collection info layout ih =>
      rw [firstTags_collection]
      cases hown : layout.kind.tag? with
      | some own =>
          rw [List.mem_singleton]
          exact eq_of_recognizes_collection hown h
      | none =>
          have hkind := CollectionKind.tag?_eq_none_iff.mp hown
          obtain ⟨name, value, rfl, hentry⟩ := exists_entry_of_recognizes_choice hkind h
          rw [Layout.RecognizesEntry] at hentry
          cases hmatch : layout.match? none tag with
          | some component =>
              exact List.mem_flatMap.mpr ⟨component, Layout.mem_components_of_match? hmatch,
                Layout.mem_tags_of_match? hmatch⟩
          | none =>
              simp only [hmatch] at hentry
              obtain ⟨captured, -, heq⟩ := hentry
              obtain ⟨rfl, rfl⟩ := Prod.mk.inj heq
              refine absurd ⟨?_, _, captured, rfl⟩ hknown
              rw [isUntaggedChoice_collection, hkind]
              rfl

end CompiledType

theorem ReadsElements.singleton {σ α : Type} {rules : EncodingRules}
    {readElement : σ → Header → Read (α × σ)} {position : Nat} {state next : σ}
    {form content : Octets} {header : Header} {a : α}
    (hform : Header.IsForm rules position form header) (hheader : header.isEndOfContents = false)
    (helement : (readElement state header).Reads (position + form.length) content (a, next)) :
    ReadsElements rules true readElement position state (form ++ content) [a] := by
  have hcons := ReadsElements.cons hform hheader helement (.nil rfl : ReadsElements rules true
    readElement (position + form.length + content.length) next [] [])
  rwa [List.append_nil] at hcons

theorem Layout.admits_singleton {layout : Layout CompiledType} {component : Component CompiledType}
    (hregular : layout.IsRegular) (hkind : layout.kind = .sequence)
    (hcomponents : layout.components = [component]) (value : Value) :
    layout.Admits [(component.name, value)] := by
  have hfind : layout.component? component.name = some component := by
    simp [component?, hcomponents]
  have hknown : layout.known [(component.name, value)] = [component] := by
    rw [known_cons_of_some hfind]
    rfl
  have hsequence : layout.IsSequence (fun _ _ => True) [(component.name, value)] := by
    refine .inr ⟨by simp, ?_, ?_, ?_, fun _ _ _ _ => trivial⟩
    · rw [hknown]
      exact List.pairwise_singleton _ _
    · intro before entry after heq hnone
      have hmem : entry ∈ [(component.name, value)] := by simp [heq]
      rw [List.mem_singleton.mp hmem, hfind] at hnone
      contradiction
    · intro other hother _ _
      rwa [hknown, ← hcomponents]
  exact ((isSequence_iff_admits hregular hkind).mp hsequence).1

namespace Schema

variable {schema : Schema} {handle collection : Handle} {type : CompiledType} {info : TypeInfo}
  {layout : Layout CompiledType} {component : Component CompiledType} {limit : Nat}
  {octets : Octets} {value : Value}

/-- The element of a SEQUENCE with the content. -/
def sequenceElement (content : Octets) : Octets :=
  headerOctets .sequence true (.definite content.length) ++ content

/-- The element of a SEQUENCE whose content is read is decoded if the type accepts what that gives.
-/
theorem decode_sequenceElement_iff (hsize : octets.length < Length.sizeBound)
    (hcompiled : schema.compiled handle = .ok type)
    (hread : ∀ header position, header.tag = .sequence → header.isConstructed = true →
      header.length = .definite octets.length →
        (type.read .der ⟨header, none, limit⟩).Reads position octets value) :
    schema.decode handle ⟨.der, limit⟩ (sequenceElement octets) = .ok value ↔
      schema.accept handle value = .ok () := by
  let header : Header := ⟨⟨.sequence, true⟩, .definite octets.length, 0⟩
  have hfault : header.fault? .der = none := Header.fault?_constructed_definite rfl _ _ _
  have hform : Header.IsForm .der 0 header.octets header :=
    Header.isForm_octets hfault fun size hlength => Length.definite.inj hlength ▸ hsize
  rw [decode_eq_ok_iff hcompiled]
  constructor
  · rintro ⟨_, _, _, -, -, -, haccept⟩
    exact haccept
  · intro haccept
    exact ⟨header.octets, header, octets, rfl, hform, hread header _ rfl rfl rfl, haccept⟩

theorem exists_element_of_decode (hcompiled : schema.compiled handle = .ok type)
    (hmark : octets ≠ Header.endOfContents)
    (h : schema.decode handle ⟨.der, limit⟩ octets = .ok value) (position : Nat) :
    ∃ form header content, octets = form ++ content ∧
      Header.IsForm .der position form header ∧ header.isEndOfContents = false ∧
        (type.read .der ⟨header, none, limit⟩).Reads (position + form.length) content value := by
  have hreads := (decode_eq_ok_iff_reads.mp h).at_position (isLocal_decodeOne _ _ _)
    (fun c => agrees_decodeOne c _ _ _) position
  obtain ⟨form, header, content, rfl, hform, hcontent, -⟩ :=
    (reads_decodeOne_iff hcompiled).mp hreads
  refine ⟨form, header, content, rfl, hform, ?_, hcontent⟩
  by_contra hheader
  rw [Bool.not_eq_false] at hheader
  obtain ⟨hidentifier, hlength⟩ := Header.eq_endOfContents hform.2.1 hheader
  obtain rfl := List.length_eq_zero_iff.mp ((CompiledType.isContent_of_reads hcontent).1 0 hlength)
  rw [List.append_nil, Header.eq_octets_of_isForm rfl hform, Header.octets, hidentifier,
    hlength] at hmark
  exact hmark rfl

theorem decode_entry_iff (hconsistent : schema.Consistent)
    (hhandle : schema.compiled handle = .ok component.type)
    (hcollection : schema.compiled collection = .ok ⟨info, .collection layout⟩)
    (hkind : layout.kind = .sequence) (hcomponents : layout.components = [component])
    (hrequired : component.isRequired = true) (hsize : octets.length < Length.sizeBound)
    (hmark : octets ≠ Header.endOfContents) (hknown : ¬component.type.ChoosesUnknown value)
    (h : schema.decode handle ⟨.der, limit⟩ octets = .ok value) :
    schema.decode collection ⟨.der, limit + 1⟩ (sequenceElement octets) =
        .ok (.collection [(component.name, value)]) ↔
      schema.accept collection (.collection [(component.name, value)]) = .ok () := by
  refine decode_sequenceElement_iff hsize hcollection ?_
  intro outer position htag hconstructed hlength
  obtain ⟨form, header, content, rfl, hform, hheader, hcontent⟩ :=
    exists_element_of_decode hhandle hmark h position
  have hmatch : layout.match? none header.tag = some component := by
    obtain ⟨tag, hrecognizes, htag⟩ := CompiledType.recognizes_of_reads hcontent
    obtain rfl : header.tag = tag := htag
    have hmem := CompiledType.mem_firstTags_of_recognizes hrecognizes hknown
    have hfirst := (hconsistent _ _ hcollection).firstTags layout rfl
    rw [← hfirst component (by simp [hcomponents])] at hmem
    simpa [Layout.match?, hkind, Layout.componentByTagFrom?, Layout.nextIndex, hcomponents,
      Component.hasTag] using hmem
  have hdefault : component.default? = none := by
    simpa [Component.isRequired] using (Bool.and_eq_true_iff.mp hrequired).2
  have hentry : (Decoder.readComponent .der (layout.map fun type => type.read .der) limit none
      header).Reads (position + form.length) content
        ((component.name, value), some component.index) :=
    (CompiledType.reads_component_iff hmatch).mpr
      ⟨rfl, rfl, hcontent, fun _ => by simp [hdefault]⟩
  refine (CompiledType.reads_entries_iff (by rw [hkind]; rfl) (by rw [hkind]; rfl)).mpr
    ⟨htag, hconstructed, ?_, _, rfl, ?_⟩
  · intro size hdefinite
    exact Length.definite.inj (hlength.symm.trans hdefinite)
  · rw [hlength]
    exact .singleton hform hheader hentry

theorem decode_item_iff (hhandle : schema.compiled handle = .ok component.type)
    (hcollection : schema.compiled collection = .ok ⟨info, .collection layout⟩)
    (hkind : layout.kind = .sequenceOf) (helement : layout.element? = some component)
    (hsize : octets.length < Length.sizeBound) (hmark : octets ≠ Header.endOfContents)
    (h : schema.decode handle ⟨.der, limit⟩ octets = .ok value) :
    schema.decode collection ⟨.der, limit + 1⟩ (sequenceElement octets) = .ok (.list [value]) ↔
      schema.accept collection (.list [value]) = .ok () := by
  refine decode_sequenceElement_iff hsize hcollection ?_
  intro outer position htag hconstructed hlength
  obtain ⟨form, header, content, rfl, hform, hheader, hcontent⟩ :=
    exists_element_of_decode hhandle hmark h position
  have hitem : (Decoder.readItem (component.map fun type => type.read .der) limit () header).Reads
      (position + form.length) content (value, ()) :=
    (Decoder.reads_readItem_iff (CompiledType.isLocal_read component.type .der)).mpr hcontent
  refine (CompiledType.reads_list_iff (by rw [hkind]; rfl) (by rw [hkind]; rfl) helement).mpr
    ⟨htag, hconstructed, ?_, _, rfl, ?_⟩
  · intro size hdefinite
    exact Length.definite.inj (hlength.symm.trans hdefinite)
  · rw [hlength]
    exact .singleton hform hheader hitem

theorem accept_entry (hconsistent : schema.Consistent)
    (hhandle : schema.compiled handle = .ok component.type)
    (hcollection : schema.compiled collection = .ok ⟨info, .collection layout⟩)
    (hkind : layout.kind = .sequence) (hcomponents : layout.components = [component])
    (hconstraints : info.constraints = []) (hranges : component.type.HasRangesOnly)
    (h : schema.accept handle value = .ok ()) :
    schema.accept collection (.collection [(component.name, value)]) = .ok () := by
  have hregular := (hconsistent _ _ hcollection).regular layout rfl
  rw [accept_collection_iff hconsistent hcollection (by rw [hkind]; rfl)]
  refine ⟨⟨Layout.admits_singleton hregular hkind hcomponents value, ?_⟩, by simp [hconstraints]⟩
  intro entry hentry found hfind
  obtain rfl := List.mem_singleton.mp hentry
  obtain rfl : component = found := by simpa [Layout.component?, hcomponents] using hfind
  exact (hconsistent.accept_iff_accept_top hhandle hranges _ _).mpr h

theorem accept_item (hconsistent : schema.Consistent)
    (hhandle : schema.compiled handle = .ok component.type)
    (hcollection : schema.compiled collection = .ok ⟨info, .collection layout⟩)
    (hkind : layout.kind = .sequenceOf) (helement : layout.element? = some component)
    (hconstraints : info.constraints = []) (hranges : component.type.HasRangesOnly)
    (h : schema.accept handle value = .ok ()) :
    schema.accept collection (.list [value]) = .ok () := by
  have hregular : ∀ found, TypeForm.collection layout = .collection found → found.IsRegular :=
    (hconsistent _ _ hcollection).regular
  rw [accept_eq_ok_iff hcollection, CompiledType.accept_mk_iff_of_not_isReference hregular rfl,
    TypeForm.accepts_list_iff (by rw [hkind]; rfl) helement, hconstraints]
  refine ⟨fun item hitem => ?_, by simp⟩
  obtain rfl := List.mem_singleton.mp hitem
  exact (hconsistent.accept_iff_accept_top hhandle hranges _ _).mpr h

/-- What is decoded alone is decoded as the only component of a SEQUENCE, one level further down, if
the constraints of the SEQUENCE, and those of the type inside it, let it pass. The octets must not
be an end-of-contents marker, nor an alternative that a CHOICE does not know. In a list unknown
alternatives are decoded as well. Constraints that are no custom ones let the value pass again. -/
theorem Reachable.decode_as_only_element (hreachable : schema.Reachable)
    (hhandle : schema.compiled handle = .ok type) (hsize : octets.length < Length.sizeBound)
    (hmark : octets ≠ Header.endOfContents)
    (hdecode : schema.decode handle ⟨.der, limit⟩ octets = .ok value) :
    (∀ collection info layout component,
      schema.compiled collection = .ok ⟨info, .collection layout⟩ → layout.kind = .sequence →
      layout.components = [component] → component.isRequired = true →
      component.type.handle = handle → ¬type.ChoosesUnknown value →
        let entries : Value := .collection [(component.name, value)]
        (schema.decode collection ⟨.der, limit + 1⟩ (sequenceElement octets) = .ok entries ↔
          schema.accept collection entries = .ok ()) ∧
        (info.constraints = [] → type.HasRangesOnly →
          schema.accept collection entries = .ok ())) ∧
    (∀ collection info layout component,
      schema.compiled collection = .ok ⟨info, .collection layout⟩ → layout.kind = .sequenceOf →
      layout.element? = some component → component.type.handle = handle →
        (schema.decode collection ⟨.der, limit + 1⟩ (sequenceElement octets) =
            .ok (.list [value]) ↔
          schema.accept collection (.list [value]) = .ok ()) ∧
        (info.constraints = [] → type.HasRangesOnly →
          schema.accept collection (.list [value]) = .ok ())) := by
  have hconsistent := hreachable.consistent
  obtain ⟨_, _, _, -, -, -, haccept⟩ := (decode_eq_ok_iff hhandle).mp hdecode
  have hsame {collection : Handle} {info : TypeInfo} {layout : Layout CompiledType}
      {component : Component CompiledType}
      (hcollection : schema.compiled collection = .ok ⟨info, .collection layout⟩)
      (hmem : component ∈ layout.components) (htype : component.type.handle = handle) :
      type = component.type := by
    have hcomponent := (hconsistent _ _ hcollection).types _ (TypeForm.type_mem_types hmem)
    rw [htype] at hcomponent
    exact Except.ok.inj (hhandle.symm.trans hcomponent)
  constructor
  · intro collection info layout component hcollection hkind hcomponents hrequired htype hknown
    obtain rfl := hsame hcollection (by simp [hcomponents]) htype
    exact ⟨decode_entry_iff hconsistent hhandle hcollection hkind hcomponents hrequired hsize hmark
      hknown hdecode, fun hconstraints hranges => accept_entry hconsistent hhandle hcollection hkind
        hcomponents hconstraints hranges haccept⟩
  · intro collection info layout component hcollection hkind helement htype
    obtain rfl := hsame hcollection (Layout.mem_components_of_element? helement) htype
    exact ⟨decode_item_iff hhandle hcollection hkind helement hsize hmark hdecode,
      fun hconstraints hranges => accept_item hconsistent hhandle hcollection hkind helement
        hconstraints hranges haccept⟩

/-- A compiled CHOICE with an extension marker, a SEQUENCE and a list of it, and a SEQUENCE of an
INTEGER whose size is constrained. -/
def onlyElements : Schema :=
  let sequence (type : Handle) (constraints : List Constraint) : Declaration :=
    ⟨.collection ⟨.sequence, false, false,
      [.components [⟨"c", .handle type, false, none⟩]], [], []⟩, constraints⟩
  let list : CollectionDeclaration := .ofShape (.sequenceOf (.handle ⟨1⟩))
  let schema := ((extensibleChoice.add (sequence ⟨1⟩ [])).2.add ⟨.collection list, []⟩).2
  (compileAll.outcome (schema.add (sequence ⟨0⟩ [.size ⟨0, none⟩])).2).2

theorem reachable_onlyElements : onlyElements.Reachable :=
  .compileAll (.add (.add (.add (.compile (.add (.add .empty _) _) _) _) _) _)

/-- The type of the CHOICE in it. -/
def onlyElementsChoice : CompiledType :=
  let integer : CompiledType := ⟨⟨⟨0⟩, none, []⟩, .builtin .integer⟩
  ⟨⟨⟨1⟩, none, []⟩, .collection ⟨.choice, true,
    [⟨"i", 0, 1, false, none, .handle ⟨0⟩, integer, false, [.integer]⟩]⟩⟩

/-- The layout of a collection in it that has a component of this type. -/
def onlyElementsLayout (kind : CollectionKind) (name : String) : Layout CompiledType :=
  ⟨kind, false, [⟨name, 0, 1, false, none, .handle ⟨1⟩, onlyElementsChoice, false, [.integer]⟩]⟩

theorem compiled_onlyElements :
    onlyElements.compiled ⟨1⟩ = .ok onlyElementsChoice ∧
      onlyElements.compiled ⟨2⟩ =
        .ok ⟨⟨⟨2⟩, none, []⟩, .collection (onlyElementsLayout .sequence "c")⟩ ∧
      onlyElements.compiled ⟨3⟩ =
        .ok ⟨⟨⟨3⟩, none, []⟩, .collection (onlyElementsLayout .sequenceOf "item")⟩ := by
  refine ⟨?_, ?_, ?_⟩
  all_goals
    apply compiled_of_hasCompiled
    decide +kernel

theorem decode_as_only_element_onlyElements :
    let octets : Octets := [0x02, 0x01, 0x05]
    let value : Value := .collection [("i", .integer ⟨5, by decide, by decide⟩)]
    onlyElements.decode ⟨1⟩ ⟨.der, 2⟩ octets = .ok value ∧
      onlyElements.decode ⟨2⟩ ⟨.der, 3⟩ (sequenceElement octets) =
        .ok (.collection [("c", value)]) ∧
        onlyElements.decode ⟨3⟩ ⟨.der, 3⟩ (sequenceElement octets) = .ok (.list [value]) := by
  intro octets value
  obtain ⟨hchoice, hsequence, hlist⟩ := compiled_onlyElements
  have hdecode : onlyElements.decode ⟨1⟩ ⟨.der, 2⟩ octets = .ok value := by decide +kernel
  have hknown : ¬onlyElementsChoice.ChoosesUnknown value := by
    rintro ⟨-, name, element, heq⟩
    simp [value, Value.choice] at heq
  have hranges : onlyElementsChoice.HasRangesOnly := by
    rw [onlyElementsChoice, CompiledType.HasRangesOnly, CompiledType.forall_reaches_mk_iff]
    simp [CompiledType.forall_reaches_mk_iff, TypeForm.types, CompiledType.info]
  obtain ⟨hentry, hitem⟩ := reachable_onlyElements.decode_as_only_element hchoice
    (by decide) (by decide) hdecode
  obtain ⟨hentry, hacceptEntry⟩ := hentry _ _ _ _ hsequence rfl rfl rfl rfl hknown
  obtain ⟨hitem, hacceptItem⟩ := hitem _ _ _ _ hlist rfl rfl rfl
  exact ⟨hdecode, hentry.mpr (hacceptEntry rfl hranges), hitem.mpr (hacceptItem rfl hranges)⟩

/-- A SEQUENCE does not find its component by the tag of an alternative that the type of the
component does not know, nor by that of the end-of-contents marker, and may refuse what it finds. -/
theorem exists_not_decoded_as_only_element :
    let captured (tag : Tag) (octets : Octets) : Value :=
      .choice tag.text (.captured ⟨⟨tag, false⟩, octets⟩)
    onlyElements.decode ⟨1⟩ ⟨.der, 64⟩ [0x85, 0x00] = .ok (captured (.context 5) [0x85, 0x00]) ∧
      onlyElements.decode ⟨2⟩ ⟨.der, 65⟩ [0x30, 0x02, 0x85, 0x00] =
        .error (.format (.unknownTag (.context 5)) 2) ∧
      onlyElements.decode ⟨1⟩ ⟨.der, 64⟩ [0x00, 0x00] =
        .ok (captured (.universal 0) [0x00, 0x00]) ∧
      onlyElements.decode ⟨2⟩ ⟨.der, 65⟩ [0x30, 0x02, 0x00, 0x00] =
        .error (.format (.illegalTag .unexpectedEndOfContents) 2) ∧
      onlyElements.decode ⟨0⟩ ⟨.der, 64⟩ [0x02, 0x01, 0x05] =
        .ok (.integer ⟨5, by decide, by decide⟩) ∧
      onlyElements.decode ⟨4⟩ ⟨.der, 65⟩ [0x30, 0x03, 0x02, 0x01, 0x05] =
        .error (.format (.value (.illegal (.sizeNotApplicable .collection))) 0) := by
  refine ⟨?_, ?_, ?_, ?_, ?_, ?_⟩
  · decide +kernel
  · decide +kernel
  · decide +kernel
  · decide +kernel
  · decide +kernel
  · decide +kernel

end Schema

end Asn1

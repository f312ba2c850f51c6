import Asn1.Proofs.CompilationSteps
import Asn1.Proofs.Conforming
import Asn1.Proofs.TypeReading
import Asn1.Proofs.TypeWriting

namespace Asn1

open Read Source Results

/-- An element whose content is that of a string in segments. -/
def segmentedElement (tag : Tag) (parts : List Octets) : Octets :=
  headerOctets tag true .indefinite ++
    ((parts.map (primitiveElement .octetString)).flatten ++ Header.endOfContents)

/-- Segments of the full size, and a shorter rest that comes after them. -/
structure AreCut (full : List Octets) (last : Octets) : Prop where
  length_eq : ∀ segment ∈ full, segment.length = EncodingRules.segmentLength
  length_lt : last.length < EncodingRules.segmentLength

namespace AreCut

theorem nil {last : Octets} (h : last.length < EncodingRules.segmentLength) : AreCut [] last := by
  refine ⟨?_, h⟩
  simp

theorem cons {segment last : Octets} {full : List Octets}
    (hsegment : segment.length = EncodingRules.segmentLength) (h : AreCut full last) :
    AreCut (segment :: full) last :=
  ⟨List.forall_mem_cons.mpr ⟨hsegment, h.length_eq⟩, h.length_lt⟩

theorem head {segment last : Octets} {full : List Octets} (h : AreCut (segment :: full) last) :
    segment.length = EncodingRules.segmentLength :=
  h.length_eq segment List.mem_cons_self

theorem tail {segment last : Octets} {full : List Octets} (h : AreCut (segment :: full) last) :
    AreCut full last := by
  refine ⟨?_, h.length_lt⟩
  intro other hmem
  exact h.length_eq other (List.mem_cons_of_mem _ hmem)

/-- A string is written in full segments and, if something is left, a shorter one. -/
theorem segments_eq {full : List Octets} {last : Octets} (h : AreCut full last) :
    segments EncodingRules.segmentLength (full.flatten ++ last) =
      if last = [] then full else full ++ [last] := by
  have hpositive : 0 < EncodingRules.segmentLength := by decide
  induction full with
  | nil =>
      have hshort := h.length_lt
      rw [List.flatten_nil, List.nil_append, segments, if_neg (by omega)]
      simp
  | cons segment rest ih =>
      have hsegment := h.head
      have hrest : rest.flatten ++ last = [] → rest = [] ∧ last = [] := by
        intro hnil
        obtain ⟨hrest, hlast⟩ := List.append_eq_nil_iff.mp hnil
        refine ⟨?_, hlast⟩
        cases rest with
        | nil => rfl
        | cons other rest =>
            have hother := h.tail.head
            simp only [List.flatten_cons, List.append_eq_nil_iff] at hrest
            simp [← hother, hrest.1] at hpositive
      rw [List.flatten_cons, List.append_assoc, segments]
      by_cases hempty : rest.flatten ++ last = []
      · obtain ⟨rfl, rfl⟩ := hrest hempty
        have hne : segment ≠ [] := by
          rintro rfl
          simp [← hsegment] at hpositive
        rw [if_neg (by simp [hsegment])]
        simp [hne]
      · have hlong : 0 < (rest.flatten ++ last).length := List.length_pos_iff.mpr hempty
        rw [if_pos ⟨hpositive, by rw [List.length_append]; omega⟩, ← hsegment, List.take_left,
          List.drop_left, hsegment, ih h.tail]
        split <;> simp

theorem unique {full others : List Octets} {last rest : Octets} (h : AreCut full last)
    (hothers : AreCut others rest) (heq : full.flatten ++ last = others.flatten ++ rest) :
    full = others ∧ last = rest := by
  have hlonger {segment last rest : Octets} {others : List Octets} (h : AreCut [] last)
      (hothers : AreCut (segment :: others) rest) :
      last ≠ (segment :: others).flatten ++ rest := by
    rintro rfl
    have hlength := h.length_lt
    simp only [List.flatten_cons, List.length_append, hothers.head] at hlength
    omega
  induction full generalizing others with
  | nil =>
      cases others with
      | nil => exact ⟨rfl, heq⟩
      | cons segment others => exact absurd heq (hlonger h hothers)
  | cons segment full ih =>
      cases others with
      | nil => exact absurd heq.symm (hlonger hothers h)
      | cons other others =>
          rw [List.flatten_cons, List.flatten_cons, List.append_assoc, List.append_assoc] at heq
          obtain ⟨rfl, hrest⟩ := List.append_inj heq (h.head.trans hothers.head.symm)
          obtain ⟨rfl, rfl⟩ := ih h.tail hothers.tail hrest
          exact ⟨rfl, rfl⟩

end AreCut

/-- Which segments are read: the shorter one behind the full ones may be missing, or empty. -/
theorem areSegments_false_iff {parts : List Octets} :
    AreSegments false parts ↔
      ∃ full last, AreCut full last ∧ (parts = full ++ [last] ∨ last = [] ∧ parts = full) := by
  have hpositive : 0 < EncodingRules.segmentLength := by decide
  constructor
  · intro h
    induction parts with
    | nil => exact ⟨[], [], .nil (by simpa using hpositive), .inr ⟨rfl, rfl⟩⟩
    | cons segment rest ih =>
        obtain ⟨-, hsize, hrest⟩ := h
        rcases hsize.lt_or_eq with hshort | hfull
        · rw [decide_eq_true hshort] at hrest
          cases rest with
          | nil => exact ⟨[], segment, .nil hshort, .inl rfl⟩
          | cons other rest => exact absurd hrest.1 (by decide)
        · rw [hfull, decide_eq_false (lt_irrefl _)] at hrest
          obtain ⟨full, last, hcut, hparts⟩ := ih hrest
          refine ⟨segment :: full, last, hcut.cons hfull, ?_⟩
          rcases hparts with rfl | ⟨rfl, rfl⟩
          · exact .inl rfl
          · exact .inr ⟨rfl, rfl⟩
  · rintro ⟨full, last, hcut, hparts⟩
    induction full generalizing parts with
    | nil =>
        rcases hparts with rfl | ⟨-, rfl⟩
        · exact ⟨rfl, hcut.length_lt.le, trivial⟩
        · trivial
    | cons segment rest ih =>
        have hstep (others : List Octets)
            (hothers : others = rest ++ [last] ∨ last = [] ∧ others = rest) :
            AreSegments false (segment :: others) := by
          refine ⟨rfl, hcut.head.le, ?_⟩
          rw [hcut.head, decide_eq_false (lt_irrefl _)]
          exact ih hcut.tail hothers
        rcases hparts with rfl | ⟨hlast, rfl⟩
        · exact hstep _ (.inl rfl)
        · exact hstep _ (.inr ⟨hlast, rfl⟩)

theorem AreSegments.exists_cut {parts : List Octets} (h : AreSegments false parts) :
    ∃ full last, AreCut full last ∧ parts.flatten = full.flatten ++ last ∧
      (parts = full ++ [last] ∨ last = [] ∧ parts = full) := by
  obtain ⟨full, last, hcut, hparts⟩ := areSegments_false_iff.mp h
  refine ⟨full, last, hcut, ?_, hparts⟩
  rcases hparts with rfl | ⟨rfl, rfl⟩ <;> simp

namespace CompiledType

/-- Whether a type is a leaf type with at most implicit tags, the outermost of which is its tag. -/
inductive IsTaggedLeaf (builtin : Builtin) : CompiledType → Tag → Prop
  | builtin (info : TypeInfo) : IsTaggedLeaf builtin ⟨info, .builtin builtin⟩ builtin.tag
  | alias (info : TypeInfo) {target : CompiledType} {tag : Tag}
    (htarget : IsTaggedLeaf builtin target tag) : IsTaggedLeaf builtin ⟨info, .alias target⟩ tag
  | implicit (info : TypeInfo) (tag : Tag) {inner : CompiledType} {other : Tag}
    (hinner : IsTaggedLeaf builtin inner other) :
    IsTaggedLeaf builtin ⟨info, .tagged tag .implicit inner⟩ tag

namespace IsTaggedLeaf

variable {builtin : Builtin} {type : CompiledType} {tag : Tag}

theorem read_eq_of_reads (h : type.IsTaggedLeaf builtin tag) {rules : EncodingRules}
    {header : Header} {tag? : Option Tag} {depth position : Nat} {octets : Octets} {value : Value}
    (hreads : (type.read rules ⟨header, tag?, depth⟩).Reads position octets value) :
    ∃ left, type.read rules ⟨header, tag?, depth⟩ =
      Decoder.readBuiltin rules builtin ⟨header, some (tag?.getD tag), left⟩ := by
  induction h generalizing tag? depth with
  | builtin info =>
      cases depth with
      | zero => exact absurd hreads (by rw [read_zero]; exact not_reads_failAt)
      | succ depth => exact ⟨depth, read_builtin builtin⟩
  | «alias» info htarget ih =>
      cases depth with
      | zero => exact absurd hreads (by rw [read_zero]; exact not_reads_failAt)
      | succ depth =>
          rw [read_alias] at hreads ⊢
          exact ih hreads
  | implicit info tag hinner ih =>
      cases depth with
      | zero => exact absurd hreads (by rw [read_zero]; exact not_reads_failAt)
      | succ depth =>
          rw [read_implicit] at hreads ⊢
          exact ih hreads

theorem writes_iff (h : type.IsTaggedLeaf builtin tag) {encoder : Encoder} {value : Value}
    {tag? : Option Tag} {octets : Octets} :
    type.Writes encoder value tag? octets ↔
      encoder.builtin builtin value (tag?.getD tag) = .done octets := by
  induction h generalizing tag? with
  | builtin info => exact writes_builtin_iff
  | «alias» info htarget ih => exact writes_alias_iff.trans ih
  | implicit info tag hinner ih => exact writes_implicit_iff.trans ih

theorem canonicalize_of_accept (h : type.IsTaggedLeaf builtin tag) {values : NamedValues}
    {scope : Scope} {value : Value} (hvalue : value.isReference = false)
    (haccept : type.accept values scope value = .ok ()) :
    type.canonicalize values scope value = .ok ⟨value, false⟩ := by
  have hmk (info : TypeInfo) (form : TypeForm CompiledType)
      (hlayout : ∀ layout, form ≠ .collection layout)
      (hform : ∀ scope, form.Accepts values scope value →
        form.Canonicalizes values scope value ⟨value, false⟩) {scope : Scope}
      (haccept : CompiledType.accept ⟨info, form⟩ values scope value = .ok ()) :
      CompiledType.canonicalize ⟨info, form⟩ values scope value = .ok ⟨value, false⟩ := by
    have hregular : ∀ layout, form = .collection layout → layout.IsRegular :=
      fun layout heq => absurd heq (hlayout layout)
    have hresolve : values.resolve value = .ok value :=
      NamedValues.resolve_of_not_isReference hvalue
    obtain ⟨haccepts, hchecks⟩ := (accept_mk_iff_of_not_isReference hregular hvalue).mp haccept
    exact (canonicalize_mk_iff hregular).mpr
      ⟨value, ⟨value, false⟩, hresolve, hform _ haccepts, hchecks, by simp [hvalue]⟩
  induction h generalizing scope with
  | builtin info =>
      exact hmk info (.builtin builtin) (by simp) (fun _ haccepts => ⟨haccepts, rfl⟩) haccept
  | @«alias» info target _ _ ih =>
      exact hmk info (.alias target) (by simp) (fun _ haccepts => ih haccepts) haccept
  | @implicit info tag inner _ _ ih =>
      exact hmk info (.tagged tag .implicit inner) (by simp) (fun _ haccepts => ih haccepts) haccept

end IsTaggedLeaf

end CompiledType

namespace Schema

variable {schema : Schema} {handle : Handle} {type : CompiledType} {builtin : Builtin} {tag : Tag}
  {maxDepth : Nat} {octets : Octets} {value : Value}

/-- A string is written in segments only if it does not fit into one. -/
theorem encode_taggedLeaf (hcompiled : schema.compiled handle = .ok type)
    (hleaf : type.IsTaggedLeaf builtin tag) (hsegmentable : builtin.isSegmentable = true)
    (haccept : schema.accept handle value = .ok ()) {content : Octets}
    (hcontent : Builtin.IsContent .cer builtin value content) (buffering : Bool) :
    (schema.encode handle ⟨.cer, buffering⟩ value).toExcept =
      .ok (if EncodingRules.segmentLength < content.length then
        segmentedElement tag (segments EncodingRules.segmentLength content)
      else primitiveElement tag content) := by
  have hvalue : value.isReference = false :=
    (Builtin.isLeaf_of_decodeContent (Builtin.decodeContent_of_isContent hcontent)).isReference
  have hform : schema.canonicalize handle value = .ok ⟨value, false⟩ :=
    (canonicalize_eq_ok_iff hcompiled).mpr
      ⟨⟨value, NamedValues.resolve_of_not_isReference hvalue⟩,
        hleaf.canonicalize_of_accept hvalue ((accept_eq_ok_iff hcompiled).mp haccept)⟩
  rw [encode_eq_done_iff hcompiled hform, hleaf.writes_iff, Encoder.builtin_eq_done_iff]
  refine ⟨content, Builtin.encodeContent_of_isContent hcontent, ?_⟩
  have hsegmented : Encoder.IsSegmented .cer builtin content ↔
      EncodingRules.segmentLength < content.length := by
    simp [Encoder.IsSegmented, hsegmentable, EncodingRules.allowsDefiniteConstructed]
  split
  · next hlong => exact .inr ⟨hsegmented.mpr hlong, rfl⟩
  · next hshort => exact .inl ⟨mt hsegmented.mp hshort, rfl⟩

theorem exists_of_decode_taggedLeaf (hcompiled : schema.compiled handle = .ok type)
    (hleaf : type.IsTaggedLeaf builtin tag) (hsegmentable : builtin.isSegmentable = true)
    (hdecode : schema.decode handle ⟨.cer, maxDepth⟩ octets = .ok value) :
    ∃ content, Builtin.IsContent .cer builtin value content ∧
      ((content.length ≤ EncodingRules.segmentLength ∧ octets = primitiveElement tag content) ∨
        (EncodingRules.segmentLength < content.length ∧ ∃ parts, AreSegments false parts ∧
          content = parts.flatten ∧ octets = segmentedElement tag parts ∧ ∃ left,
            type.read .cer ⟨⟨⟨tag, true⟩, .indefinite, 0⟩, none, maxDepth⟩ = Decoder.readBuiltin
              .cer builtin ⟨⟨⟨tag, true⟩, .indefinite, 0⟩, some tag, left⟩)) := by
  obtain ⟨form, header, rest, rfl, hform, hreads, -⟩ := (decode_eq_ok_iff hcompiled).mp hdecode
  obtain ⟨left, hread⟩ := hleaf.read_eq_of_reads hreads
  rw [hread] at hreads
  have hheader := Header.eq_octets_of_isForm rfl hform
  obtain ⟨⟨outer, constructed⟩, length, start⟩ := header
  cases constructed with
  | false =>
      obtain ⟨rfl, hlength, hshort, hvalue⟩ := (reads_readBuiltin_primitive_iff rfl).mp hreads
      obtain rfl : length = _ := hlength
      refine ⟨rest, Builtin.isContent_of_decodeContent rfl hvalue, .inl ⟨?_, ?_⟩⟩
      · simpa [hsegmentable, EncodingRules.allowsDefiniteConstructed] using hshort
      · rw [hheader]
        rfl
  | true =>
      cases length with
      | definite size =>
          exact absurd (Header.allowsDefinite_of_fault? hform.2.1 rfl rfl)
            (by simp [EncodingRules.allowsDefiniteConstructed])
      | indefinite =>
          obtain ⟨rfl, parts, hparts, rfl, hlong, hvalue⟩ :=
            (reads_readBuiltin_segments_iff hsegmentable rfl rfl).mp hreads
          obtain rfl : start = 0 := hform.1
          refine ⟨_, Builtin.isContent_of_decodeContent rfl hvalue,
            .inr ⟨hlong, parts, hparts, rfl, ?_, left, hread⟩⟩
          rw [hheader]
          rfl

theorem decode_segmentedElement (hcompiled : schema.compiled handle = .ok type) {left : Nat}
    (hread : type.read .cer ⟨⟨⟨tag, true⟩, .indefinite, 0⟩, none, maxDepth⟩ =
      Decoder.readBuiltin .cer builtin ⟨⟨⟨tag, true⟩, .indefinite, 0⟩, some tag, left⟩)
    (hsegmentable : builtin.isSegmentable = true) {parts : List Octets}
    (hparts : AreSegments false parts)
    (hlong : EncodingRules.segmentLength < parts.flatten.length)
    (hcontent : Builtin.IsContent .cer builtin value parts.flatten)
    (haccept : schema.accept handle value = .ok ()) :
    schema.decode handle ⟨.cer, maxDepth⟩ (segmentedElement tag parts) = .ok value := by
  have hform : Header.IsForm .cer 0 (headerOctets tag true .indefinite)
      ⟨⟨tag, true⟩, .indefinite, 0⟩ :=
    Header.isForm_octets (Header.fault?_constructed_indefinite rfl tag 0) (by simp)
  refine (decode_eq_ok_iff hcompiled).mpr ⟨_, _, _, rfl, hform, ?_, haccept⟩
  rw [hread]
  exact (reads_readBuiltin_segments_iff hsegmentable rfl rfl).mpr
    ⟨rfl, parts, hparts, rfl, hlong, Builtin.decodeContent_of_isContent hcontent⟩

/-- If a string consists of full segments, an empty one may stand behind them. -/
theorem decode_fullSegments_iff (hcompiled : schema.compiled handle = .ok type)
    (hleaf : type.IsTaggedLeaf builtin tag) (hsegmentable : builtin.isSegmentable = true)
    {left : Nat} (hread : type.read .cer ⟨⟨⟨tag, true⟩, .indefinite, 0⟩, none, maxDepth⟩ =
      Decoder.readBuiltin .cer builtin ⟨⟨⟨tag, true⟩, .indefinite, 0⟩, some tag, left⟩)
    {full : List Octets} (hcut : AreCut full [])
    (hlong : EncodingRules.segmentLength < full.flatten.length)
    (hcontent : Builtin.IsContent .cer builtin value full.flatten)
    (haccept : schema.accept handle value = .ok ()) :
    schema.decode handle ⟨.cer, maxDepth⟩ octets = .ok value ↔
      octets = segmentedElement tag full ∨ octets = segmentedElement tag (full ++ [[]]) := by
  constructor
  · intro hdecode
    obtain ⟨content, hfound, hoctets⟩ :=
      exists_of_decode_taggedLeaf hcompiled hleaf hsegmentable hdecode
    obtain rfl : full.flatten = content := Except.ok.inj <|
      (Builtin.encodeContent_of_isContent hcontent).symm.trans
        (Builtin.encodeContent_of_isContent hfound)
    obtain ⟨hshort, -⟩ | ⟨-, parts, hparts, hsame, rfl, -⟩ := hoctets
    · omega
    · obtain ⟨whole, rest, hwhole, hjoined, hform⟩ := hparts.exists_cut
      obtain ⟨rfl, rfl⟩ := hcut.unique hwhole (by rw [← hjoined, ← hsame, List.append_nil])
      rcases hform with rfl | ⟨-, rfl⟩
      · exact .inr rfl
      · exact .inl rfl
  · have hdecode (parts : List Octets) (hjoined : parts.flatten = full.flatten)
        (hparts : parts = full ++ [[]] ∨ ([] : Octets) = [] ∧ parts = full) :
        schema.decode handle ⟨.cer, maxDepth⟩ (segmentedElement tag parts) = .ok value :=
      decode_segmentedElement hcompiled hread hsegmentable
        (areSegments_false_iff.mpr ⟨full, [], hcut, hparts⟩) (hjoined ▸ hlong)
        (hjoined ▸ hcontent) haccept
    rintro (rfl | rfl)
    · exact hdecode full rfl (.inr ⟨rfl, rfl⟩)
    · exact hdecode _ (by simp) (.inl rfl)

/-- A string that is decoded under canonical rules is encoded to what it was decoded from, unless
its content consists of full segments only. Behind those an empty segment is read, but not written.
-/
theorem encode_of_decode_taggedLeaf (hcompiled : schema.compiled handle = .ok type)
    (hleaf : type.IsTaggedLeaf builtin tag) (hsegmentable : builtin.isSegmentable = true)
    (hdecode : schema.decode handle ⟨.cer, maxDepth⟩ octets = .ok value) :
    ∃ content, builtin.encodeContent .cer value = .ok content ∧
      (content.length ≤ EncodingRules.segmentLength →
        octets = primitiveElement tag content ∧
          ∀ buffering, (schema.encode handle ⟨.cer, buffering⟩ value).toExcept = .ok octets) ∧
      (EncodingRules.segmentLength < content.length →
        ∃ full last, AreCut full last ∧ content = full.flatten ++ last ∧
          (last ≠ [] → octets = segmentedElement tag (full ++ [last]) ∧
            ∀ buffering, (schema.encode handle ⟨.cer, buffering⟩ value).toExcept = .ok octets) ∧
          (last = [] →
            (∀ buffering, (schema.encode handle ⟨.cer, buffering⟩ value).toExcept =
              .ok (segmentedElement tag full)) ∧
            ∀ others, schema.decode handle ⟨.cer, maxDepth⟩ others = .ok value ↔
              others = segmentedElement tag full ∨
                others = segmentedElement tag (full ++ [[]]))) := by
  obtain ⟨content, hcontent, hoctets⟩ :=
    exists_of_decode_taggedLeaf hcompiled hleaf hsegmentable hdecode
  obtain ⟨-, -, -, -, -, -, haccept⟩ := (decode_eq_ok_iff hcompiled).mp hdecode
  have hencode := encode_taggedLeaf hcompiled hleaf hsegmentable haccept hcontent
  refine ⟨content, Builtin.encodeContent_of_isContent hcontent, fun hshort => ?_, fun hlong => ?_⟩
  · rw [if_neg (by omega)] at hencode
    obtain ⟨-, rfl⟩ | ⟨hlong, -⟩ := hoctets
    · exact ⟨rfl, hencode⟩
    · omega
  · rw [if_pos hlong] at hencode
    obtain ⟨hshort, -⟩ | ⟨-, parts, hparts, rfl, rfl, left, hread⟩ := hoctets
    · omega
    · obtain ⟨full, last, hcut, hjoined, hform⟩ := hparts.exists_cut
      rw [hjoined, hcut.segments_eq] at hencode
      refine ⟨full, last, hcut, hjoined, fun hlast => ?_, ?_⟩
      · rw [if_neg hlast] at hencode
        rcases hform with rfl | ⟨hnil, -⟩
        · exact ⟨rfl, hencode⟩
        · exact absurd hnil hlast
      · rintro rfl
        rw [List.append_nil] at hjoined
        exact ⟨by simpa using hencode, fun others => decode_fullSegments_iff hcompiled hleaf
          hsegmentable hread hcut (hjoined ▸ hlong) (hjoined ▸ hcontent) haccept⟩

/-- An OCTET STRING, and the same with an implicit tag. -/
def implicitString : Schema :=
  let schema := (empty.add ⟨.builtin .octetString, []⟩).2
  ((Schema.compile ⟨1⟩).outcome
    (schema.add ⟨.tagged (.context 0) .implicit (.handle ⟨0⟩), []⟩).2).2

theorem compiled_implicitString :
    let octetString : CompiledType := ⟨⟨⟨0⟩, none, []⟩, .builtin .octetString⟩
    implicitString.compiled ⟨0⟩ = .ok octetString ∧
      implicitString.compiled ⟨1⟩ =
        .ok ⟨⟨⟨1⟩, none, []⟩, .tagged (.context 0) .implicit octetString⟩ :=
  ⟨rfl, rfl⟩

theorem encode_of_decode_implicitString :
    let octets : Octets := [0x80, 0x01, 0x11]
    let value : Value := .octetString [0x11]
    implicitString.decode ⟨1⟩ ⟨.cer, 2⟩ octets = .ok value ∧
      (implicitString.encode ⟨1⟩ ⟨.cer, true⟩ value).toExcept = .ok octets := by
  intro octets value
  have hdecode : implicitString.decode ⟨1⟩ ⟨.cer, 2⟩ octets = .ok value := by decide +kernel
  obtain ⟨content, hcontent, hshort, -⟩ := encode_of_decode_taggedLeaf compiled_implicitString.2
    (.implicit _ _ (.builtin _)) rfl hdecode
  obtain rfl : [0x11] = content := Except.ok.inj hcontent
  exact ⟨hdecode, (hshort (by decide)).2 true⟩

/-- Two full segments are read with an empty one behind them, and written without it. -/
theorem exists_empty_segment :
    let segment : Octets := List.replicate 1000 0x11
    let value : Value := .octetString (segment ++ segment)
    implicitString.decode ⟨0⟩ ⟨.cer, 64⟩ (segmentedElement .octetString [segment, segment, []]) =
        .ok value ∧
      (implicitString.encode ⟨0⟩ ⟨.cer, true⟩ value).toExcept =
        .ok (segmentedElement .octetString [segment, segment]) ∧
      segmentedElement .octetString [segment, segment, []] ≠
        segmentedElement .octetString [segment, segment] := by
  intro segment value
  have hcompiled := compiled_implicitString.1
  have hlength : segment.length = EncodingRules.segmentLength := List.length_replicate
  have hcut : AreCut [segment, segment] [] := ⟨by simp [hlength], by decide⟩
  have hcontent : Builtin.IsContent .cer .octetString value [segment, segment].flatten := by
    have hjoined : [segment, segment].flatten = segment ++ segment := by simp
    rw [hjoined]
    exact .octetString _
  have hlong : EncodingRules.segmentLength < [segment, segment].flatten.length := by
    simp [hlength, EncodingRules.segmentLength]
  have haccept : implicitString.accept ⟨0⟩ value = .ok () := rfl
  have hencode := encode_taggedLeaf hcompiled (.builtin _) rfl haccept hcontent true
  have hsegments := hcut.segments_eq
  rw [List.append_nil, if_pos rfl] at hsegments
  rw [if_pos hlong, hsegments] at hencode
  refine ⟨?_, hencode, ?_⟩
  · exact (decode_fullSegments_iff hcompiled (.builtin _) rfl
      (CompiledType.read_builtin .octetString) hcut hlong hcontent haccept).mpr (.inr rfl)
  · intro heq
    have hlengths := congrArg List.length heq
    simp only [segmentedElement, primitiveElement, headerOctets, Identifier.octets_eq,
      List.map_cons, List.map_nil, List.flatten_cons, List.flatten_nil, List.length_append,
      List.length_cons, List.length_nil] at hlengths
    omega

end Schema

end Asn1

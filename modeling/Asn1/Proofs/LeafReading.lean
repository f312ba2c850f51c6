import Asn1.Encoding
import Asn1.Proofs.ElementReading

namespace Asn1

open Read Source

variable {α : Type} {rules : EncodingRules} {header : Header}

theorem isLocal_checkTag (header : Header) (expected : Tag) :
    (checkTag header expected).IsLocal := by
  rw [checkTag]
  exact IsLocal.ite (isLocal_failAt _ _) (isLocal_pure _)

theorem reads_checkTag_bind_iff {expected : Tag} {next : Unit → Read α} {position : Nat}
    {octets : Octets} {a : α} :
    (checkTag header expected >>= next).Reads position octets a ↔
      header.tag = expected ∧ (next ()).Reads position octets a := by
  rw [checkTag]
  by_cases h : header.tag = expected
  · rw [if_neg (not_not.mpr h)]
    simp [h]
  · rw [if_pos h]
    simp [h]

theorem isLocal_primitiveSize (header : Header) : (primitiveSize header).IsLocal := by
  rw [primitiveSize]
  split
  · exact isLocal_pure _
  · exact isLocal_failAt _ _

theorem reads_primitiveSize_bind_iff {next : Nat → Read α} {position : Nat} {octets : Octets}
    {a : α} :
    (primitiveSize header >>= next).Reads position octets a ↔
      ∃ size, header.length = .definite size ∧ (next size).Reads position octets a := by
  rw [primitiveSize]
  cases header.length with
  | definite size => simp
  | indefinite => simp

section Segments

variable {readNested : Header → Read Value}

theorem isLocal_readSegment (hlocal : ∀ header, (readNested header).IsLocal) (short : Bool)
    (header : Header) : (readSegment rules readNested short header).IsLocal := by
  refine (isLocal_checkTag _ _).bind fun _ => ?_
  simp only [failAt_bind]
  refine IsLocal.ite (isLocal_failAt _ _) (IsLocal.ite ?_ ?_)
  · refine IsLocal.ite (isLocal_failAt _ _) ((hlocal header).bind fun value => ?_)
    cases value <;> first | exact isLocal_pure _ | exact isLocal_failAt _ _
  · refine (isLocal_primitiveSize header).bind fun size => ?_
    exact IsLocal.ite (isLocal_failAt _ _) ((isLocal_takeOctets size).bind fun _ => isLocal_pure _)

theorem isLocalTo_joinSegments (hlocal : ∀ header, (readNested header).IsLocal) (definite : Bool) :
    (joinSegments rules readNested definite).IsLocalTo definite := by
  refine isLocal_position.bind_to fun start => ?_
  refine (isLocalTo_readElements (isLocal_readSegment hlocal) false).bind fun octets => ?_
  simp only [failAt_bind]
  exact IsLocal.ite (isLocal_failAt _ _) (isLocal_pure _)

theorem isLocalTo_readSegmented {readJoined : Bool → Read Octets}
    (hlocal : ∀ definite, (readJoined definite).IsLocalTo definite) (builtin : Builtin)
    (definite : Bool) : (readSegmented rules builtin readJoined definite).IsLocalTo definite := by
  apply isLocal_position.bind_to
  intro _
  apply (hlocal definite).bind
  intro _
  exact isLocal_checked _ _

theorem isLocalTo_readSegments (rules : EncodingRules) (depth : Nat) (definite : Bool) :
    (readSegments rules depth definite).IsLocalTo definite := by
  induction depth generalizing definite with
  | zero => exact isLocalTo_joinSegments (fun _ => isLocal_failAt _ _) definite
  | succ depth ih =>
      exact isLocalTo_joinSegments
        (fun _ => isLocal_readConstructed (isLocalTo_readSegmented ih .octetString)) definite

end Segments

theorem isLocal_readBuiltin (rules : EncodingRules) (builtin : Builtin) (element : Element) :
    (Decoder.readBuiltin rules builtin element).IsLocal := by
  refine (isLocal_checkTag _ _).bind fun _ => ?_
  simp only [failAt_bind]
  refine IsLocal.ite (IsLocal.ite (IsLocal.ite (isLocal_failAt _ _) ?_) (isLocal_failAt _ _)) ?_
  · exact isLocal_readConstructed
      (isLocalTo_readSegmented (isLocalTo_readSegments rules _) builtin)
  · refine (isLocal_primitiveSize _).bind fun size => IsLocal.ite (isLocal_failAt _ _) ?_
    exact isLocal_position.bind fun start => (isLocal_takeOctets size).bind fun octets =>
      isLocal_checked _ _

theorem reads_readBuiltin_primitive_iff {builtin : Builtin} {tag? : Option Tag} {depth : Nat}
    (hconstructed : header.isConstructed = false) {position : Nat} {octets : Octets}
    {value : Value} :
    (Decoder.readBuiltin rules builtin ⟨header, tag?, depth⟩).Reads position octets value ↔
      header.tag = tag?.getD builtin.tag ∧ header.length = .definite octets.length ∧
        ¬(rules.allowsDefiniteConstructed = false ∧ builtin.isSegmentable = true ∧
            EncodingRules.segmentLength < octets.length) ∧
          builtin.decodeContent rules octets = .ok value := by
  rw [Decoder.readBuiltin, reads_checkTag_bind_iff]
  simp only [hconstructed, Bool.false_eq_true, if_false, reads_primitiveSize_bind_iff, failAt_bind,
    reads_ite_failAt_iff, reads_position_bind_iff]
  refine and_congr_right fun _ => ?_
  constructor
  · rintro ⟨size, hlength, hshort, h⟩
    rw [reads_bind_iff (isLocal_takeOctets _) fun _ => isLocal_checked _ _] at h
    obtain ⟨c, d, content, rfl, hc, hd⟩ := h
    obtain ⟨rfl, rfl⟩ := reads_takeOctets_iff.mp hc
    obtain ⟨rfl, hvalue⟩ := reads_checked_iff.mp hd
    refine ⟨by simpa using hlength, by simpa [and_assoc] using hshort, by simpa using hvalue⟩
  · rintro ⟨hlength, hshort, hvalue⟩
    refine ⟨octets.length, hlength, by simpa [and_assoc] using hshort, ?_⟩
    rw [reads_bind_iff (isLocal_takeOctets _) fun _ => isLocal_checked _ _]
    exact ⟨octets, [], octets, by simp, by simp, by simpa using hvalue⟩

theorem exists_of_readsTo_readSegmented {definite : Bool} {readJoined : Bool → Read Octets}
    (hlocal : ∀ definite, (readJoined definite).IsLocalTo definite) {builtin : Builtin}
    {start : Nat} {octets : Octets} {value : Value}
    (h : (readSegmented rules builtin readJoined definite).ReadsTo definite start octets value) :
    ∃ found, builtin.decodeContent rules found = .ok value := by
  have hok := h.outcome_nil
  rw [readSegmented, outcome_bind_of_ok (outcome_position _)] at hok
  obtain ⟨found, middle, hfound, hlast⟩ := exists_of_outcome_bind hok
  obtain ⟨c, rest, -, rfl, -, -⟩ := hlocal definite _ _ _ _ hfound
  obtain ⟨_, _, _, _, hchecked⟩ := isLocal_checked _ _ _ _ _ _ hlast
  exact ⟨found, (reads_checked_iff.mp hchecked).2⟩

/-- Whatever form an element has, its value is that of some content. -/
theorem exists_content_of_reads {builtin : Builtin} {tag? : Option Tag} {depth position : Nat}
    {octets : Octets} {value : Value}
    (h : (Decoder.readBuiltin rules builtin ⟨header, tag?, depth⟩).Reads position octets value) :
    header.tag = tag?.getD builtin.tag ∧
      ∃ content, builtin.decodeContent rules content = .ok value := by
  cases hconstructed : header.isConstructed with
  | false =>
      obtain ⟨htag, -, -, hvalue⟩ := (reads_readBuiltin_primitive_iff hconstructed).mp h
      exact ⟨htag, octets, hvalue⟩
  | true =>
      rw [Decoder.readBuiltin, reads_checkTag_bind_iff] at h
      obtain ⟨htag, h⟩ := h
      simp only [hconstructed, if_true, failAt_bind, reads_ite_failAt_iff,
        reads_ite_else_failAt_iff] at h
      rw [reads_readConstructed_iff
        (isLocalTo_readSegmented (isLocalTo_readSegments rules depth) builtin)] at h
      obtain ⟨-, -, -, -, hreads⟩ := h
      exact ⟨htag, exists_of_readsTo_readSegmented (isLocalTo_readSegments rules depth) hreads⟩

theorem isConstructed_eq_false_of_reads (hrestricted : rules.isRestricted = true)
    (hdefinite : rules.allowsDefiniteConstructed = true) {builtin : Builtin} {tag? : Option Tag}
    {depth position : Nat} {octets : Octets} {value : Value}
    (h : (Decoder.readBuiltin rules builtin ⟨header, tag?, depth⟩).Reads position octets value) :
    header.isConstructed = false := by
  rw [Decoder.readBuiltin, reads_checkTag_bind_iff] at h
  cases hconstructed : header.isConstructed with
  | false => rfl
  | true => simp [hconstructed, hrestricted, hdefinite] at h

theorem flatten_segments (size : Nat) (content : Octets) :
    (segments size content).flatten = content := by
  induction content using segments.induct size with
  | case1 content h ih =>
      rw [segments, if_pos h, List.flatten_cons, ih, List.take_append_drop]
  | case2 content h hempty =>
      rw [segments, if_neg h, if_pos hempty, List.isEmpty_iff.mp hempty]
      rfl
  | case3 content h hempty =>
      rw [segments, if_neg h, if_neg hempty]
      simp

/-- The segments that canonical rules read a string from: behind one that is shorter than the others
comes no other. `short` says whether one came before. -/
def AreSegments : Bool → List Octets → Prop
  | _, [] => True
  | short, segment :: rest => short = false ∧ segment.length ≤ EncodingRules.segmentLength ∧
      AreSegments (segment.length < EncodingRules.segmentLength) rest

theorem areSegments_segments (content : Octets) :
    AreSegments false (segments EncodingRules.segmentLength content) := by
  induction content using segments.induct EncodingRules.segmentLength with
  | case1 content h ih =>
      have hlength : (content.take EncodingRules.segmentLength).length =
          EncodingRules.segmentLength := by
        rw [List.length_take]
        omega
      rw [segments, if_pos h]
      refine ⟨rfl, hlength.le, ?_⟩
      simpa only [hlength, lt_irrefl, decide_false] using ih
  | case2 content h hempty =>
      rw [segments, if_neg h, if_pos hempty]
      trivial
  | case3 content h hempty =>
      have hpositive : 0 < EncodingRules.segmentLength := by decide
      rw [segments, if_neg h, if_neg hempty]
      exact ⟨rfl, by omega, trivial⟩

theorem reads_readSegment_iff {readNested : Header → Read Value} {short next : Bool}
    {position : Nat} {octets segment : Octets} :
    (readSegment .cer readNested short header).Reads position octets (segment, next) ↔
      header.tag = .octetString ∧ short = false ∧ header.isConstructed = false ∧
        header.length = .definite octets.length ∧
          octets.length ≤ EncodingRules.segmentLength ∧ segment = octets ∧
            next = decide (octets.length < EncodingRules.segmentLength) := by
  rw [readSegment, reads_checkTag_bind_iff]
  refine and_congr_right fun _ => ?_
  cases hconstructed : header.isConstructed with
  | true =>
      simp only [failAt_bind, reads_ite_failAt_iff, EncodingRules.isRestricted, if_true]
      simp
  | false =>
      simp only [failAt_bind, Bool.false_eq_true, if_false, reads_ite_failAt_iff,
        reads_primitiveSize_bind_iff, EncodingRules.allowsDefiniteConstructed, Bool.not_false,
        Bool.true_and, decide_eq_true_eq, not_lt, Bool.not_eq_true, true_and]
      refine and_congr_right fun _ => ?_
      have htake (size : Nat) : (takeOctets size >>= fun octets =>
          (pure (octets, decide (size < EncodingRules.segmentLength)) : Read _)).Reads position
            octets (segment, next) ↔ octets.length = size ∧ segment = octets ∧
              next = decide (octets.length < EncodingRules.segmentLength) := by
        rw [reads_bind_iff (isLocal_takeOctets _) fun _ => isLocal_pure _]
        simp only [reads_takeOctets_iff, reads_pure_iff, Prod.mk.injEq]
        constructor
        · rintro ⟨c, _, _, rfl, ⟨rfl, rfl⟩, rfl, rfl, rfl⟩
          simp
        · rintro ⟨rfl, rfl, rfl⟩
          exact ⟨segment, [], segment, by simp, ⟨rfl, rfl⟩, rfl, rfl, rfl⟩
      simp only [htake]
      constructor
      · rintro ⟨_, hlength, hsize, rfl, hsegment⟩
        exact ⟨hlength, hsize, hsegment⟩
      · rintro ⟨hlength, hsize, hsegment⟩
        exact ⟨_, hlength, hsize, rfl, hsegment⟩

theorem isEnd_false_iff (hrules : rules.isRestricted = true) {position : Nat} {mark : Octets} :
    IsEnd rules false position mark ↔ mark = Header.endOfContents := by
  constructor
  · rintro ⟨header, hform, hend⟩
    obtain ⟨hidentifier, hlength⟩ := Header.eq_endOfContents hform.2.1 hend
    rw [Header.eq_octets_of_isForm hrules hform, Header.octets, hidentifier, hlength]
    rfl
  · rintro rfl
    exact ⟨_, Header.isForm_endOfContents rules position, rfl⟩

theorem readsElements_readSegment_iff {readNested : Header → Read Value} {position : Nat}
    {short : Bool} {octets : Octets} {parts : List Octets} :
    ReadsElements .cer false (readSegment .cer readNested) position short octets parts ↔
      AreSegments short parts ∧
        octets = (parts.map (primitiveElement .octetString)).flatten ++ Header.endOfContents := by
  have htag : Tag.octetString ≠ Tag.universal 0 := by decide
  constructor
  · intro h
    induction h with
    | nil hend => exact ⟨trivial, (isEnd_false_iff rfl).mp hend⟩
    | @cons _ _ _ form content _ header _ parts hform hheader helement _ ih =>
        obtain ⟨hparts, rfl⟩ := ih
        obtain ⟨heq, hshort, hprimitive, hlength, hsize, rfl, rfl⟩ :=
          reads_readSegment_iff.mp helement
        refine ⟨⟨hshort, hsize, hparts⟩, ?_⟩
        obtain ⟨⟨tag, constructed⟩, length, _⟩ := header
        obtain rfl : tag = .octetString := heq
        obtain rfl : constructed = false := hprimitive
        obtain rfl : length = _ := hlength
        rw [Header.eq_octets_of_isForm rfl hform]
        simp [primitiveElement, headerOctets, Header.octets]
  · rintro ⟨hparts, rfl⟩
    induction parts generalizing position short with
    | nil => exact .nil ((isEnd_false_iff rfl).mpr rfl)
    | cons segment rest ih =>
        obtain ⟨hshort, hsize, hrest⟩ := hparts
        have hform : Header.IsForm .cer position
            (headerOctets .octetString false (.definite segment.length))
            ⟨⟨.octetString, false⟩, .definite segment.length, position⟩ := by
          refine Header.isForm_octets (Header.fault?_primitive htag _ _) ?_
          rintro size ⟨⟩
          exact hsize.trans_lt (by decide)
        simp only [List.map_cons, List.flatten_cons, primitiveElement, List.append_assoc]
        exact .cons hform (Header.isEndOfContents_eq_false htag)
          (reads_readSegment_iff.mpr ⟨rfl, hshort, rfl, rfl, hsize, rfl, rfl⟩) (ih hrest)

/-- Segments are joined if together they are more than fits into one. -/
theorem readsTo_joinSegments_iff {readNested : Header → Read Value}
    (hlocal : ∀ header, (readNested header).IsLocal) {position : Nat} {octets content : Octets} :
    (joinSegments .cer readNested false).ReadsTo false position octets content ↔
      ∃ parts, AreSegments false parts ∧
        octets = (parts.map (primitiveElement .octetString)).flatten ++ Header.endOfContents ∧
          EncodingRules.segmentLength < parts.flatten.length ∧ content = parts.flatten := by
  have helements {position : Nat} {octets : Octets} {parts : List Octets} :
      (readElements .cer false (readSegment .cer readNested) false).Reads position octets parts ↔
        AreSegments false parts ∧
          octets = (parts.map (primitiveElement .octetString)).flatten ++ Header.endOfContents := by
    rw [← readsTo_false_iff, readsTo_readElements_iff (isLocal_readSegment hlocal),
      readsElements_readSegment_iff]
  rw [readsTo_false_iff, joinSegments, reads_position_bind_iff]
  simp only [failAt_bind]
  rw [reads_bind_iff
    (isLocalTo_false_iff.mp (isLocalTo_readElements (isLocal_readSegment hlocal) false))
    fun _ => IsLocal.ite (isLocal_failAt _ _) (isLocal_pure _)]
  simp only [helements, EncodingRules.allowsDefiniteConstructed, Bool.not_false, Bool.true_and,
    decide_eq_true_eq, reads_ite_failAt_iff, not_le, reads_pure_iff]
  constructor
  · rintro ⟨c, _, parts, rfl, ⟨hparts, rfl⟩, hlong, rfl, rfl⟩
    exact ⟨parts, hparts, by simp, hlong, rfl⟩
  · rintro ⟨parts, hparts, rfl, hlong, rfl⟩
    exact ⟨_, [], parts, by simp, ⟨hparts, rfl⟩, hlong, rfl, rfl⟩

theorem reads_readBuiltin_segments_iff {builtin : Builtin}
    (hsegmentable : builtin.isSegmentable = true) {tag? : Option Tag} {depth position : Nat}
    (hconstructed : header.isConstructed = true) (hlength : header.length = .indefinite)
    {octets : Octets} {value : Value} :
    (Decoder.readBuiltin .cer builtin ⟨header, tag?, depth⟩).Reads position octets value ↔
      header.tag = tag?.getD builtin.tag ∧ ∃ parts, AreSegments false parts ∧
        octets = (parts.map (primitiveElement .octetString)).flatten ++ Header.endOfContents ∧
          EncodingRules.segmentLength < parts.flatten.length ∧
            builtin.decodeContent .cer parts.flatten = .ok value := by
  have hsegments {position : Nat} {octets content : Octets} :
      (readSegments .cer depth false).Reads position octets content ↔
        ∃ parts, AreSegments false parts ∧
          octets = (parts.map (primitiveElement .octetString)).flatten ++ Header.endOfContents ∧
            EncodingRules.segmentLength < parts.flatten.length ∧ content = parts.flatten := by
    rw [← readsTo_false_iff]
    cases depth with
    | zero => exact readsTo_joinSegments_iff fun _ => isLocal_failAt _ _
    | succ depth =>
        exact readsTo_joinSegments_iff fun header => isLocal_readConstructed
          (isLocalTo_readSegmented (isLocalTo_readSegments _ depth) .octetString)
  rw [Decoder.readBuiltin, reads_checkTag_bind_iff]
  refine and_congr_right fun _ => ?_
  simp only [hconstructed, hsegmentable, if_true, EncodingRules.isRestricted,
    EncodingRules.allowsDefiniteConstructed, Bool.and_false, Bool.false_eq_true, if_false]
  rw [reads_readConstructed_iff
    (isLocalTo_readSegmented (isLocalTo_readSegments .cer depth) builtin), hlength]
  show _ ∧ _ ∧ ReadsTo false (readSegmented .cer builtin (readSegments .cer depth) false) _ _ _ ↔ _
  rw [readSegmented, readsTo_false_iff, reads_position_bind_iff, reads_bind_iff
    (isLocalTo_false_iff.mp (isLocalTo_readSegments .cer depth false))
    fun _ => isLocal_checked _ _]
  simp only [hconstructed, hsegments, reads_checked_iff, true_and, reduceCtorEq, false_implies,
    implies_true]
  constructor
  · rintro ⟨c, _, _, rfl, ⟨parts, hparts, rfl, hlong, rfl⟩, rfl, hvalue⟩
    exact ⟨parts, hparts, by simp, hlong, hvalue⟩
  · rintro ⟨parts, hparts, rfl, hlong, hvalue⟩
    exact ⟨_, [], parts.flatten, by simp, ⟨parts, hparts, rfl, hlong, rfl⟩, rfl, hvalue⟩

theorem reads_readBuiltin_segments {builtin : Builtin} (hsegmentable : builtin.isSegmentable = true)
    {tag? : Option Tag} {depth position : Nat} (htag : header.tag = tag?.getD builtin.tag)
    (hconstructed : header.isConstructed = true) (hlength : header.length = .indefinite)
    {content : Octets} (hlong : EncodingRules.segmentLength < content.length) {value : Value}
    (hvalue : builtin.decodeContent .cer content = .ok value) :
    (Decoder.readBuiltin .cer builtin ⟨header, tag?, depth⟩).Reads position
      (((segments EncodingRules.segmentLength content).map
        (primitiveElement .octetString)).flatten ++ Header.endOfContents) value := by
  exact (reads_readBuiltin_segments_iff hsegmentable hconstructed hlength).mpr
    ⟨htag, _, areSegments_segments content, rfl, by rwa [flatten_segments],
      by rwa [flatten_segments]⟩

end Asn1

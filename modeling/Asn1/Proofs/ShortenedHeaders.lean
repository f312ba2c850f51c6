import Asn1.Proofs.HeaderCodec
import Asn1.Proofs.SelfDelimiting

namespace Asn1

open Read Source

theorem BigEndian.eq_or_length_encode_lt (digits : Octets) :
    encode (value digits) = digits ∨ (encode (value digits)).length < digits.length := by
  cases digits with
  | nil => exact .inl encode_zero
  | cons octet rest =>
      by_cases hzero : octet = 0
      · subst hzero
        have hvalue : value (0 :: rest) = value rest := value_replicate_append 1 rest
        rw [hvalue, List.length_cons]
        exact .inr (Nat.lt_succ_of_le (length_encode_le (value_lt rest)))
      · exact .inl (encode_value (by simpa using hzero))

theorem Length.IsForm.eq_or_lt {rules : EncodingRules} {form : Octets} {length : Length}
    (h : IsForm rules form length) :
    length.octets = form ∨ length.octets.length < form.length := by
  cases length with
  | indefinite => exact .inl h.symm
  | definite size =>
      rw [Length.octets]
      rcases h with ⟨rfl, hsize⟩ | ⟨digits, rfl, hne, -, rfl, -, -⟩
      · rw [if_pos hsize]
        exact .inl rfl
      · have hpos := List.length_pos_iff.mpr hne
        split
        · exact .inr (by simpa using hpos)
        · rcases BigEndian.eq_or_length_encode_lt digits with hsame | hless
          · exact .inl (by rw [hsame])
          · exact .inr (by simpa using hless)

/-- Octets that a header is read from, and octets that the same header is read from that are fewer,
if they are not the same. -/
structure Header.Shortens (rules : EncodingRules) (header : Header) (form short : Octets) :
    Prop where
  isForm : IsForm rules header.position form header
  isForm_short : IsForm rules header.position short header
  eq_or_lt : short = form ∨ short.length < form.length

namespace Header

variable {rules : EncodingRules} {header : Header} {form short : Octets}

theorem IsForm.shortens (h : IsForm rules header.position form header) :
    header.Shortens rules form header.octets := by
  refine ⟨h, h.shortest header.position, ?_⟩
  obtain ⟨-, -, lengthOctets, rfl, hlength⟩ := h
  rw [octets, List.append_cancel_left_eq, List.length_append, List.length_append,
    Nat.add_lt_add_iff_left]
  exact hlength.eq_or_lt

theorem Shortens.eq_of_isRestricted (h : header.Shortens rules form short)
    (hrules : rules.isRestricted = true) : short = form := by
  rw [eq_octets_of_isForm hrules h.isForm_short, ← eq_octets_of_isForm hrules h.isForm]

theorem position_of_outcome_read {source rest : Source}
    (h : (read rules).outcome source = (.ok header, rest)) : header.position = source.position := by
  obtain ⟨header?, middle, hread, hlast⟩ := exists_of_outcome_bind h
  rw [read?, outcome_bind_of_ok (outcome_position source)] at hread
  obtain ⟨identifier?, _, -, hread⟩ := exists_of_outcome_bind hread
  cases identifier? with
  | none =>
      obtain ⟨rfl, -⟩ : none = header? ∧ _ := by simpa using hread
      cases hlast
  | some identifier =>
      obtain ⟨length, _, -, hread⟩ := exists_of_outcome_bind hread
      simp only at hread
      split at hread
      · cases hread
      · cases hread
        cases hlast
        rfl

end Header

namespace Captured

/-- An element: its header, the octets that it consists of, and the octets that they become. -/
structure Rewriting where
  header : Header
  octets : Octets
  rewritten : Octets

/-- Whether nothing but headers gets shorter in an element: the header of the element itself, and
those of the elements in its content if that is of indefinite length, up to the end-of-contents
marker. Content of definite length stays as it is. -/
inductive ShortensHeaders (rules : EncodingRules) : Rewriting → Prop
  | definite {header : Header} {form short content : Octets}
    (hheader : header.Shortens rules form short)
    (hlength : header.length = .definite content.length) :
    ShortensHeaders rules ⟨header, form ++ content, short ++ content⟩
  | indefinite {header : Header} {form short : Octets} {elements : List Rewriting}
    {marker : Rewriting} (hheader : header.Shortens rules form short)
    (hlength : header.length = .indefinite)
    (helements : ∀ element ∈ elements, ShortensHeaders rules element)
    (hopen : ∀ element ∈ elements, element.header.isEndOfContents = false)
    (hmarker : ShortensHeaders rules marker) (hend : marker.header.isEndOfContents = true) :
    ShortensHeaders rules ⟨header, form ++ (elements.flatMap Rewriting.octets ++ marker.octets),
      short ++ (elements.flatMap Rewriting.rewritten ++ marker.rewritten)⟩

section Rewritings

variable {rules : EncodingRules} {depth position : Nat} {header : Header}
  {form content octets copied : Octets}

/-- Restricted rules have no longer forms, so that there is nothing to shorten. -/
theorem ShortensHeaders.eq_of_isRestricted {element : Rewriting}
    (h : ShortensHeaders rules element) (hrules : rules.isRestricted = true) :
    element.rewritten = element.octets := by
  induction h with
  | definite hheader => exact congrArg (· ++ _) (hheader.eq_of_isRestricted hrules)
  | indefinite hheader hlength helements hopen hmarker hend ih ihmarker =>
      change _ ++ (_ ++ _) = _ ++ (_ ++ _)
      rw [hheader.eq_of_isRestricted hrules, ihmarker, List.flatMap_congr ih]

theorem Copies.exists_rewritings {copy : Header → Read Octets}
    (hcopy : ∀ {header position form content copied}, Header.IsForm rules position form header →
      (copy header).Reads (position + form.length) content copied →
        ShortensHeaders rules ⟨header, form ++ content, copied⟩)
    (h : Copies rules copy position octets copied) :
    ∃ (elements : List Rewriting) (marker : Rewriting),
      octets = elements.flatMap Rewriting.octets ++ marker.octets ∧
        copied = elements.flatMap Rewriting.rewritten ++ marker.rewritten ∧
          (∀ element ∈ elements, ShortensHeaders rules element) ∧
            (∀ element ∈ elements, element.header.isEndOfContents = false) ∧
              ShortensHeaders rules marker ∧ marker.header.isEndOfContents = true := by
  induction h with
  | @last position form content copied header hform hheader hread =>
      exact ⟨[], ⟨header, form ++ content, copied⟩, rfl, rfl, by simp, by simp, hcopy hform hread,
        hheader⟩
  | @cons position form content octets copied others header hform hheader hread _ ih =>
      obtain ⟨elements, marker, rfl, rfl, helements, hopen, hmarker, hend⟩ := ih
      refine ⟨⟨header, form ++ content, copied⟩ :: elements, marker, by simp, by simp, ?_, ?_,
        hmarker, hend⟩
      · exact List.forall_mem_cons.mpr ⟨hcopy hform hread, helements⟩
      · exact List.forall_mem_cons.mpr ⟨hheader, hopen⟩

theorem shortensHeaders_of_reads (hform : Header.IsForm rules position form header)
    (h : (copyElement rules depth header).Reads (position + form.length) content copied) :
    ShortensHeaders rules ⟨header, form ++ content, copied⟩ := by
  induction depth using Nat.strong_induction_on
    generalizing position header form content copied with
  | _ depth ih =>
      have hheader : header.Shortens rules form header.octets :=
        Header.IsForm.shortens (hform.1.symm ▸ hform)
      cases hlength : header.length with
      | definite size =>
          obtain ⟨rfl, rfl⟩ := (reads_copyElement_iff_of_definite hlength).mp h
          exact .definite hheader hlength
      | indefinite =>
          -- The elements in the content are copied with one level of depth less.
          obtain ⟨inner, others, rfl, rfl, hcopies⟩ := exists_copies_of_reads hlength h
          obtain ⟨elements, marker, rfl, rfl, helements, hopen, hmarker, hend⟩ :=
            hcopies.exists_rewritings (ih inner (Nat.lt_succ_self inner))
          exact .indefinite hheader hlength helements hopen hmarker hend

end Rewritings

section Capturing

variable {rules : EncodingRules} {depth position : Nat} {octets : Octets} {length : Length}
  {captured : Captured}

/-- Reads an element, which has a certain length, and captures it. -/
def readElement (rules : EncodingRules) (depth : Nat) : Read (Length × Captured) := do
  let header ← Header.read rules
  let captured ← read rules depth header
  return (header.length, captured)

theorem isLocal_readElement (rules : EncodingRules) (depth : Nat) :
    (readElement rules depth).IsLocal := by
  apply (Header.isLocal_read rules).bind
  intro header
  apply (isLocal_read rules depth header).bind
  intro _
  exact isLocal_pure _

theorem agrees_readElement (rules : EncodingRules) (depth : Nat) (c : Correspondence) :
    c.Agrees (readElement rules depth) (readElement rules depth) := by
  refine (Header.carries_read rules).bind fun header => ?_
  have hread : c.Agrees (read rules depth (header.moved c.shift)) (read rules depth header) :=
    (agrees_copyElement rules depth header).bind fun _ => Correspondence.agrees_pure _
  exact hread.bind fun _ => Correspondence.agrees_pure _

theorem reads_readElement_iff :
    (readElement rules depth).Reads position octets (length, captured) ↔
      ∃ form content, octets = form ++ content ∧
        Header.IsForm rules position form ⟨captured.identifier, length, position⟩ ∧
          (copyElement rules depth ⟨captured.identifier, length, position⟩).Reads
            (position + form.length) content captured.octets := by
  have hlocal (header : Header) : (read rules depth header >>= fun captured =>
      (return (header.length, captured) : Read (Length × Captured))).IsLocal :=
    (isLocal_read rules depth header).bind fun _ => isLocal_pure _
  rw [readElement, reads_bind_iff (Header.isLocal_read rules) hlocal]
  simp only [Header.reads_read_iff]
  constructor
  · rintro ⟨form, content, header, rfl, hform, hrest⟩
    obtain ⟨content, _, captured, rfl, hread, hpure⟩ :=
      (reads_bind_iff (isLocal_read rules depth header) fun _ => isLocal_pure _).mp hrest
    obtain ⟨copied, hcopied, rfl⟩ := reads_read_iff.mp hread
    obtain ⟨rfl, heq⟩ := reads_pure_iff.mp hpure
    obtain ⟨rfl, rfl⟩ := Prod.mk.inj heq
    obtain rfl := hform.1
    exact ⟨form, content, by simp, hform, hcopied⟩
  · rintro ⟨form, content, rfl, hform, hcopied⟩
    refine ⟨form, content, _, rfl, hform, ?_⟩
    rw [← List.append_nil content]
    exact (reads_read_iff.mpr ⟨_, hcopied, rfl⟩).bind (reads_pure_iff.mpr ⟨rfl, rfl⟩)

theorem reads_readElement_octets
    (h : (readElement rules depth).Reads position octets (length, captured)) :
    (readElement rules depth).Reads position captured.octets (length, captured) := by
  obtain ⟨form, content, rfl, hform, hcopied⟩ := reads_readElement_iff.mp h
  obtain ⟨rest, hrest, -, hreads⟩ := isCopied_of_reads hcopied
  exact reads_readElement_iff.mpr ⟨_, rest, hrest, hform.shortest position, hreads _ _⟩

end Capturing

/-- Capturing shortens headers and does nothing else. What has been captured is a whole element
under the rules, and is captured again as it is, from wherever it stands and with the same depth.
Restricted rules have nothing to shorten. -/
theorem capture_shortens (rules : EncodingRules) (depth : Nat) {source middle rest : Source}
    {header : Header} {captured : Captured} (hbounded : source.IsBounded)
    (hheader : (Header.read rules).outcome source = (.ok header, middle))
    (hcaptured : (read rules depth header).outcome middle = (.ok captured, rest)) :
    captured.identifier = header.identifier ∧
      ofOctets rules captured.octets = .ok captured ∧
        (readElement rules depth).Delimits captured.octets (header.length, captured) ∧
          ∃ consumed, source.octets = consumed ++ rest.octets ∧
            ShortensHeaders rules ⟨header, consumed, captured.octets⟩ ∧
              (rules ≠ .ber → captured.octets = consumed) := by
  have hlocal := isLocal_readElement rules depth
  have hagrees (c : Correspondence) := agrees_readElement rules depth c
  have houtcome : (readElement rules depth).outcome source =
      (.ok (header.length, captured), rest) := by
    rw [readElement, outcome_bind_of_ok hheader, outcome_bind_of_ok hcaptured]
    rfl
  obtain ⟨copied, rfl⟩ : ∃ copied, captured = ⟨header.identifier, copied⟩ := by
    obtain ⟨copied, _, -, hlast⟩ := exists_of_outcome_bind hcaptured
    cases hlast
    exact ⟨copied, rfl⟩
  obtain ⟨consumed, hconsumed, hreads⟩ := exists_reads_of_outcome hlocal hagrees hbounded houtcome
  obtain ⟨form, content, rfl, hform, hcopied⟩ := reads_readElement_iff.mp hreads
  rw [← Header.position_of_outcome_read hheader] at hform hcopied
  have hshortens := shortensHeaders_of_reads hform hcopied
  refine ⟨rfl, ofOctets_of_copied hform hcopied,
    (reads_readElement_octets hreads).delimits hlocal hagrees, _, hconsumed, hshortens,
    fun hrules => hshortens.eq_of_isRestricted ?_⟩
  cases rules with
  | ber => contradiction
  | cer => rfl
  | der => rfl

/-- The length of the element inside is given in two octets, of which one is enough. -/
theorem capture_shortens_indefinite :
    let consumed : Octets := [0xA5, 0x80, 0x04, 0x81, 0x01, 0xFF, 0x00, 0x00]
    let short : Octets := [0xA5, 0x80, 0x04, 0x01, 0xFF, 0x00, 0x00]
    let header : Header := ⟨⟨⟨.context, 5⟩, true⟩, .indefinite, 0⟩
    let captured : Captured := ⟨header.identifier, short⟩
    let source := Source.ofOctets consumed 0
    let middle := Source.ofOctets (consumed.drop 2) 2
    source.IsBounded ∧ (Header.read .ber).outcome source = (.ok header, middle) ∧
      (read .ber 1 header).outcome middle = (.ok captured, Source.ofOctets [] 8) ∧
        ofOctets .ber short = .ok captured ∧
          (readElement .ber 1).Delimits short (.indefinite, captured) ∧
            ShortensHeaders .ber ⟨header, consumed, short⟩ := by
  intro consumed short header captured source middle
  have hbounded : source.IsBounded := isBounded_ofOctets _ _
  have hheader : (Header.read .ber).outcome source = (.ok header, middle) := by decide +kernel
  have hcaptured : (read .ber 1 header).outcome middle =
      (.ok captured, Source.ofOctets [] 8) := by decide +kernel
  obtain ⟨-, hwhole, hagain, octets, hoctets, hshortens, -⟩ :=
    capture_shortens .ber 1 hbounded hheader hcaptured
  rw [octets_ofOctets, octets_ofOctets, List.append_nil] at hoctets
  obtain rfl := hoctets
  exact ⟨hbounded, hheader, hcaptured, hwhole, hagain, hshortens⟩

end Captured

end Asn1

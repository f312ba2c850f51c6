import Asn1.Proofs.ElementExtents
import Asn1.Proofs.SelfDelimiting
import Asn1.Proofs.WrittenRules

namespace Asn1

open Read Source

variable {rules : EncodingRules} {definite : Bool} {position depth : Nat} {octets : Octets}

section Moving

variable {form : Octets} {header : Header} {elements : List PlacedElement}

/-- The same element, so many octets further on. -/
def PlacedElement.moved (shift : Nat) (element : PlacedElement) : PlacedElement :=
  ⟨element.header.moved shift, element.position + shift, element.content⟩

theorem Header.IsForm.moved (h : IsForm rules position form header) (shift : Nat) :
    IsForm rules (position + shift) form (header.moved shift) := by
  obtain ⟨rfl, hform⟩ := h
  exact ⟨rfl, hform⟩

theorem IsEnd.moved (h : IsEnd rules definite position octets) (shift : Nat) :
    IsEnd rules definite (position + shift) octets := by
  cases definite with
  | true => exact h
  | false =>
      obtain ⟨header, hform, hheader⟩ := h
      exact ⟨header.moved shift, hform.moved shift, hheader⟩

theorem Elements.moved (h : Elements rules definite position octets elements) (shift : Nat) :
    Elements rules definite (position + shift) octets
      (elements.map (PlacedElement.moved shift)) := by
  induction h with
  | nil hend => exact .nil (hend.moved shift)
  | definite hform hheader hlength _ ih =>
      have hmoved := hform.moved shift
      rw [Nat.add_right_comm _ _ shift, Nat.add_right_comm _ _ shift] at ih
      rw [List.map_cons, PlacedElement.moved, Nat.add_right_comm]
      exact .definite hmoved hheader hlength ih
  | indefinite hform hheader hlength _ _ ihcontent ih =>
      have hmoved := hform.moved shift
      rw [Nat.add_right_comm _ _ shift] at ihcontent
      rw [Nat.add_right_comm _ _ shift, Nat.add_right_comm _ _ shift] at ih
      rw [List.map_cons, PlacedElement.moved, Nat.add_right_comm]
      exact .indefinite hmoved hheader hlength ihcontent ih

theorem IsContent.moved (h : IsContent rules header position octets) (shift : Nat) :
    IsContent rules (header.moved shift) (position + shift) octets := by
  refine ⟨h.1, ?_⟩
  intro hlength
  apply (h.2 hlength).imp' _
  intro _ hinner
  exact hinner.moved shift

theorem Elements.append {others : Octets} {before after : List PlacedElement}
    (h : Elements rules true position octets before)
    (hothers : Elements rules definite (position + octets.length) others after) :
    Elements rules definite position (octets ++ others) (before ++ after) := by
  generalize htrue : true = whole at h
  induction h with
  | nil hend =>
      subst htrue
      obtain rfl : _ = [] := hend
      simpa using hothers
  | definite hform hheader hlength _ ih =>
      simp only [List.append_assoc]
      refine .definite hform hheader hlength (ih ?_ htrue)
      simpa [Nat.add_assoc] using hothers
  | indefinite hform hheader hlength hcontent _ _ ih =>
      simp only [List.append_assoc]
      refine .indefinite hform hheader hlength hcontent (ih ?_ htrue)
      simpa [Nat.add_assoc] using hothers

end Moving

section Reading

variable {header : Header} {elements : List PlacedElement}

/-- Reads the content of an element of any type. -/
def readPlaced (rules : EncodingRules) (depth : Nat) (_ : Unit) (header : Header) :
    Read (PlacedElement × Unit) := do
  let start ← get
  discard <| Captured.copyElement rules depth header
  let stop ← Read.position
  return (⟨header, start.position, start.octets.take (stop - start.position)⟩, ())

/-- Reads constructed content element by element, as the content of collections is read, but without
regard to types. -/
def readPlacedElements (rules : EncodingRules) (definite : Bool) (depth : Nat) :
    Read (List PlacedElement) :=
  readElements rules definite (readPlaced rules depth) ()

theorem outcome_readPlaced_iff {element : PlacedElement} {source : Source} :
    (readPlaced rules depth () header).outcome (ofOctets octets position) =
        (.ok (element, ()), source) ↔
      ∃ content rest copied, octets = content ++ rest ∧
        source = ofOctets rest (position + content.length) ∧
          element = ⟨header, position, content⟩ ∧
            (Captured.copyElement rules depth header).Reads position content copied := by
  have hget : (get : Read Source).outcome (ofOctets octets position) =
      (.ok (ofOctets octets position), ofOctets octets position) := rfl
  rw [readPlaced, outcome_bind_of_ok hget]
  constructor
  · intro h
    obtain ⟨_, middle, hdiscard, hlast⟩ := exists_of_outcome_bind h
    obtain ⟨copied, hcopied⟩ := exists_of_outcome_discard hdiscard
    obtain ⟨content, rest, rfl, rfl, hreads⟩ :=
      Captured.isLocal_copyElement rules depth header _ _ _ _ hcopied
    rw [outcome_bind_of_ok (outcome_position _), outcome_pure] at hlast
    obtain ⟨helement, rfl⟩ := Prod.mk.injEq .. ▸ hlast
    refine ⟨content, rest, copied, rfl, rfl, ?_, hreads⟩
    simpa using (congrArg Prod.fst (Except.ok.inj helement)).symm
  · rintro ⟨content, rest, copied, rfl, rfl, rfl, hreads⟩
    rw [outcome_bind_of_ok (outcome_discard_of_ok (hreads rest)),
      outcome_bind_of_ok (outcome_position _)]
    simp

theorem isLocal_readPlaced (state : Unit) (header : Header) :
    (readPlaced rules depth state header).IsLocal := by
  rintro octets position ⟨element, _⟩ source h
  obtain ⟨content, rest, copied, rfl, rfl, rfl, hreads⟩ := outcome_readPlaced_iff.mp h
  exact ⟨content, rest, rfl, rfl, fun after =>
    outcome_readPlaced_iff.mpr ⟨content, after, copied, rfl, rfl, rfl, hreads⟩⟩

theorem reads_readPlaced_iff {element : PlacedElement} :
    (readPlaced rules depth () header).Reads position octets (element, ()) ↔
      element = ⟨header, position, octets⟩ ∧
        ∃ copied, (Captured.copyElement rules depth header).Reads position octets copied := by
  rw [(isLocal_readPlaced () header).reads_iff, outcome_readPlaced_iff]
  constructor
  · rintro ⟨content, rest, copied, rfl, hsource, rfl, hreads⟩
    obtain ⟨rfl, -⟩ := ofOctets_inj.mp hsource
    rw [List.append_nil]
    exact ⟨rfl, copied, hreads⟩
  · rintro ⟨rfl, copied, hreads⟩
    exact ⟨octets, [], copied, by simp, rfl, rfl, hreads⟩

/-- Elements up to the end-of-contents marker can be copied. No more levels of depth are needed than
there are octets before the marker. -/
theorem Elements.exists_copies (h : Elements rules definite position octets elements)
    (hdefinite : definite = false) (hdepth : octets.length ≤ depth + 1) :
    ∃ copied, Captured.Copies rules (Captured.copyElement rules depth) position octets copied := by
  induction h generalizing depth with
  | nil hend =>
      subst hdefinite
      obtain ⟨marker, hform, hmarker⟩ := hend
      obtain ⟨-, hlength⟩ := Header.eq_endOfContents hform.2.1 hmarker
      have hcopy (position : Nat) :
          (Captured.copyElement rules depth marker).Reads position [] (marker.octets ++ []) :=
        (Captured.reads_copyElement_iff_of_definite hlength).mpr ⟨List.length_nil, rfl⟩
      have hlast := Captured.Copies.last hform hmarker (hcopy _)
      rw [List.append_nil] at hlast
      exact ⟨_, hlast⟩
  | definite hform hheader hlength _ ih =>
      simp only [List.length_append] at hdepth
      obtain ⟨others, hothers⟩ := ih hdefinite (show _ ≤ depth + 1 by omega)
      exact ⟨_, .cons hform hheader
        ((Captured.reads_copyElement_iff_of_definite hlength).mpr ⟨rfl, rfl⟩) hothers⟩
  | @indefinite _ _ form content octets header _ _ hform hheader hlength _ _ ihcontent ih =>
      have hpos := List.length_pos_iff.mpr hform.ne_nil
      simp only [List.length_append] at hdepth
      obtain ⟨others, hothers⟩ := ih hdefinite (show _ ≤ depth + 1 by omega)
      obtain ⟨copied, hcopied⟩ := ihcontent rfl (show _ ≤ depth - 1 + 1 by omega)
      have hcontent := List.length_pos_iff.mpr hcopied.ne_nil
      obtain ⟨depth, rfl⟩ := Nat.exists_eq_add_one_of_ne_zero (n := depth) (by omega)
      exact ⟨_, .cons hform hheader (hcopied.reads_copyElement hlength) hothers⟩

theorem IsContent.exists_reads_copyElement (h : IsContent rules header position octets)
    (hdepth : octets.length ≤ depth) :
    ∃ copied, (Captured.copyElement rules depth header).Reads position octets copied := by
  cases hlength : header.length with
  | definite size =>
      exact ⟨_, (Captured.reads_copyElement_iff_of_definite hlength).mpr ⟨h.1 size hlength, rfl⟩⟩
  | indefinite =>
      obtain ⟨inner, hinner⟩ := h.2 hlength
      obtain ⟨copied, hcopied⟩ := hinner.exists_copies rfl (show _ ≤ depth - 1 + 1 by omega)
      have hpos := List.length_pos_iff.mpr hcopied.ne_nil
      obtain ⟨depth, rfl⟩ := Nat.exists_eq_add_one_of_ne_zero (n := depth) (by omega)
      exact ⟨_, hcopied.reads_copyElement hlength⟩

theorem readsTo_readPlacedElements_iff (hdepth : octets.length ≤ depth) :
    (readPlacedElements rules definite depth).ReadsTo definite position octets elements ↔
      Elements rules definite position octets elements := by
  rw [readPlacedElements, readsTo_readElements_iff isLocal_readPlaced]
  constructor
  · intro h
    have hfound : ∃ found, Elements rules definite position octets found ∧
        List.Forall₂ Eq found elements := h.exists_elements_forall₂ fun hreads => by
      obtain ⟨rfl, copied, hcopied⟩ := reads_readPlaced_iff.mp hreads
      exact ⟨isContent_of_copyElement hcopied, rfl⟩
    obtain ⟨found, hfound, hsame⟩ := hfound
    rw [List.forall₂_eq_eq_eq] at hsame
    exact hsame ▸ hfound
  · intro h
    have hcons {position : Nat} {form content octets : Octets} {header : Header}
        {elements : List PlacedElement} (hform : Header.IsForm rules position form header)
        (hheader : header.isEndOfContents = false)
        (hcontent : IsContent rules header (position + form.length) content)
        (hdepth : content.length ≤ depth)
        (hrest : ReadsElements rules definite (readPlaced rules depth)
          (position + form.length + content.length) () octets elements) :
        ReadsElements rules definite (readPlaced rules depth) position ()
          (form ++ (content ++ octets)) (⟨header, position + form.length, content⟩ :: elements) :=
      .cons hform hheader
        (reads_readPlaced_iff.mpr ⟨rfl, hcontent.exists_reads_copyElement hdepth⟩) hrest
    induction h with
    | nil hend => exact .nil hend
    | definite hform hheader hlength _ ih =>
        simp only [List.length_append] at hdepth
        exact hcons hform hheader (isContent_of_definite hlength) (by omega) (ih (by omega) hcons)
    | indefinite hform hheader hlength hcontent _ _ ih =>
        simp only [List.length_append] at hdepth
        exact hcons hform hheader ⟨by simp [hlength], fun _ => ⟨_, hcontent⟩⟩ (by omega)
          (ih (by omega) hcons)

end Reading

namespace Captured

variable {captured : Captured} {element : PlacedElement}

/-- Whether the captured octets are just this element, which has the captured identifier. -/
def IsElement (rules : EncodingRules) (captured : Captured) (element : PlacedElement) : Prop :=
  element.Fills rules captured.octets ∧ element.header.identifier = captured.identifier ∧
    IsContent rules element.header element.position element.content

theorem isEnd_of_isContent {form content : Octets} {header : Header} {start : Nat}
    (hform : Header.IsForm rules position form header)
    (hcontent : IsContent rules header start content) (hheader : header.isEndOfContents = true) :
    IsEnd rules false position (form ++ content) := by
  obtain ⟨-, hlength⟩ := Header.eq_endOfContents hform.2.1 hheader
  obtain rfl := List.length_eq_zero_iff.mp (hcontent.1 0 hlength)
  rw [List.append_nil]
  exact ⟨header, hform, hheader⟩

theorem isElement_of_isForm {form content : Octets} {header : Header}
    (hform : Header.IsForm rules 0 form header)
    (hcontent : IsContent rules header form.length content) :
    IsElement rules ⟨header.identifier, form ++ content⟩ ⟨header, form.length, content⟩ :=
  ⟨⟨form, rfl, hform, rfl⟩, rfl, hcontent⟩

theorem IsElement.cons (h : captured.IsElement rules element)
    (hheader : element.header.isEndOfContents = false) {elements : List PlacedElement}
    (hrest : Elements rules definite (position + captured.octets.length) octets elements) :
    Elements rules definite position (captured.octets ++ octets)
      (element.moved position :: elements) := by
  obtain ⟨header, start, content⟩ := element
  obtain ⟨⟨form, hoctets, hform, rfl⟩, -, hcontent⟩ := h
  have hmoved := hform.moved position
  have hmovedContent := hcontent.moved position
  simp only at hoctets
  rw [Nat.zero_add] at hmoved
  rw [hoctets, List.length_append, ← Nat.add_assoc] at hrest
  rw [Nat.add_comm] at hmovedContent
  rw [hoctets, List.append_assoc, PlacedElement.moved]
  simp only [Nat.add_comm form.length]
  exact .cons hmoved hheader hmovedContent hrest

theorem IsElement.elements (h : captured.IsElement rules element)
    (hheader : element.header.isEndOfContents = false) {p q : Octets}
    {before after : List PlacedElement} (hbefore : Elements rules true 0 p before)
    (hafter : Elements rules true 0 q after) :
    Elements rules false 0 (p ++ (captured.octets ++ (q ++ Header.endOfContents)))
      (before ++ element.moved p.length ::
        after.map (PlacedElement.moved (p.length + captured.octets.length))) := by
  have hend (position : Nat) : Elements rules false position Header.endOfContents [] :=
    .nil ⟨_, Header.isForm_endOfContents rules position, rfl⟩
  have hrest := (hafter.moved (p.length + captured.octets.length)).append (hend _)
  rw [Nat.zero_add, List.append_nil] at hrest
  refine hbefore.append ?_
  rw [Nat.zero_add]
  exact h.cons hheader hrest

/-- The ways in which octets become captured elements: they are given, or a value is decoded from
them that holds some of them. -/
inductive IsCapturedFrom (rules : EncodingRules) (octets : Octets) (captured : Captured) : Prop
  | given (h : ofOctets rules octets = .ok captured)
  | decoded {schema : Schema} {handle : Handle} {maxDepth : Nat} {source rest : Source}
    {value : Value} {decode : Decoder → Read Value}
    (hdecode : decode = schema.decodeOne handle ∨ decode = schema.decodeAll handle)
    (hbounded : source.IsBounded) (hoctets : source.octets = octets ++ rest.octets)
    (hvalue : (decode ⟨rules, maxDepth⟩).outcome source = (.ok value, rest))
    (hmem : captured ∈ value.captures)

theorem exists_isElement_of_ofOctets (h : ofOctets rules octets = .ok captured) :
    ∃ element, captured.IsElement rules element ∧
      (element.header.isEndOfContents = true → IsEnd rules false 0 octets) := by
  obtain ⟨form, content, header, copied, rfl, hform, hreads⟩ := exists_of_ofOctets h
  have hsame := ofOctets_of_reads hform (by rwa [Nat.zero_add])
  obtain rfl : ⟨header.identifier, form ++ content⟩ = captured :=
    Except.ok.inj (hsame.symm.trans h)
  have hcontent := isContent_of_copyElement hreads
  exact ⟨_, isElement_of_isForm hform hcontent, isEnd_of_isContent hform hcontent⟩

theorem exists_isElement_of_copied {start : Nat} {form content copied : Octets} {header : Header}
    (hform : Header.IsForm rules start form header)
    (h : (copyElement rules depth header).Reads position content copied) :
    ∃ element, IsElement rules ⟨header.identifier, copied⟩ element := by
  obtain ⟨rest, rfl, -, hreads⟩ := isCopied_of_reads h
  let shortest : Header := ⟨header.identifier, header.length, 0⟩
  have hshortest : Header.IsForm rules 0 header.octets shortest := hform.shortest 0
  have hcontent := isContent_of_copyElement (hreads 0 header.octets.length)
  exact ⟨⟨shortest, _, rest⟩, ⟨_, rfl, hshortest, rfl⟩, rfl, hcontent⟩

end Captured

/-- The elements that are captured in a value are whole. Only the outermost element can be an
end-of-contents marker. -/
theorem CompiledType.exists_isElement_of_reads {type : CompiledType} {header : Header}
    {tag? : Option Tag} {form content : Octets} {value : Value}
    (hform : Header.IsForm rules 0 form header)
    (h : (type.read rules ⟨header, tag?, depth⟩).Reads form.length content value) :
    ∀ captured ∈ value.captures, ∃ element, captured.IsElement rules element ∧
      (element.header.isEndOfContents = true → IsEnd rules false 0 (form ++ content)) := by
  refine of_reads
    (fun header => (∃ start form, Header.IsForm rules start form header) ∧
      (header.isEndOfContents = true → IsEnd rules false 0 (form ++ content)))
    (fun _ value => ∀ captured ∈ value.captures, ∃ element, captured.IsElement rules element ∧
      (element.header.isEndOfContents = true → IsEnd rules false 0 (form ++ content)))
    (fun start form header hform hheader => ⟨⟨start, form, hform⟩, by simp [hheader]⟩)
    (fun _ value hleaf => ?_) ?_ (fun _ _ => id)
    (fun _ _ => Value.forall_captures_list_iff.mpr)
    (fun _ _ => Value.forall_captures_collection_iff.mpr)
    ⟨⟨0, form, hform⟩, Captured.isEnd_of_isContent hform (isContent_of_reads h)⟩ h
  · rw [hleaf.captures_eq_nil]
    nofun
  · rintro header depth position octets copied ⟨⟨start, form, hform⟩, hmark⟩ hcopy
    rw [Value.captures, List.forall_mem_singleton]
    obtain ⟨element, helement⟩ := Captured.exists_isElement_of_copied hform hcopy
    refine ⟨element, helement, fun hheader => hmark ?_⟩
    rwa [Header.isEndOfContents, helement.2.1] at hheader

namespace Captured

variable {captured : Captured}

theorem IsCapturedFrom.exists_isElement (h : captured.IsCapturedFrom rules octets) :
    ∃ element, captured.IsElement rules element ∧
      (element.header.isEndOfContents = true → IsEnd rules false 0 octets) := by
  cases h with
  | given h => exact exists_isElement_of_ofOctets h
  | @decoded schema handle maxDepth source rest value decode hdecode hbounded hoctets hvalue hmem =>
      have hone : ∃ middle, (schema.decodeOne handle ⟨rules, maxDepth⟩).outcome source =
          (.ok value, middle) ∧ rest.octets = middle.octets := by
        rcases hdecode with rfl | rfl
        · exact ⟨rest, hvalue, rfl⟩
        · exact Schema.exists_decodeOne_of_decodeAll hvalue
      obtain ⟨middle, hone, hrest⟩ := hone
      rw [hrest] at hoctets
      have hlocal := Schema.isLocal_decodeOne schema handle ⟨rules, maxDepth⟩
      have hagrees (c : Correspondence) := Schema.agrees_decodeOne c schema handle ⟨rules, maxDepth⟩
      have hreads := (reads_of_outcome hlocal hagrees hbounded hone hoctets).at_position
        hlocal hagrees 0
      obtain ⟨type, hcompiled⟩ := Schema.exists_compiled_of_reads hreads
      obtain ⟨form, header, content, rfl, hform, hcontent, -⟩ :=
        (Schema.reads_decodeOne_iff hcompiled).mp hreads
      rw [Nat.zero_add] at hcontent
      exact CompiledType.exists_isElement_of_reads hform hcontent captured hmem

/-- Captured octets are one whole element, which is no end-of-contents marker unless that is all
that was given or decoded. Any other can stand between elements: what is read up to the marker
behind them are those in front, this one, and those behind it. -/
theorem IsCapturedFrom.stands_anywhere (h : captured.IsCapturedFrom rules octets) :
    ∃ element, captured.IsElement rules element ∧
      (element.header.isEndOfContents = true → IsEnd rules false 0 octets) ∧
        (element.header.isEndOfContents = false → ∀ p q before after,
          Elements rules true 0 p before → Elements rules true 0 q after → ∀ depth rest,
            let content := p ++ (captured.octets ++ (q ++ Header.endOfContents))
            content.length ≤ depth →
              (readPlacedElements rules false depth).outcome (Source.ofOctets (content ++ rest) 0) =
                (.ok (before ++ element.moved p.length ::
                  after.map (PlacedElement.moved (p.length + captured.octets.length))),
                    Source.ofOctets rest content.length)) := by
  obtain ⟨element, helement, hmark⟩ := h.exists_isElement
  refine ⟨element, helement, hmark, ?_⟩
  intro hheader p q before after hbefore hafter depth rest content hdepth
  have hreads := (readsTo_readPlacedElements_iff hdepth).mpr
    (helement.elements hheader hbefore hafter)
  rw [hreads rest nofun, Nat.zero_add]

/-- An element of indefinite length that an extensible SEQUENCE does not know, between two NULLs. -/
theorem stands_anywhere_defaultedSequence :
    let octets : Octets :=
      [0x30, 0x80, 0x02, 0x01, 0x05, 0xA5, 0x80, 0x05, 0x00, 0x00, 0x00, 0x00, 0x00]
    let captured : Captured := ⟨⟨.context 5, true⟩, [0xA5, 0x80, 0x05, 0x00, 0x00, 0x00]⟩
    let null (position : Nat) : PlacedElement :=
      ⟨⟨⟨Builtin.null.tag, false⟩, .definite 0, position⟩, position + 2, []⟩
    captured.IsCapturedFrom .cer octets ∧ ∃ element, captured.IsElement .cer element ∧
      (readPlacedElements .cer false 12).outcome (Source.ofOctets
          ([0x05, 0x00] ++ (captured.octets ++ ([0x05, 0x00] ++ Header.endOfContents))) 0) =
        (.ok [null 0, element.moved 2, null 8], Source.ofOctets [] 12) := by
  intro octets captured null
  let value : Value := .collection [("x", .integer ⟨5, by decide, by decide⟩),
    ((Tag.context 5).text, .captured captured)]
  have hvalue : (Schema.defaultedSequence.decodeOne ⟨2⟩ ⟨.cer, 2⟩).outcome
      (Source.ofOctets octets 0) = (.ok value, Source.ofOctets [] 13) := by decide +kernel
  have hcaptured : captured.IsCapturedFrom .cer octets :=
    .decoded (.inl rfl) (isBounded_ofOctets _ _) rfl hvalue (by simp [value, Value.captures,
      Value.entryCaptures])
  have hnull : Elements .cer true 0 [0x05, 0x00] [null 0] := by
    have hform : Header.IsForm .cer 0 [0x05, 0x00] (null 0).header :=
      ⟨rfl, rfl, [0x00], rfl, .inl ⟨rfl, by decide⟩⟩
    have hcontent : IsContent .cer (null 0).header 2 [] := isContent_of_definite rfl
    have hend : Elements .cer true 2 [] [] := .nil rfl
    exact .cons hform rfl hcontent hend
  obtain ⟨element, helement, -, hstands⟩ := hcaptured.stands_anywhere
  have hheader : element.header.isEndOfContents = false := by
    rw [Header.isEndOfContents, helement.2.1]
    rfl
  exact ⟨hcaptured, element, helement,
    hstands hheader _ _ _ _ hnull hnull 12 [] (Nat.le_refl _)⟩

end Captured

namespace Schema

/-- An INTEGER and a compiled CHOICE with an extension marker. -/
def extensibleChoice : Schema :=
  let collection : CollectionDeclaration :=
    ⟨.choice, false, true, [.components [⟨"i", .handle ⟨0⟩, false, none⟩]], [], []⟩
  let schema := (empty.add ⟨.builtin .integer, []⟩).2
  ((Schema.compile ⟨1⟩).outcome (schema.add ⟨.collection collection, []⟩).2).2

/-- An end-of-contents marker is captured as if it was an element, and hides what stands behind it.
-/
theorem exists_captured_marker :
    let captured : Captured := ⟨Identifier.endOfContents, Header.endOfContents⟩
    Captured.ofOctets .ber [0x00, 0x00] = .ok captured ∧
      extensibleChoice.decode ⟨1⟩ ⟨.ber, 64⟩ [0x00, 0x00] =
        .ok (.choice Identifier.endOfContents.tag.text (.captured captured)) ∧
      (readPlacedElements .ber false 6).outcome
          (ofOctets (captured.octets ++ ([0x05, 0x00] ++ Header.endOfContents)) 0) =
        (.ok [], ofOctets [0x05, 0x00, 0x00, 0x00] 2) := by
  refine ⟨?_, ?_, ?_⟩
  · decide +kernel
  · decide +kernel
  · decide +kernel

end Schema

end Asn1

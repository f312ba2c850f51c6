import Asn1.Proofs.CapturedElements
import Asn1.Proofs.CompilationSteps
import Asn1.Proofs.FoundElements
import Asn1.Proofs.WrittenElements

namespace Asn1

open Read Source

namespace Value

mutual

/-- The captured elements in a value. -/
def captures : Value → List Captured
  | captured element => [element]
  | collection entries => entryCaptures entries
  | list items => itemCaptures items
  | _ => []

def entryCaptures : List (String × Value) → List Captured
  | [] => []
  | (_, value) :: rest => captures value ++ entryCaptures rest

def itemCaptures : List Value → List Captured
  | [] => []
  | value :: rest => captures value ++ itemCaptures rest

end

variable {property : Captured → Prop}

theorem forall_captures_collection_iff {entries : Entries} :
    (∀ element ∈ (collection entries).captures, property element) ↔
      ∀ entry ∈ entries, ∀ element ∈ entry.2.captures, property element := by
  rw [captures]
  induction entries with
  | nil => simp [entryCaptures]
  | cons entry rest ih =>
      rw [entryCaptures, List.forall_mem_append, List.forall_mem_cons, ih]

theorem forall_captures_list_iff {items : List Value} :
    (∀ element ∈ (list items).captures, property element) ↔
      ∀ item ∈ items, ∀ element ∈ item.captures, property element := by
  rw [captures]
  induction items with
  | nil => simp [itemCaptures]
  | cons item rest ih => rw [itemCaptures, List.forall_mem_append, List.forall_mem_cons, ih]

theorem IsLeaf.captures_eq_nil {value : Value} (h : value.IsLeaf) : value.captures = [] := by
  cases value with
  | collection | list | captured => exact h.elim
  | _ => rfl

end Value

theorem Builtin.captures_eq_nil {builtin : Builtin} {rules : EncodingRules} {value : Value}
    {content : Octets} (h : builtin.encodeContent rules value = .ok content) :
    value.captures = [] := by
  cases value with
  | collection | list | captured => cases builtin <;> cases h
  | _ => rfl

namespace Captured

variable {rules : EncodingRules} {octets : Octets}

theorem exists_of_ofOctets {captured : Captured} (h : ofOctets rules octets = .ok captured) :
    ∃ form content header copied, octets = form ++ content ∧ Header.IsForm rules 0 form header ∧
      (copyElement rules octets.length header).Reads form.length content copied := by
  change (fun identifier => (⟨identifier, octets⟩ : Captured)) <$> (Read.outcome (do
    let header ← Header.read rules
    discard <| copyElement rules octets.length header
    unless ← isExhausted do failAt .trailingData (← position)
    return header.identifier) (Source.ofOctets octets 0)).1 = _ at h
  obtain ⟨identifier, hidentifier, -⟩ := Results.map_eq_ok_iff.mp h
  obtain ⟨header, middle, hheader, hrest⟩ :=
    exists_of_outcome_bind (Prod.ext hidentifier (Eq.refl (Prod.snd _)))
  obtain ⟨form, rest, rfl, rfl, hform⟩ := Header.isLocal_read rules _ _ _ _ hheader
  obtain ⟨_, middle, hdiscard, hrest⟩ := exists_of_outcome_bind hrest
  obtain ⟨copied, hcopy⟩ := exists_of_outcome_discard hdiscard
  obtain ⟨content, after, rfl, rfl, hreads⟩ := isLocal_copyElement rules _ header _ _ _ _ hcopy
  obtain rfl : after = [] := by
    rw [outcome_bind_of_ok (outcome_isExhausted _ _)] at hrest
    cases after with
    | nil => rfl
    | cons octet after =>
        simp only [List.isEmpty_cons, Bool.false_eq_true, if_false] at hrest
        rw [outcome_bind_of_ok (outcome_position _), failAt_bind, outcome_failAt] at hrest
        cases hrest
  rw [List.append_nil] at hreads ⊢
  exact ⟨form, content, header, copied, rfl, Header.reads_read_iff.mp hform,
    by rwa [Nat.zero_add] at hreads⟩

theorem isWhole_of_definite {depth position size : Nat} {header : Header} {content copied : Octets}
    (hfault : header.fault? .cer = none) (hlength : header.length = .definite size)
    (h : (copyElement .cer depth header).Reads position content copied)
    (hsize : content.length < Length.sizeBound) :
    IsWhole .cer True (header.octets ++ content) := by
  obtain ⟨rfl, -⟩ := (reads_copyElement_iff_of_definite hlength).mp h
  rw [Header.octets, hlength]
  refine (IsWhole.definite header.identifier hsize).congr (iff_true_intro fun hconstructed => ?_)
  have hrules := Header.allowsDefinite_of_fault? hfault hlength hconstructed
  contradiction

theorem Copies.exists_isWhole {depth position : Nat} {copied : Octets}
    (h : Copies .cer (copyElement .cer depth) position octets copied)
    (hcopy : ∀ {position : Nat} {header : Header} {content copied : Octets},
      header.fault? .cer = none → (copyElement .cer depth header).Reads position content copied →
        content.length < Length.sizeBound → IsWhole .cer True (header.octets ++ content))
    (hsize : octets.length < Length.sizeBound) :
    ∃ elements, octets = elements ++ Header.endOfContents ∧ IsWhole .cer True elements := by
  induction h with
  | last hform hheader hread =>
      obtain rfl := Header.eq_octets_of_isForm rfl hform
      obtain ⟨hidentifier, hlength⟩ := Header.eq_endOfContents hform.2.1 hheader
      obtain ⟨hcontent, -⟩ := (reads_copyElement_iff_of_definite hlength).mp hread
      obtain rfl := List.length_eq_zero_iff.mp hcontent
      refine ⟨[], ?_, .nil⟩
      simp [Header.octets, Header.endOfContents, hidentifier, hlength]
  | cons hform hheader hread _ ih =>
      simp only [List.length_append] at hsize
      obtain ⟨elements, rfl, helements⟩ := ih (by omega)
      obtain rfl := Header.eq_octets_of_isForm rfl hform
      have hfirst := hcopy hform.2.1 hread (by omega)
      exact ⟨_, by simp, (hfirst.append helements).congr (and_self_iff)⟩

/-- An element that is checked under rules without definite constructed values is whole: its content
is either primitive or followed up to the marker. -/
theorem isWhole_of_reads {depth position : Nat} {header : Header} {content copied : Octets}
    (hfault : header.fault? .cer = none)
    (h : (copyElement .cer depth header).Reads position content copied)
    (hsize : content.length < Length.sizeBound) :
    IsWhole .cer True (header.octets ++ content) := by
  induction depth generalizing position header content copied with
  | zero =>
      cases hlength : header.length with
      | definite size => exact isWhole_of_definite hfault hlength h hsize
      | indefinite =>
          obtain ⟨_, _, hdepth, -⟩ := exists_copies_of_reads hlength h
          contradiction
  | succ depth ih =>
      cases hlength : header.length with
      | definite size => exact isWhole_of_definite hfault hlength h hsize
      | indefinite =>
          obtain ⟨inner, others, hdepth, rfl, hcopies⟩ := exists_copies_of_reads hlength h
          obtain rfl := Nat.succ.inj hdepth
          obtain ⟨elements, rfl, helements⟩ := hcopies.exists_isWhole ih hsize
          obtain ⟨hconstructed, hrules⟩ := Header.constructed_of_indefinite hfault hlength
          rw [Header.octets, hlength]
          obtain ⟨⟨tag, constructed⟩, length, start⟩ := header
          obtain rfl : constructed = true := hconstructed
          exact helements.indefinite tag hrules

/-- Captured octets that have been checked under rules with definite length only are whole, but may
hold elements that do not obey the rules. -/
theorem isWhole_der {captured : Captured} (h : ofOctets .der octets = .ok captured)
    (hsize : octets.length < Length.sizeBound) : IsWhole .der (Obeys .der octets) octets := by
  obtain ⟨form, content, header, copied, rfl, hform, hreads⟩ := exists_of_ofOctets h
  obtain rfl := Header.eq_octets_of_isForm rfl hform
  cases hlength : header.length with
  | indefinite => exact absurd (Header.constructed_of_indefinite hform.2.1 hlength).2 nofun
  | definite size =>
      obtain ⟨rfl, -⟩ := (reads_copyElement_iff_of_definite hlength).mp hreads
      rw [List.length_append] at hsize
      obtain ⟨condition, hwhole⟩ :
          ∃ condition, IsWhole .der condition (header.octets ++ content) := by
        rw [Header.octets, hlength]
        exact ⟨_, .definite header.identifier (by omega)⟩
      exact hwhole.congr hwhole.obeys_iff.symm

theorem isWhole_cer {captured : Captured} (h : ofOctets .cer octets = .ok captured)
    (hsize : octets.length < Length.sizeBound) : IsWhole .cer True octets := by
  obtain ⟨form, content, header, copied, rfl, hform, hreads⟩ := exists_of_ofOctets h
  obtain rfl := Header.eq_octets_of_isForm rfl hform
  rw [List.length_append] at hsize
  exact isWhole_of_reads hform.2.1 hreads (by omega)

end Captured

namespace Encoder

variable {encoder : Encoder} {condition : Prop} {octets : Octets}

theorem isWhole_constructed {tag : Tag} {content : Written}
    (h : encoder.constructed tag content = .done octets)
    (hsize : octets.length < Length.sizeBound)
    (hcontent : ∀ c, content = .done c → c.length < Length.sizeBound →
      IsWhole encoder.rules condition c) : IsWhole encoder.rules condition octets := by
  obtain ⟨c, hc, hform⟩ := constructed_eq_done_iff.mp h
  split at hform
  · next hdefinite =>
    subst hform
    rw [List.length_append] at hsize
    rw [isDefinite, Bool.and_eq_true] at hdefinite
    have hwhole := hcontent c hc (by omega)
    refine (IsWhole.definite ⟨tag, true⟩ (by omega)).congr ?_
    simp [hdefinite.2, hwhole.obeys_iff]
  · obtain ⟨hindefinite, rfl⟩ := hform
    simp only [List.length_append] at hsize
    exact (hcontent c hc (by omega)).indefinite tag hindefinite

theorem isWhole_builtin {builtin : Builtin} {value : Value} {tag : Tag}
    (h : encoder.builtin builtin value tag = .done octets)
    (hsize : octets.length < Length.sizeBound) : IsWhole encoder.rules True octets := by
  obtain ⟨content, -, ⟨-, rfl⟩ | ⟨hsegmented, rfl⟩⟩ := builtin_eq_done_iff.mp h
  · rw [primitiveElement, List.length_append] at hsize
    exact .primitive tag (by omega)
  · have hrules : encoder.rules.allowsIndefiniteConstructed = true := by
      rw [EncodingRules.eq_cer hsegmented.1]
      rfl
    simp only [List.length_append] at hsize
    have hpieces : List.Forall₂ (fun (_ : Octets) piece => piece.length < Length.sizeBound →
        IsWhole encoder.rules True piece) (segments EncodingRules.segmentLength content)
        ((segments EncodingRules.segmentLength content).map (primitiveElement .octetString)) := by
      rw [List.forall₂_map_right_iff, List.forall₂_same]
      intro segment _ hpiece
      rw [primitiveElement, List.length_append] at hpiece
      exact .primitive .octetString (by omega)
    exact ((IsWhole.flatten hpieces (by omega)).congr (by simp)).indefinite tag hrules

theorem exists_of_unknown {value : Value} (hrules : encoder.rules.isRestricted = true)
    (h : encoder.unknown value = .done octets) :
    ∃ element captured, value = .captured element ∧ octets = element.octets ∧
      Captured.ofOctets encoder.rules element.octets = .ok captured := by
  cases value with
  | captured element =>
      rw [unknown, hrules] at h
      cases hcheck : Captured.ofOctets encoder.rules element.octets with
      | error error =>
          simp only [hcheck] at h
          exact absurd h Written.fail_ne_done
      | ok captured =>
          simp only [hcheck] at h
          exact ⟨element, captured, rfl, (Written.done_inj.mp h).symm, hcheck⟩
  | _ => exact absurd h Written.fail_ne_done

end Encoder

namespace CompiledType

open Encoder

variable {layout : Layout CompiledType} {encoder : Encoder} {value : Value} {octets : Octets}

theorem exists_items_of_content (hlist : layout.kind.isList = true)
    (h : encoder.content (layout.map (interpret encoder.step)) value = .done octets) :
    ∃ element items, layout.element? = some element ∧ value = .list items := by
  unfold Encoder.content at h
  rw [Layout.kind_map, if_pos hlist, Layout.element?_map] at h
  cases helement : layout.element? with
  | none =>
      rw [helement] at h
      exact absurd h Written.fail_ne_done
  | some element =>
      rw [helement] at h
      cases value with
      | list items => exact ⟨element, items, rfl, rfl⟩
      | _ => exact absurd h Written.fail_ne_done

theorem exists_entries_of_content (hlist : layout.kind.isList = false)
    (h : encoder.content (layout.map (interpret encoder.step)) value = .done octets) :
    ∃ entries, value = .collection entries := by
  unfold Encoder.content at h
  rw [Layout.kind_map, if_neg (by simp [hlist])] at h
  cases value with
  | collection entries => exact ⟨entries, rfl⟩
  | _ => exact absurd h Written.fail_ne_done

/-- Whether what is written for values of a type are whole elements, which obey the rules if the
captured elements in the value meet a condition. -/
def WritesWhole (type : CompiledType) (encoder : Encoder) (condition : Captured → Prop) : Prop :=
  ∀ {value tag? octets}, type.Writes encoder value tag? octets → octets.length < Length.sizeBound →
    IsWhole encoder.rules (∀ element ∈ value.captures, condition element) octets

variable {condition : Captured → Prop}

theorem isWhole_items
    (htypes : ∀ component ∈ layout.components, component.type.WritesWhole encoder condition)
    (hlist : layout.kind.isList = true) (hsize : octets.length < Length.sizeBound)
    (h : encoder.content (layout.map (interpret encoder.step)) value = .done octets) :
    IsWhole encoder.rules (∀ element ∈ value.captures, condition element) octets := by
  obtain ⟨element, items, helement, rfl⟩ := exists_items_of_content hlist h
  obtain ⟨pieces, rfl, hpieces⟩ := (content_list_eq_done_iff hlist helement).mp h
  have hwhole := hpieces.imp fun item piece hpiece =>
    htypes element (Layout.mem_components_of_element? helement) hpiece
  exact (IsWhole.flatten hwhole hsize).congr Value.forall_captures_list_iff.symm

theorem isWhole_entries
    (hunknown : ∀ {value octets}, encoder.unknown value = .done octets →
      octets.length < Length.sizeBound →
        IsWhole encoder.rules (∀ element ∈ value.captures, condition element) octets)
    (htypes : ∀ component ∈ layout.components, component.type.WritesWhole encoder condition)
    (hlist : layout.kind.isList = false) (hsize : octets.length < Length.sizeBound)
    (h : encoder.content (layout.map (interpret encoder.step)) value = .done octets) :
    IsWhole encoder.rules (∀ element ∈ value.captures, condition element) octets := by
  obtain ⟨entries, rfl⟩ := exists_entries_of_content hlist h
  obtain ⟨pieces, rfl, hpieces⟩ := (content_entries_eq_done_iff hlist).mp h
  have hwhole : List.Forall₂ (fun (entry : String × Value) piece =>
      piece.length < Length.sizeBound →
        IsWhole encoder.rules (∀ element ∈ entry.2.captures, condition element) piece)
      entries pieces := by
    refine hpieces.imp fun entry piece hpiece => ?_
    rw [WritesEntry] at hpiece
    cases hfind : layout.component? entry.1 with
    | none =>
        simp only [hfind] at hpiece
        exact hunknown hpiece
    | some component =>
        simp only [hfind] at hpiece
        exact htypes component (Layout.mem_components_of_component? hfind) hpiece
  exact (IsWhole.flatten hwhole hsize).congr Value.forall_captures_collection_iff.symm

theorem writesWhole (type : CompiledType)
    (hunknown : ∀ {value octets}, encoder.unknown value = .done octets →
      octets.length < Length.sizeBound →
        IsWhole encoder.rules (∀ element ∈ value.captures, condition element) octets) :
    type.WritesWhole encoder condition := by
  induction type using formInduct with
  | builtin info builtin =>
      intro value tag? octets h hsize
      have hbuiltin := writes_builtin_iff.mp h
      obtain ⟨content, hcontent, -⟩ := builtin_eq_done_iff.mp hbuiltin
      refine (isWhole_builtin hbuiltin hsize).congr ?_
      simp [Builtin.captures_eq_nil hcontent]
  | «alias» info target ih =>
      intro value tag? octets h hsize
      exact ih (writes_alias_iff.mp h) hsize
  | tagged info tag method inner ih =>
      intro value tag? octets h hsize
      cases method with
      | implicit => exact ih (writes_implicit_iff.mp h) hsize
      | explicit => exact isWhole_constructed (writes_explicit_iff.mp h) hsize fun c => ih
  | collection info layout ih =>
      intro value tag? octets h hsize
      have hcontent {c : Octets}
          (hc : encoder.content (layout.map (interpret encoder.step)) value = .done c)
          (hcsize : c.length < Length.sizeBound) :
          IsWhole encoder.rules (∀ element ∈ value.captures, condition element) c := by
        cases hlist : layout.kind.isList with
        | true => exact isWhole_items ih hlist hcsize hc
        | false => exact isWhole_entries hunknown ih hlist hcsize hc
      cases htag : layout.kind.tag? with
      | some tag =>
          exact isWhole_constructed ((writes_collection_iff htag).mp h) hsize fun c => hcontent
      | none =>
          have hchoice := CollectionKind.tag?_eq_none_iff.mp htag
          exact hcontent ((writes_choice_iff hchoice).mp h).2 hsize

end CompiledType

namespace Schema

/-- Whatever is written under restricted rules obeys them, at all levels of nesting and with all
elements that have been captured under whichever rules, if definite length is not allowed. Otherwise
it obeys them if and only if each of the captured elements does. -/
theorem obeys_encode {schema : Schema} {handle : Handle} {type : CompiledType} {value : Value}
    {form : CanonicalForm} {encoder : Encoder} {octets : Octets}
    (hcompiled : schema.compiled handle = .ok type)
    (hform : schema.canonicalize handle value = .ok form)
    (hencode : (schema.encode handle encoder value).toExcept = .ok octets)
    (hsize : octets.length < Length.sizeBound) :
    (encoder.rules = .cer → Obeys .cer octets) ∧
      (encoder.rules = .der →
        (Obeys .der octets ↔ ∀ element ∈ form.value.captures, Obeys .der element.octets)) := by
  obtain ⟨rules, buffering⟩ := encoder
  have hwrites := (encode_eq_done_iff hcompiled hform).mp hencode
  constructor
  · rintro ⟨⟩
    have hunknown {value : Value} {octets : Octets}
        (h : (⟨.cer, buffering⟩ : Encoder).unknown value = .done octets)
        (hlength : octets.length < Length.sizeBound) :
        IsWhole .cer (∀ element ∈ value.captures, True) octets := by
      obtain ⟨element, captured, rfl, rfl, hcheck⟩ := Encoder.exists_of_unknown rfl h
      exact (Captured.isWhole_cer hcheck hlength).congr (by simp)
    exact (type.writesWhole hunknown hwrites hsize).obeys_iff.mpr fun _ _ => trivial
  · rintro ⟨⟩
    have hunknown {value : Value} {octets : Octets}
        (h : (⟨.der, buffering⟩ : Encoder).unknown value = .done octets)
        (hlength : octets.length < Length.sizeBound) :
        IsWhole .der (∀ element ∈ value.captures, Obeys .der element.octets) octets := by
      obtain ⟨element, captured, rfl, rfl, hcheck⟩ := Encoder.exists_of_unknown rfl h
      exact (Captured.isWhole_der hcheck hlength).congr (by simp [Value.captures])
    exact (type.writesWhole hunknown hwrites hsize).obeys_iff

/-- With a captured element that has a constructed element in it. -/
theorem obeys_encode_defaultedSequence :
    let element : Captured := ⟨⟨.context 3, true⟩, [0xa3, 0x80, 0x02, 0x01, 0x07, 0x00, 0x00]⟩
    let value : Value := .collection [("b", .boolean true),
      ("x", .integer ⟨5, by decide, by decide⟩), ("[3]", .captured element)]
    let octets : Octets := [0x30, 0x80, 0x01, 0x01, 0xff, 0x02, 0x01, 0x05, 0xa3, 0x80, 0x02, 0x01,
      0x07, 0x00, 0x00, 0x00, 0x00]
    (defaultedSequence.encode ⟨2⟩ ⟨.cer, true⟩ value).toExcept = .ok octets ∧
      Obeys .cer octets := by
  intro element value octets
  have hform : defaultedSequence.canonicalize ⟨2⟩ value = .ok ⟨value, false⟩ := rfl
  have hencode : (defaultedSequence.encode ⟨2⟩ ⟨.cer, true⟩ value).toExcept = .ok octets := by
    decide +kernel
  exact ⟨hencode, (obeys_encode compiled_defaultedSequence hform hencode (by decide)).1 rfl⟩

/-- The check under rules that demand definite length stops at a captured element that has one,
whatever length the elements in it have. -/
theorem exists_indefinite_in_encode :
    let schema := extendedSequence [⟨"a", .handle ⟨0⟩, false, none⟩]
      [⟨"x", .handle ⟨0⟩, true, none⟩] []
    let element : Captured := ⟨⟨.context 3, true⟩, [0xa3, 0x04, 0x30, 0x80, 0x00, 0x00]⟩
    let value : Value := .collection [("a", .integer ⟨1, by decide, by decide⟩),
      ("x", .integer ⟨2, by decide, by decide⟩), ("[3]", .captured element)]
    let octets : Octets := [0x30, 0x0c, 0x02, 0x01, 0x01, 0x02, 0x01, 0x02, 0xa3, 0x04, 0x30, 0x80,
      0x00, 0x00]
    schema.Reachable ∧ (∃ type, schema.compiled ⟨2⟩ = .ok type) ∧
      (schema.encode ⟨2⟩ ⟨.der, true⟩ value).toExcept = .ok octets ∧
        ∃ found, Finds octets found ∧ found.identifier.constructed = true ∧
          found.length = .indefinite := by
  intro schema element value octets
  refine ⟨reachable_extendedSequence _ _ _, ⟨_, rfl⟩, by decide +kernel,
    ⟨[0x30, 0x80], ⟨.sequence, true⟩, .indefinite, [0x00, 0x00]⟩, ?_, rfl, rfl⟩
  have hsequence := IsHeaderForm.definite ⟨.sequence, true⟩ (show 12 < Length.sizeBound by decide)
  have hinteger := IsHeaderForm.definite ⟨.integer, false⟩ (show 1 < Length.sizeBound by decide)
  have helement := IsHeaderForm.definite ⟨.context 3, true⟩ (show 4 < Length.sizeBound by decide)
  have hinner : Finds [0x30, 0x80, 0x00, 0x00]
      ⟨[0x30, 0x80], ⟨.sequence, true⟩, .indefinite, [0x00, 0x00]⟩ :=
    .indefinite (.indefinite .sequence)
  have hcontent : Finds ([0x02, 0x01] ++ ([0x01] ++ ([0x02, 0x01] ++ ([0x02] ++
      ([0xa3, 0x04] ++ ([0x30, 0x80, 0x00, 0x00] ++ []))))))
      ⟨[0x30, 0x80], ⟨.sequence, true⟩, .indefinite, [0x00, 0x00]⟩ :=
    .after hinteger (.after hinteger (.inside helement rfl hinner))
  show Finds (octets ++ []) _
  exact .inside hsequence rfl hcontent

end Schema

end Asn1

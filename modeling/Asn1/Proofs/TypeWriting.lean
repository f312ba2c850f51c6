import Asn1.Encoding
import Asn1.Proofs.LeafContent
import Asn1.Proofs.CompiledTypes

namespace Asn1

open Results

theorem EncodingRules.eq_cer {rules : EncodingRules}
    (h : rules.allowsDefiniteConstructed = false) : rules = .cer := by
  cases rules with
  | cer => rfl
  | ber => contradiction
  | der => contradiction

namespace Written

variable {a b : Written} {octets : Octets}

theorem done_inj {c d : Octets} : done c = done d ↔ c = d := by
  constructor
  · exact congrArg Written.octets
  · exact congrArg done

theorem fail_ne_done {error : EncodeError} : fail error ≠ done octets := by
  intro h
  exact absurd (congrArg failure? h) (by simp [fail, done])

theorem append_eq_done_iff :
    a ++ b = done octets ↔ ∃ c d, octets = c ++ d ∧ a = done c ∧ b = done d := by
  obtain ⟨c, fault?⟩ := a
  obtain ⟨d, other?⟩ := b
  cases fault? with
  | some error =>
      refine iff_of_false (fun h => ?_) ?_
      · exact absurd (congrArg failure? h) (by rintro ⟨⟩)
      · rintro ⟨_, _, _, h, _⟩
        exact absurd (congrArg failure? h) (by rintro ⟨⟩)
  | none =>
      show (⟨c ++ d, other?⟩ : Written) = ⟨octets, none⟩ ↔ _
      simp only [done, Written.mk.injEq]
      constructor
      · rintro ⟨rfl, rfl⟩
        exact ⟨c, d, rfl, ⟨rfl, trivial⟩, rfl, rfl⟩
      · rintro ⟨_, _, rfl, ⟨rfl, -⟩, rfl, rfl⟩
        exact ⟨rfl, rfl⟩

theorem concat_eq_done_iff {parts : List Written} :
    concat parts = done octets ↔
      ∃ pieces, octets = pieces.flatten ∧
        List.Forall₂ (fun part piece => part = done piece) parts pieces := by
  induction parts generalizing octets with
  | nil =>
      rw [concat, done_inj]
      constructor
      · rintro rfl
        exact ⟨[], rfl, .nil⟩
      · rintro ⟨pieces, rfl, ⟨⟩⟩
        rfl
  | cons first rest ih =>
      rw [concat, append_eq_done_iff]
      constructor
      · rintro ⟨c, d, rfl, hfirst, hrest⟩
        obtain ⟨pieces, rfl, hpieces⟩ := ih.mp hrest
        exact ⟨c :: pieces, rfl, .cons hfirst hpieces⟩
      · rintro ⟨_, rfl, hpieces⟩
        cases hpieces with
        | cons hfirst hrest => exact ⟨_, _, rfl, hfirst, ih.mpr ⟨_, rfl, hrest⟩⟩

theorem toExcept_eq_ok_iff : a.toExcept = .ok octets ↔ a = done octets := by
  obtain ⟨c, fault?⟩ := a
  cases fault? <;> simp [toExcept, done]

end Written

namespace Encoder

open Written

variable {encoder : Encoder} {octets : Octets}

/-- Whether constructed elements are written with definite length. -/
def isDefinite (encoder : Encoder) : Bool :=
  encoder.buffering && encoder.rules.allowsDefiniteConstructed

theorem constructed_eq_done_iff {tag : Tag} {content : Written} :
    encoder.constructed tag content = done octets ↔ ∃ c, content = done c ∧
      if encoder.isDefinite = true then octets = headerOctets tag true (.definite c.length) ++ c
      else encoder.rules.allowsIndefiniteConstructed = true ∧
        octets = headerOctets tag true .indefinite ++ (c ++ Header.endOfContents) := by
  obtain ⟨c, fault?⟩ := content
  rw [constructed, isDefinite]
  split
  · cases fault? with
    | some error =>
        refine iff_of_false fail_ne_done ?_
        rintro ⟨_, h, _⟩
        exact absurd (congrArg failure? h) (by rintro ⟨⟩)
    | none =>
        simp only [done, Written.mk.injEq, and_true]
        constructor
        · rintro rfl
          exact ⟨c, rfl, rfl⟩
        · rintro ⟨_, rfl, rfl⟩
          rfl
  · split
    · next hindefinite =>
      simp only [append_eq_done_iff, done_inj]
      constructor
      · rintro ⟨_, _, rfl, ⟨_, d, rfl, rfl, hcontent⟩, rfl⟩
        exact ⟨d, hcontent, hindefinite, by simp⟩
      · rintro ⟨d, hcontent, -, rfl⟩
        exact ⟨_, _, by rw [← List.append_assoc], ⟨_, d, rfl, rfl, hcontent⟩, rfl⟩
    · next hindefinite =>
      refine iff_of_false fail_ne_done ?_
      rintro ⟨_, _, h, _⟩
      exact hindefinite h

/-- Whether the content of a leaf has to be broken up. -/
def IsSegmented (rules : EncodingRules) (builtin : Builtin) (content : Octets) : Prop :=
  rules.allowsDefiniteConstructed = false ∧ builtin.isSegmentable = true ∧
    EncodingRules.segmentLength < content.length

theorem concat_segments (content : Octets) :
    concat ((segments EncodingRules.segmentLength content).map fun segment =>
      .done (primitiveElement .octetString segment)) =
        done ((segments EncodingRules.segmentLength content).map
          (primitiveElement .octetString)).flatten := by
  rw [concat_eq_done_iff]
  refine ⟨_, rfl, ?_⟩
  rw [List.forall₂_map_left_iff, List.forall₂_map_right_iff, List.forall₂_same]
  exact fun segment _ => rfl

theorem builtin_eq_done_iff {builtin : Builtin} {value : Value} {tag : Tag} :
    encoder.builtin builtin value tag = done octets ↔
      ∃ content, builtin.encodeContent encoder.rules value = .ok content ∧
        ((¬IsSegmented encoder.rules builtin content ∧ octets = primitiveElement tag content) ∨
          (IsSegmented encoder.rules builtin content ∧
            octets = headerOctets tag true .indefinite ++
              (((segments EncodingRules.segmentLength content).map
                (primitiveElement .octetString)).flatten ++ Header.endOfContents))) := by
  rw [Encoder.builtin]
  cases hcontent : builtin.encodeContent encoder.rules value with
  | error error =>
      refine iff_of_false fail_ne_done ?_
      rintro ⟨_, ⟨⟩, _⟩
  | ok content =>
      have hcondition : (!encoder.rules.allowsDefiniteConstructed && builtin.isSegmentable &&
          decide (EncodingRules.segmentLength < content.length)) = true ↔
            IsSegmented encoder.rules builtin content := by
        simp [IsSegmented, and_assoc]
      simp only [Except.ok.injEq, exists_eq_left']
      by_cases hsegmented : IsSegmented encoder.rules builtin content
      · have hindefinite : encoder.isDefinite ≠ true := by
          simp [isDefinite, hsegmented.1]
        have hrules : encoder.rules.allowsIndefiniteConstructed = true := by
          rw [EncodingRules.eq_cer hsegmented.1]
          rfl
        rw [if_pos (hcondition.mpr hsegmented), concat_segments, constructed_eq_done_iff]
        simp [done_inj, hindefinite, hrules, hsegmented]
      · rw [if_neg (mt hcondition.mp hsegmented)]
        simp [done_inj, hsegmented, eq_comm]

theorem unknown_captured_eq_done {identifier : Identifier} {c : Octets} {captured : Captured}
    (h : Captured.ofOctets encoder.rules c = .ok captured) :
    encoder.unknown (.captured ⟨identifier, c⟩) = done c := by
  rw [unknown]
  simp only [h]
  cases encoder.rules.isRestricted <;> rfl

end Encoder

namespace CompiledType

variable {encoder : Encoder} {info : TypeInfo} {value : Value} {tag? : Option Tag}
  {octets : Octets}

/-- Whether octets are what is written for a value under a tag or, without it, the type's own. -/
def Writes (type : CompiledType) (encoder : Encoder) (value : Value) (tag? : Option Tag)
    (octets : Octets) : Prop :=
  type.interpret encoder.step (value, tag?) = .done octets

theorem writes_builtin_iff {builtin : Builtin} :
    Writes ⟨info, .builtin builtin⟩ encoder value tag? octets ↔
      encoder.builtin builtin value (tag?.getD builtin.tag) = .done octets := by
  rw [Writes, interpret_mk]
  rfl

theorem writes_alias_iff {target : CompiledType} :
    Writes ⟨info, .alias target⟩ encoder value tag? octets ↔
      target.Writes encoder value tag? octets := by
  rw [Writes, interpret_mk]
  rfl

theorem writes_implicit_iff {tag : Tag} {inner : CompiledType} :
    Writes ⟨info, .tagged tag .implicit inner⟩ encoder value tag? octets ↔
      inner.Writes encoder value (some (tag?.getD tag)) octets := by
  rw [Writes, interpret_mk]
  rfl

theorem writes_explicit_iff {tag : Tag} {inner : CompiledType} :
    Writes ⟨info, .tagged tag .explicit inner⟩ encoder value tag? octets ↔
      encoder.constructed (tag?.getD tag) (inner.interpret encoder.step (value, none)) =
        .done octets := by
  rw [Writes, interpret_mk]
  rfl

theorem writes_collection_iff {layout : Layout CompiledType} {tag : Tag}
    (htag : layout.kind.tag? = some tag) :
    Writes ⟨info, .collection layout⟩ encoder value tag? octets ↔
      encoder.constructed (tag?.getD tag)
        (encoder.content (layout.map (interpret encoder.step)) value) = .done octets := by
  rw [Writes, interpret_mk]
  show encoder.step info (.collection (layout.map (interpret encoder.step))) _ = _ ↔ _
  simp only [Encoder.step, Layout.kind_map, htag]

theorem writes_choice_iff {layout : Layout CompiledType} (hkind : layout.kind = .choice) :
    Writes ⟨info, .collection layout⟩ encoder value tag? octets ↔
      tag? = none ∧
        encoder.content (layout.map (interpret encoder.step)) value = .done octets := by
  have htag := CollectionKind.tag?_eq_none_iff.mpr hkind
  rw [Writes, interpret_mk]
  show encoder.step info (.collection (layout.map (interpret encoder.step))) _ = _ ↔ _
  simp only [Encoder.step, Layout.kind_map, htag]
  cases tag? with
  | none => simp
  | some tag => simp [Written.fail_ne_done]

theorem content_list_eq_done_iff {layout : Layout CompiledType} (hlist : layout.kind.isList = true)
    {element : Component CompiledType} (helement : layout.element? = some element)
    {items : List Value} :
    encoder.content (layout.map (interpret encoder.step)) (.list items) = .done octets ↔
      ∃ pieces, octets = pieces.flatten ∧
        List.Forall₂ (fun item piece => element.type.Writes encoder item none piece) items
          pieces := by
  unfold Encoder.content
  rw [Layout.kind_map, if_pos hlist, Layout.element?_map_of_some _ helement]
  simp only [Written.concat_eq_done_iff, List.forall₂_map_left_iff]
  rfl

/-- Whether octets are what is written for an entry of a collection. -/
def WritesEntry (layout : Layout CompiledType) (encoder : Encoder) (entry : String × Value)
    (octets : Octets) : Prop :=
  match layout.component? entry.1 with
  | some component => component.type.Writes encoder entry.2 none octets
  | none => encoder.unknown entry.2 = .done octets

theorem content_entries_eq_done_iff {layout : Layout CompiledType}
    (hlist : layout.kind.isList = false) {entries : Entries} :
    encoder.content (layout.map (interpret encoder.step)) (.collection entries) = .done octets ↔
      ∃ pieces, octets = pieces.flatten ∧
        List.Forall₂ (WritesEntry layout encoder) entries pieces := by
  have hentry (entry : String × Value) (piece : Octets) :
      (match (layout.map (interpret encoder.step)).component? entry.1 with
        | some component => component.type (entry.2, none)
        | none => encoder.unknown entry.2) = .done piece ↔
      WritesEntry layout encoder entry piece := by
    rw [WritesEntry, Layout.component?_map]
    cases layout.component? entry.1 <;> rfl
  unfold Encoder.content
  rw [Layout.kind_map, if_neg (by simp [hlist])]
  simp only [Written.concat_eq_done_iff, List.forall₂_map_left_iff]
  refine exists_congr fun pieces => and_congr_right fun _ => ⟨?_, ?_⟩
  · exact List.Forall₂.imp fun entry piece => (hentry entry piece).mp
  · exact List.Forall₂.imp fun entry piece => (hentry entry piece).mpr

theorem writes_choice_iff_entry {layout : Layout CompiledType} (hkind : layout.kind = .choice)
    {name : String} : Writes ⟨info, .collection layout⟩ encoder (.choice name value) tag? octets ↔
      tag? = none ∧ WritesEntry layout encoder (name, value) octets := by
  have hlist : layout.kind.isList = false := CollectionKind.isList_of_choice hkind
  rw [writes_choice_iff hkind, Value.choice, content_entries_eq_done_iff hlist]
  refine and_congr_right fun _ => ⟨?_, ?_⟩
  · rintro ⟨pieces, rfl, hpieces⟩
    obtain ⟨piece, rest, hpiece, hrest, rfl⟩ := List.forall₂_cons_left_iff.mp hpieces
    obtain rfl := List.forall₂_nil_left_iff.mp hrest
    simpa using hpiece
  · intro hpiece
    exact ⟨[octets], by simp, .cons hpiece .nil⟩

end CompiledType

namespace Schema

variable {schema : Schema} {handle : Handle} {encoder : Encoder} {value : Value} {octets : Octets}

theorem encode_eq_done_iff {type : CompiledType} {form : CanonicalForm}
    (hcompiled : schema.compiled handle = .ok type)
    (hform : schema.canonicalize handle value = .ok form) :
    (schema.encode handle encoder value).toExcept = .ok octets ↔
      type.Writes encoder form.value none octets := by
  rw [Written.toExcept_eq_ok_iff, encode, hform, hcompiled]
  rfl

theorem exists_form_of_encode (h : (schema.encode handle encoder value).toExcept = .ok octets) :
    ∃ form, schema.canonicalize handle value = .ok form := by
  cases hform : schema.canonicalize handle value with
  | ok form => exact ⟨form, rfl⟩
  | error error =>
      rw [encode, hform] at h
      contradiction

end Schema

end Asn1

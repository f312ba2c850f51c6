import Asn1.Builtin.Content
import Asn1.Proofs.NumberForms
import Asn1.Proofs.Results

namespace Asn1

open Results

namespace Octets

theorem ofText_eq_iff {text : String} {octets : Octets} :
    ofText text = octets ↔ text.toByteArray = octets.toByteArray := by
  constructor
  · rintro rfl
    apply ByteArray.ext
    simp [ofText]
  · intro h
    rw [ofText, h]
    simp

/-- Each text has one UTF-8 form, from which it can be read. -/
theorem toText?_eq_some_iff {octets : Octets} {text : String} :
    octets.toText? = some text ↔ octets = ofText text := by
  rw [eq_comm (b := ofText text), ofText_eq_iff, toText?, String.fromUTF8?]
  constructor
  · intro h
    split at h
    · obtain rfl := Option.some.inj h
      rfl
    · contradiction
  · intro h
    rw [dif_pos (h ▸ text.isValidUTF8)]
    simp only [Option.some.injEq]
    exact String.toByteArray_inj.mp h.symm

end Octets

/-- Whether a value holds no others, stands for none and has not been captured. -/
def Value.IsLeaf : Value → Prop
  | collection _ | list _ | captured _ | reference _ => False
  | _ => True

theorem Value.IsLeaf.isReference {value : Value} (h : value.IsLeaf) :
    value.isReference = false := by
  cases value with
  | reference name => exact h.elim
  | _ => rfl

namespace Builtin

/-- The content octets that the rules write for a value of a leaf type. -/
inductive IsContent (rules : EncodingRules) : Builtin → Value → Octets → Prop
  | boolean (b : Bool) : IsContent rules .boolean (.boolean b) [if b then 255 else 0]
  | integer (i : Integer) : IsContent rules .integer (.integer i) (TwosComplement.encode i.value)
  | null : IsContent rules .null .null []
  | octetString (octets : Octets) : IsContent rules .octetString (.octetString octets) octets
  | oid (identifier : Oid) : IsContent rules .objectIdentifier (.oid identifier) identifier.content
  | text (builtin : Builtin) (string : String) (htext : builtin.isText = true)
      (hcheck : builtin.checkText string rules.isRestricted = .ok ()) :
      IsContent rules builtin (.text string) (Octets.ofText string)

theorem accept_text {builtin : Builtin} (h : builtin.isText = true) (string : String) :
    builtin.accept (.text string) = (builtin.checkText string false).mapError fun fault =>
      .illegal (.content (.builtin builtin) fault) := by
  cases builtin <;> first | rfl | simp [isText] at h

theorem encodeContent_text {builtin : Builtin} (h : builtin.isText = true) (rules : EncodingRules)
    (string : String) :
    builtin.encodeContent rules (.text string) =
      match rules.isRestricted, builtin.checkText string rules.isRestricted with
      | true, .error _ => .error (.ruleViolation .nonCanonicalText)
      | _, _ => .ok (Octets.ofText string) := by
  cases builtin <;> first | rfl | simp [isText] at h

theorem decodeContent_text {builtin : Builtin} (h : builtin.isText = true) (rules : EncodingRules)
    (content : Octets) :
    builtin.decodeContent rules content = (Value.text <$> builtin.decodeText rules content).mapError
      (.invalidContent (.builtin builtin)) := by
  cases builtin <;> first | rfl | simp [isText] at h

theorem decodeText_eq_ok_iff {builtin : Builtin} {rules : EncodingRules} {content : Octets}
    {string : String} :
    builtin.decodeText rules content = .ok string ↔
      content = Octets.ofText string ∧ builtin.checkText string rules.isRestricted = .ok () := by
  rw [← Octets.toText?_eq_some_iff, decodeText]
  cases htext : content.toText? with
  | none => simp [throw, throwThe, MonadExceptOf.throw]
  | some text =>
      cases hcheck : builtin.checkText text rules.isRestricted with
      | error fault =>
          simp only [hcheck, bind, Except.bind, Option.some.injEq, false_iff, reduceCtorEq]
          rintro ⟨rfl, h⟩
          simp [hcheck] at h
      | ok =>
          simp only [hcheck, bind, Except.bind, pure, Except.pure, Except.ok.injEq,
            Option.some.injEq]
          constructor
          · rintro rfl
            exact ⟨rfl, hcheck⟩
          · rintro ⟨rfl, -⟩
            rfl

theorem isContent_of_encodeContent {builtin : Builtin} {rules : EncodingRules} {value : Value}
    {content : Octets} (haccept : builtin.accept value = .ok ())
    (h : builtin.encodeContent rules value = .ok content) :
    IsContent rules builtin value content := by
  cases value with
  | text string =>
      have htext : builtin.isText = true := by
        cases builtin <;> first | rfl | simp [encodeContent, isText] at h
      rw [encodeContent_text htext] at h
      rw [accept_text htext, mapError_eq_ok_iff] at haccept
      split at h
      · contradiction
      · next hcheck =>
        obtain rfl := Except.ok.inj h
        refine .text builtin string htext ?_
        cases hrules : rules.isRestricted with
        | false => exact haccept
        | true =>
            cases hresult : builtin.checkText string true with
            | ok => rfl
            | error fault => exact absurd (hrules ▸ hresult) (hcheck fault hrules)
  | _ =>
      cases builtin <;> simp only [encodeContent, reduceCtorEq, Except.ok.injEq] at h <;> subst h
      all_goals constructor

theorem exists_encodeContent {builtin : Builtin} {rules : EncodingRules}
    (hrules : rules.isRestricted = false) {value : Value} (h : builtin.accept value = .ok ()) :
    ∃ content, builtin.encodeContent rules value = .ok content := by
  cases value with
  | text string =>
      have htext : builtin.isText = true := by
        cases builtin <;> first | rfl | simp [accept, isText] at h
      rw [encodeContent_text htext, hrules]
      exact ⟨_, rfl⟩
  | _ => cases builtin <;> first | exact ⟨_, rfl⟩ | simp [accept] at h

theorem encodeContent_of_isContent {builtin : Builtin} {rules : EncodingRules} {value : Value}
    {content : Octets} (h : IsContent rules builtin value content) :
    builtin.encodeContent rules value = .ok content := by
  cases h with
  | text builtin string htext hcheck =>
      rw [encodeContent_text htext, hcheck]
      cases rules.isRestricted <;> rfl
  | _ => rfl

theorem length_encode_le_maxOctets (i : Integer) :
    (TwosComplement.encode i.value).length ≤ Integer.maxOctets := by
  apply TwosComplement.length_encode_le (k := 15)
  · have hleast : -2 ^ 127 ≤ i.value := i.least_le
    omega
  · have hbound : i.value < 2 ^ 127 := i.lt_bound
    omega

theorem decodeInteger_encode (i : Integer) :
    decodeInteger (TwosComplement.encode i.value) = .ok i := by
  have hlen := length_encode_le_maxOctets i
  rw [decodeInteger, if_neg (by simp [TwosComplement.encode_ne_nil]),
    if_neg (by simp [TwosComplement.isPadded_encode]), if_neg (by omega),
    TwosComplement.decode_encode, Integer.ofInt?, dif_pos ⟨i.least_le, i.lt_bound⟩]

theorem encode_of_decodeInteger {content : Octets} {i : Integer}
    (h : decodeInteger content = .ok i) : TwosComplement.encode i.value = content := by
  rw [decodeInteger] at h
  split at h
  · contradiction
  · next hne =>
    split at h
    · contradiction
    · next hpadded =>
      split at h
      · contradiction
      · split at h
        · next j hj =>
          obtain rfl := Except.ok.inj h
          rw [Integer.ofInt?] at hj
          split at hj
          · obtain rfl := Option.some.inj hj
            exact TwosComplement.encode_decode (by simpa using hne) (by simpa using hpadded)
          · contradiction
        · contradiction

theorem ofContent_content (identifier : Oid) :
    Oid.ofContent identifier.content = .ok identifier := by
  have hfault := identifier.fault?_content
  rw [Oid.ofContent]
  split
  · rfl
  · next error herror => simp [hfault] at herror

theorem content_of_ofContent {content : Octets} {identifier : Oid}
    (h : Oid.ofContent content = .ok identifier) : identifier.content = content := by
  rw [Oid.ofContent] at h
  split at h
  · obtain rfl := Except.ok.inj h
    rfl
  · contradiction

theorem decodeContent_of_isContent {builtin : Builtin} {rules : EncodingRules} {value : Value}
    {content : Octets} (h : IsContent rules builtin value content) :
    builtin.decodeContent rules content = .ok value := by
  cases h with
  | boolean b => cases b <;> cases rules <;> rfl
  | integer i =>
      simp [decodeContent, decodeInteger_encode, Functor.map, Except.map, Except.mapError]
  | null => rfl
  | octetString octets => rfl
  | oid identifier =>
      simp [decodeContent, ofContent_content, Functor.map, Except.map, Except.mapError]
  | text builtin string htext hcheck =>
      rw [decodeContent_text htext, mapError_eq_ok_iff, map_eq_ok_iff]
      exact ⟨string, decodeText_eq_ok_iff.mpr ⟨rfl, hcheck⟩, rfl⟩

theorem decodeBoolean_eq_ok {rules : EncodingRules} (hrules : rules.isRestricted = true)
    {content : Octets} {b : Bool} (h : decodeBoolean rules content = .ok b) :
    content = [if b then 255 else 0] := by
  rcases content with _ | ⟨octet, _ | ⟨second, rest⟩⟩
  · simp [decodeBoolean] at h
  · rw [decodeBoolean] at h
    split at h
    · next hzero =>
      obtain rfl := Except.ok.inj h
      simp [hzero]
    · split at h
      · next htrue =>
        obtain rfl := Except.ok.inj h
        simpa [hrules] using htrue
      · contradiction
  · simp [decodeBoolean] at h

theorem isLeaf_of_decodeContent {builtin : Builtin} {rules : EncodingRules} {value : Value}
    {content : Octets} (h : builtin.decodeContent rules content = .ok value) : value.IsLeaf := by
  cases value with
  | reference | collection | list | captured =>
      cases builtin with
      | null =>
          rw [decodeContent, mapError_eq_ok_iff] at h
          split at h <;> simp at h
      | _ => simp [decodeContent, mapError_eq_ok_iff, map_eq_ok_iff] at h
  | _ => trivial

/-- A value is read only from the octets that are written for it, unless unrestricted rules read a
truth value. -/
theorem isContent_of_decodeContent_of_exact {builtin : Builtin} {rules : EncodingRules}
    (hexact : rules.isRestricted = true ∨ builtin ≠ .boolean) {value : Value} {content : Octets}
    (h : builtin.decodeContent rules content = .ok value) :
    IsContent rules builtin value content := by
  by_cases htext : builtin.isText = true
  · rw [decodeContent_text htext, mapError_eq_ok_iff, map_eq_ok_iff] at h
    obtain ⟨string, hstring, rfl⟩ := h
    obtain ⟨rfl, hcheck⟩ := decodeText_eq_ok_iff.mp hstring
    exact .text builtin string htext hcheck
  · cases builtin with
    | boolean =>
        rw [decodeContent, mapError_eq_ok_iff, map_eq_ok_iff] at h
        obtain ⟨b, hb, rfl⟩ := h
        rw [decodeBoolean_eq_ok (hexact.resolve_right (not_not_intro rfl)) hb]
        exact .boolean b
    | integer =>
        rw [decodeContent, mapError_eq_ok_iff, map_eq_ok_iff] at h
        obtain ⟨i, hi, rfl⟩ := h
        rw [← encode_of_decodeInteger hi]
        exact .integer i
    | null =>
        rw [decodeContent, mapError_eq_ok_iff] at h
        split at h
        · next hempty =>
          obtain rfl := Except.ok.inj h
          obtain rfl := List.isEmpty_iff.mp hempty
          exact .null
        · contradiction
    | octetString =>
        rw [decodeContent, mapError_eq_ok_iff] at h
        obtain rfl := Except.ok.inj h
        exact .octetString content
    | objectIdentifier =>
        rw [decodeContent, mapError_eq_ok_iff, mapError_eq_ok_iff, map_eq_ok_iff] at h
        obtain ⟨identifier, hidentifier, rfl⟩ := h
        rw [← content_of_ofContent hidentifier]
        exact .oid identifier
    | _ => exact absurd rfl htext

theorem isContent_of_decodeContent {builtin : Builtin} {rules : EncodingRules}
    (hrules : rules.isRestricted = true) {value : Value} {content : Octets}
    (h : builtin.decodeContent rules content = .ok value) :
    IsContent rules builtin value content :=
  isContent_of_decodeContent_of_exact (.inl hrules) h

end Builtin

end Asn1

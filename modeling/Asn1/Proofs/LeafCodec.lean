import Asn1.Proofs.Relaxation
import Mathlib.Data.Int.ModEq
import Mathlib.Tactic.Positivity
import Mathlib.Tactic.Ring

namespace Asn1

open Results

namespace TwosComplement

/-- Whether octets are a two's complement form of an integer: with `n` of them, the integer lies in
the half-open interval from `-256 ^ n / 2` to `256 ^ n / 2`, and they hold its remainder by
`256 ^ n`. -/
structure IsForm (i : Int) (octets : Octets) : Prop where
  ne_nil : octets ≠ []
  least_le : -256 ^ octets.length ≤ 2 * i
  lt_bound : 2 * i < 256 ^ octets.length
  value_eq : (BigEndian.value octets : Int) = i % 256 ^ octets.length

/-- A form of an integer than which no other one has fewer octets. -/
structure IsShortestForm (i : Int) (octets : Octets) : Prop where
  isForm : IsForm i octets
  length_le : ∀ other, IsForm i other → octets.length ≤ other.length

theorem emod_append_octet (i : Int) {m : Int} (hpos : 0 < m) (octet : UInt8) :
    (i * 256 + octet.toNat) % (256 * m) = i % m * 256 + octet.toNat := by
  have hoctet := octet.toNat_lt
  have hnonneg := Int.emod_nonneg i hpos.ne'
  have hlt := Int.emod_lt_of_pos i hpos
  have hsplit : i * 256 + (octet.toNat : Int) =
      i % m * 256 + octet.toNat + 256 * m * (i / m) := by
    conv_lhs => rw [← Int.emod_add_mul_ediv i m]
    ring
  rw [hsplit, Int.add_mul_emod_self_left, Int.emod_eq_of_lt (by omega) (by omega)]

theorem isForm_decode {octets : Octets} (hne : octets ≠ []) : IsForm (decode octets) octets := by
  induction octets using List.reverseRecOn with
  | nil => exact absurd rfl hne
  | append_singleton front octet ih =>
      have hoctet := octet.toNat_lt
      by_cases hfront : front = []
      · subst hfront
        constructor <;> simp only [List.nil_append, ne_eq, List.cons_ne_nil, not_false_iff,
          decode_singleton, List.length_singleton, BigEndian.value, List.foldl_cons,
          List.foldl_nil] <;> split <;> omega
      · obtain ⟨-, hleast, hbound, hvalue⟩ := ih hfront
        obtain ⟨k, hk⟩ := Nat.exists_eq_succ_of_ne_zero (mt List.length_eq_zero_iff.mp hfront)
        have heven : (256 : Int) ^ front.length = 256 * 256 ^ k := by rw [hk, pow_succ']
        have hpow : (256 : Int) ^ (front ++ [octet]).length = 256 * 256 ^ front.length := by
          rw [List.length_append, List.length_singleton, pow_succ']
        refine ⟨hne, ?_, ?_, ?_⟩
        · rw [hpow, decode_append_singleton hfront]
          omega
        · rw [hpow, decode_append_singleton hfront]
          omega
        · rw [hpow, decode_append_singleton hfront, emod_append_octet _ (by positivity),
            BigEndian.value_append_singleton]
          push_cast
          rw [hvalue]

theorem IsForm.unique {i j : Int} {octets : Octets} (hi : IsForm i octets)
    (hj : IsForm j octets) : i = j := by
  obtain ⟨-, hileast, hibound, hivalue⟩ := hi
  obtain ⟨-, hjleast, hjbound, hjvalue⟩ := hj
  have hmod : i ≡ j [ZMOD 256 ^ octets.length] := hivalue.symm.trans hjvalue
  have hzero : j - i = 0 := Int.eq_zero_of_abs_lt_dvd hmod.dvd (abs_lt.mpr ⟨by omega, by omega⟩)
  omega

theorem isForm_iff {i : Int} {octets : Octets} :
    IsForm i octets ↔ octets ≠ [] ∧ decode octets = i := by
  constructor
  · intro h
    exact ⟨h.ne_nil, (isForm_decode h.ne_nil).unique h⟩
  · rintro ⟨hne, rfl⟩
    exact isForm_decode hne

theorem isForm_encode (i : Int) : IsForm i (encode i) :=
  isForm_iff.mpr ⟨encode_ne_nil i, decode_encode i⟩

theorem length_encode_le_of_isForm {i : Int} {octets : Octets} (h : IsForm i octets) :
    (encode i).length ≤ octets.length := by
  obtain ⟨k, hk⟩ := Nat.exists_eq_succ_of_ne_zero (mt List.length_eq_zero_iff.mp h.ne_nil)
  have hleast := h.least_le
  have hbound := h.lt_bound
  rw [hk, pow_succ'] at hleast hbound
  rw [hk]
  exact length_encode_le (by omega) (by omega)

/-- Every integer has exactly one shortest form, the one that is written for it. -/
theorem isShortestForm_iff {i : Int} {octets : Octets} :
    IsShortestForm i octets ↔ octets = encode i := by
  constructor
  · rintro ⟨hform, hshortest⟩
    have hlen : octets.length = (encode i).length :=
      (hshortest _ (isForm_encode i)).antisymm (length_encode_le_of_isForm hform)
    refine BigEndian.value_inj hlen (Int.ofNat.inj ?_)
    exact hform.value_eq.trans (hlen ▸ (isForm_encode i).value_eq.symm)
  · rintro rfl
    exact ⟨isForm_encode i, fun _ => length_encode_le_of_isForm⟩

end TwosComplement

namespace Builtin

variable {builtin : Builtin} {rules : EncodingRules}

theorem decodeInteger_eq_ok_iff {content : Octets} {i : Integer} :
    decodeInteger content = .ok i ↔ TwosComplement.IsShortestForm i.value content := by
  rw [TwosComplement.isShortestForm_iff]
  constructor
  · intro h
    exact (encode_of_decodeInteger h).symm
  · rintro rfl
    exact decodeInteger_encode i

theorem decodeContent_integer_eq_ok_iff {content : Octets} {value : Value} :
    Builtin.integer.decodeContent rules content = .ok value ↔
      ∃ i : Integer, value = .integer i ∧ TwosComplement.IsShortestForm i.value content := by
  rw [decodeContent, mapError_eq_ok_iff, map_eq_ok_iff]
  simp only [decodeInteger_eq_ok_iff]
  exact exists_congr fun i => and_comm.trans (and_congr_left' eq_comm)

theorem accept_of_isContent {value : Value} {content : Octets}
    (h : IsContent rules builtin value content) : builtin.accept value = .ok () := by
  cases h with
  | text builtin string htext hcheck =>
      rw [accept_text htext, mapError_eq_ok_iff]
      exact checkText_of_restricted hcheck
  | _ => rfl

/-- What is read as a value is written for it, or else stands for a truth value. -/
theorem exists_isContent_of_decodeContent {value : Value} {content : Octets}
    (h : builtin.decodeContent rules content = .ok value) :
    ∃ written, IsContent rules builtin value written ∧
      (rules.isRestricted = true ∨ builtin ≠ .boolean → written = content) := by
  by_cases hexact : rules.isRestricted = true ∨ builtin ≠ .boolean
  · exact ⟨content, isContent_of_decodeContent_of_exact hexact h, fun _ => rfl⟩
  · obtain rfl : builtin = .boolean := by
      by_contra hne
      exact hexact (.inr hne)
    rw [decodeContent, mapError_eq_ok_iff, map_eq_ok_iff] at h
    obtain ⟨b, -, rfl⟩ := h
    exact ⟨_, .boolean b, fun hother => absurd hother hexact⟩

/-- Writing and reading the content of a leaf type undo each other: what is written for a value of
the type is read as that value, and what is read as a value is what is written for it, unless
unrestricted rules have read it as a truth value. The contents of INTEGER are the shortest two's
complement forms of the integers of 128 bits. -/
theorem content_roundTrips (builtin : Builtin) (rules : EncodingRules) :
    (∀ value content, builtin.accept value = .ok () →
      builtin.encodeContent rules value = .ok content →
        builtin.decodeContent rules content = .ok value) ∧
    (∀ value content, builtin.decodeContent rules content = .ok value →
      builtin.accept value = .ok () ∧
        ∃ written, builtin.encodeContent rules value = .ok written ∧
          (rules = .cer ∨ rules = .der ∨ builtin ≠ .boolean → written = content)) ∧
    (∀ content, (∃ value, Builtin.integer.decodeContent rules content = .ok value) ↔
      ∃ i : Integer, TwosComplement.IsShortestForm i.value content) ∧
    ∀ (i : Integer) (content : Octets), TwosComplement.IsShortestForm i.value content →
      Builtin.integer.decodeContent rules content = .ok (.integer i) ∧
        1 ≤ content.length ∧ content.length ≤ 16 := by
  refine ⟨?_, ?_, ?_, ?_⟩
  · intro value content haccept hencode
    exact decodeContent_of_isContent (isContent_of_encodeContent haccept hencode)
  · intro value content hdecode
    obtain ⟨written, hwritten, hexact⟩ := exists_isContent_of_decodeContent hdecode
    refine ⟨accept_of_isContent hwritten, written, encodeContent_of_isContent hwritten, ?_⟩
    rintro (rfl | rfl | hne)
    · exact hexact (.inl rfl)
    · exact hexact (.inl rfl)
    · exact hexact (.inr hne)
  · intro content
    simp only [decodeContent_integer_eq_ok_iff]
    constructor
    · rintro ⟨_, i, -, hform⟩
      exact ⟨i, hform⟩
    · rintro ⟨i, hform⟩
      exact ⟨_, i, rfl, hform⟩
  · intro i content hform
    refine ⟨decodeContent_integer_eq_ok_iff.mpr ⟨i, rfl, hform⟩, ?_, ?_⟩
    · exact List.length_pos_of_ne_nil hform.isForm.ne_nil
    · rw [TwosComplement.isShortestForm_iff.mp hform]
      exact length_encode_le_maxOctets i

/-- The integer 128 needs a second octet for its sign; a BOOLEAN is true under basic rules whichever
bit is set, but only one octet is written for it. -/
theorem content_roundTrips_signOctet_and_truth :
    Builtin.integer.accept (.integer ⟨128, by decide, by decide⟩) = .ok () ∧
      Builtin.integer.encodeContent .der (.integer ⟨128, by decide, by decide⟩) = .ok [0, 128] ∧
      Builtin.integer.decodeContent .der [0, 128] = .ok (.integer ⟨128, by decide, by decide⟩) ∧
      Builtin.boolean.decodeContent .ber [1] = .ok (.boolean true) ∧
      Builtin.boolean.accept (.boolean true) = .ok () ∧
      ∃ written, Builtin.boolean.encodeContent .ber (.boolean true) = .ok written := by
  have hdecode : Builtin.integer.decodeContent .der [0, 128] =
      .ok (.integer ⟨128, by decide, by decide⟩) := rfl
  have htruth : Builtin.boolean.decodeContent .ber [1] = .ok (.boolean true) := rfl
  obtain ⟨hwrite, hread, -, -⟩ := content_roundTrips .integer .der
  obtain ⟨haccept, written, hwritten, hexact⟩ := hread _ _ hdecode
  obtain rfl := hexact (.inr (.inl rfl))
  obtain ⟨-, hreadTruth, -, -⟩ := content_roundTrips .boolean .ber
  obtain ⟨hacceptTruth, octets, hoctets, -⟩ := hreadTruth _ _ htruth
  exact ⟨haccept, hwritten, hwrite _ _ haccept hwritten, htruth, hacceptTruth, octets, hoctets⟩

end Builtin

end Asn1

import Mathlib.Data.List.Induction
import Mathlib.Tactic.Ring
import Asn1.Octets.Base128
import Asn1.Octets.BigEndian

namespace Asn1

theorem ofNat_eq_octet (octet : UInt8) (n : Nat) (h : octet.toNat = n % 256) :
    UInt8.ofNat n = octet := by
  apply UInt8.toNat_inj.mp
  rw [UInt8.toNat_ofNat', h]

namespace Base128

/-- The number whose groups are given, most significant group first. -/
def value (groups : Octets) : Nat :=
  groups.foldl extend 0

@[simp]
theorem value_append_singleton (groups : Octets) (octet : UInt8) :
    value (groups ++ [octet]) = value groups * 128 + octet.toNat % 128 := by
  simp [value, extend]

/-- Groups before the last one: each has the high bit, and the first one is not empty. -/
def IsLeading (groups : Octets) : Prop :=
  (∀ octet ∈ groups, isLast octet = false) ∧ groups.head? ≠ some 128

/-- The groups of one number: the last one is the only one without the high bit. -/
def IsComplete (groups : Octets) : Prop :=
  ∃ front last, groups = front ++ [last] ∧ (∀ octet ∈ front, isLast octet = false) ∧
    isLast last = true

theorem not_isComplete_nil : ¬IsComplete [] := by
  rintro ⟨front, last, h, -⟩
  simp at h

theorem isComplete_cons_iff {octet : UInt8} {groups : Octets} :
    IsComplete (octet :: groups) ↔
      isLast octet = true ∧ groups = [] ∨ isLast octet = false ∧ IsComplete groups := by
  constructor
  · rintro ⟨front, last, h, hfront, hlast⟩
    rcases front with _ | ⟨first, front⟩
    · obtain ⟨rfl, rfl⟩ : octet = last ∧ groups = [] := by simpa using h
      exact .inl ⟨hlast, rfl⟩
    · obtain ⟨rfl, rfl⟩ : octet = first ∧ groups = front ++ [last] := by simpa using h
      exact .inr ⟨hfront octet (by simp), front, last, rfl, fun o ho => hfront o (by simp [ho]),
        hlast⟩
  · rintro (⟨hlast, rfl⟩ | ⟨hoctet, front, last, rfl, hfront, hlast⟩)
    · exact ⟨[], octet, rfl, by simp, hlast⟩
    · refine ⟨octet :: front, last, rfl, ?_, hlast⟩
      intro o ho
      rcases List.mem_cons.mp ho with rfl | ho
      · exact hoctet
      · exact hfront o ho

theorem isLast_eq_false_iff {octet : UInt8} : isLast octet = false ↔ 128 ≤ octet.toNat := by
  simp [isLast, UInt8.lt_iff_toNat_lt]

theorem isLast_eq_true_iff {octet : UInt8} : isLast octet = true ↔ octet.toNat < 128 := by
  simp [isLast, UInt8.lt_iff_toNat_lt]

theorem toNat_ofNat_last (n : Nat) : (UInt8.ofNat (n % 128)).toNat = n % 128 := by
  rw [UInt8.toNat_ofNat']
  omega

theorem toNat_ofNat_leading (n : Nat) : (UInt8.ofNat (n % 128 + 128)).toNat = n % 128 + 128 := by
  rw [UInt8.toNat_ofNat']
  omega

theorem leading_zero : leading 0 = [] := by
  rw [leading]
  rfl

theorem leading_of_ne_zero {n : Nat} (h : n ≠ 0) :
    leading n = leading (n / 128) ++ [UInt8.ofNat (n % 128 + 128)] := by
  conv_lhs => rw [leading]
  rw [if_neg h]

@[simp]
theorem value_leading (n : Nat) : value (leading n) = n := by
  induction n using Nat.strongRecOn with
  | ind n ih =>
      by_cases hn : n = 0
      · subst hn
        simp [leading_zero, value]
      · rw [leading_of_ne_zero hn, value_append_singleton, ih (n / 128) (by omega),
          toNat_ofNat_leading]
        omega

theorem leading_eq_nil_iff {n : Nat} : leading n = [] ↔ n = 0 := by
  constructor
  · intro h
    have hvalue := value_leading n
    simpa [h, value, eq_comm] using hvalue
  · rintro rfl
    exact leading_zero

theorem isLeading_leading (n : Nat) : IsLeading (leading n) := by
  induction n using Nat.strongRecOn with
  | ind n ih =>
      by_cases hn : n = 0
      · subst hn
        simp [leading_zero, IsLeading]
      · obtain ⟨hhigh, hhead⟩ := ih (n / 128) (by omega)
        rw [leading_of_ne_zero hn]
        constructor
        · intro octet hoctet
          rcases List.mem_append.mp hoctet with hfront | hlast
          · exact hhigh octet hfront
          · rw [List.mem_singleton.mp hlast, isLast_eq_false_iff, toNat_ofNat_leading]
            omega
        · -- The first group is the new one only if the number is below 128, and then not zero.
          rcases hfront : leading (n / 128) with _ | ⟨first, front⟩
          · have hsmall : n / 128 = 0 := leading_eq_nil_iff.mp hfront
            intro h
            have heq : UInt8.ofNat (n % 128 + 128) = 128 := by simpa using h
            have := congrArg UInt8.toNat heq
            rw [toNat_ofNat_leading] at this
            change n % 128 + 128 = 128 at this
            omega
          · simpa [hfront] using hhead

theorem value_pos_of_isLeading {groups : Octets} (h : IsLeading groups) (hne : groups ≠ []) :
    0 < value groups := by
  induction groups using List.reverseRecOn with
  | nil => exact absurd rfl hne
  | append_singleton front octet ih =>
      rw [value_append_singleton]
      by_cases hfront : front = []
      · subst hfront
        have hhigh := isLast_eq_false_iff.mp (h.1 octet (by simp))
        have hoctet : octet.toNat ≠ 128 := by
          intro heq
          have : octet = 128 := UInt8.toNat_inj.mp heq
          exact h.2 (by simp [this])
        have := UInt8.toNat_lt octet
        omega
      · have hlead : IsLeading front := by
          refine ⟨fun o ho => h.1 o (by simp [ho]), ?_⟩
          rcases front with _ | ⟨first, rest⟩
          · exact absurd rfl hfront
          · simpa using h.2
        have := ih hlead hfront
        omega

theorem leading_value {groups : Octets} (h : IsLeading groups) :
    leading (value groups) = groups := by
  induction groups using List.reverseRecOn with
  | nil => exact leading_zero
  | append_singleton front octet ih =>
      have hhigh := isLast_eq_false_iff.mp (h.1 octet (by simp))
      have hlt := UInt8.toNat_lt octet
      have hlead : IsLeading front := by
        refine ⟨fun o ho => h.1 o (by simp [ho]), ?_⟩
        rcases front with _ | ⟨first, rest⟩
        · simp
        · simpa using h.2
      have hpos := value_pos_of_isLeading h (by simp)
      rw [value_append_singleton] at hpos ⊢
      rw [leading_of_ne_zero (by omega)]
      rw [show (value front * 128 + octet.toNat % 128) / 128 = value front by omega, ih hlead]
      rw [ofNat_eq_octet octet _ (by omega)]

@[simp]
theorem value_encode (n : Nat) : value (encode n) = n := by
  rw [encode, value_append_singleton, value_leading, toNat_ofNat_last]
  omega

theorem isLast_ofNat (n : Nat) : isLast (UInt8.ofNat (n % 128)) = true := by
  rw [isLast_eq_true_iff, toNat_ofNat_last]
  omega

theorem isComplete_encode (n : Nat) : IsComplete (encode n) :=
  ⟨leading (n / 128), UInt8.ofNat (n % 128), rfl, (isLeading_leading _).1, isLast_ofNat n⟩

theorem head?_encode_ne (n : Nat) : (encode n).head? ≠ some 128 := by
  have hlead := (isLeading_leading (n / 128)).2
  rw [encode]
  rcases hfront : leading (n / 128) with _ | ⟨first, front⟩
  · intro h
    have heq : UInt8.ofNat (n % 128) = 128 := by simpa using h
    have hlast := isLast_ofNat n
    rw [heq] at hlast
    exact absurd hlast (by decide)
  · simpa [hfront] using hlead

theorem encode_value {groups : Octets} (h : IsComplete groups) (hhead : groups.head? ≠ some 128) :
    encode (value groups) = groups := by
  obtain ⟨front, last, rfl, hhigh, hlast⟩ := h
  have hlt := isLast_eq_true_iff.mp hlast
  have hfront : IsLeading front := by
    refine ⟨hhigh, ?_⟩
    rcases front with _ | ⟨first, rest⟩
    · simp
    · simpa using hhead
  rw [encode, value_append_singleton]
  rw [show (value front * 128 + last.toNat % 128) / 128 = value front by omega]
  rw [leading_value hfront, ofNat_eq_octet last _ (by omega)]

theorem length_leading_le {n k : Nat} (h : n < 128 ^ k) : (leading n).length ≤ k := by
  induction k generalizing n with
  | zero =>
      have : n = 0 := by simpa using h
      simp [this, leading_zero]
  | succ k ih =>
      by_cases hn : n = 0
      · simp [hn, leading_zero]
      · rw [leading_of_ne_zero hn]
        have hdiv : n / 128 < 128 ^ k := by
          rw [Nat.div_lt_iff_lt_mul (by decide)]
          simpa [Nat.pow_succ] using h
        have := ih hdiv
        simpa using this

theorem length_encode_le {n k : Nat} (h : n < 128 ^ (k + 1)) : (encode n).length ≤ k + 1 := by
  have hdiv : n / 128 < 128 ^ k := by
    rw [Nat.div_lt_iff_lt_mul (by decide)]
    simpa [Nat.pow_succ] using h
  have := length_leading_le hdiv
  simpa [encode] using this

end Base128

namespace BigEndian

/-- The number whose octets are given, most significant octet first. -/
def value (octets : Octets) : Nat :=
  octets.foldl (fun n octet => n * 256 + octet.toNat) 0

@[simp]
theorem value_append_singleton (octets : Octets) (octet : UInt8) :
    value (octets ++ [octet]) = value octets * 256 + octet.toNat := by
  simp [value]

theorem encode_zero : encode 0 = [] := by
  rw [encode]
  rfl

theorem encode_of_ne_zero {n : Nat} (h : n ≠ 0) :
    encode n = encode (n / 256) ++ [UInt8.ofNat (n % 256)] := by
  conv_lhs => rw [encode]
  rw [if_neg h]

@[simp]
theorem value_encode (n : Nat) : value (encode n) = n := by
  induction n using Nat.strongRecOn with
  | ind n ih =>
      by_cases hn : n = 0
      · subst hn
        simp [encode_zero, value]
      · rw [encode_of_ne_zero hn, value_append_singleton, ih (n / 256) (by omega),
          UInt8.toNat_ofNat']
        omega

theorem head?_encode_ne_zero (n : Nat) : (encode n).head? ≠ some 0 := by
  induction n using Nat.strongRecOn with
  | ind n ih =>
      by_cases hn : n = 0
      · subst hn
        simp [encode_zero]
      · rw [encode_of_ne_zero hn]
        have hfront := ih (n / 256) (by omega)
        rcases heq : encode (n / 256) with _ | ⟨first, front⟩
        · have hsmall : n / 256 = 0 := by
            have hvalue := value_encode (n / 256)
            simpa [heq, value, eq_comm] using hvalue
          intro h
          have hzero : UInt8.ofNat (n % 256) = 0 := by simpa using h
          have := congrArg UInt8.toNat hzero
          rw [UInt8.toNat_ofNat'] at this
          change n % 256 % 256 = 0 at this
          omega
        · simpa [heq] using hfront

theorem value_pos {octets : Octets} (hne : octets ≠ []) (hhead : octets.head? ≠ some 0) :
    0 < value octets := by
  induction octets using List.reverseRecOn with
  | nil => exact absurd rfl hne
  | append_singleton front octet ih =>
      rw [value_append_singleton]
      rcases front with _ | ⟨first, rest⟩
      · have hoctet : octet.toNat ≠ 0 := by
          intro heq
          have : octet = 0 := UInt8.toNat_inj.mp heq
          exact hhead (by simp [this])
        omega
      · have := ih (by simp) (by simpa using hhead)
        omega

theorem encode_value {octets : Octets} (hhead : octets.head? ≠ some 0) :
    encode (value octets) = octets := by
  induction octets using List.reverseRecOn with
  | nil => exact encode_zero
  | append_singleton front octet ih =>
      have hlt := UInt8.toNat_lt octet
      have hpos := value_pos (by simp) hhead
      have hfront : front.head? ≠ some 0 := by
        rcases front with _ | ⟨first, rest⟩
        · simp
        · simpa using hhead
      rw [value_append_singleton] at hpos ⊢
      rw [encode_of_ne_zero (by omega)]
      rw [show (value front * 256 + octet.toNat) / 256 = value front by omega, ih hfront]
      rw [ofNat_eq_octet octet _ (by omega)]

theorem length_encode_le {n k : Nat} (h : n < 256 ^ k) : (encode n).length ≤ k := by
  induction k generalizing n with
  | zero =>
      have : n = 0 := by simpa using h
      simp [this, encode_zero]
  | succ k ih =>
      by_cases hn : n = 0
      · simp [hn, encode_zero]
      · rw [encode_of_ne_zero hn]
        have hdiv : n / 256 < 256 ^ k := by
          rw [Nat.div_lt_iff_lt_mul (by decide)]
          simpa [Nat.pow_succ] using h
        have := ih hdiv
        simpa using this

theorem value_lt (octets : Octets) : value octets < 256 ^ octets.length := by
  induction octets using List.reverseRecOn with
  | nil => simp [value]
  | append_singleton front octet ih =>
      have hoctet := octet.toNat_lt
      rw [value_append_singleton, List.length_append, List.length_singleton, pow_succ]
      omega

theorem value_inj {octets others : Octets} (hlen : octets.length = others.length)
    (h : value octets = value others) : octets = others := by
  induction octets using List.reverseRecOn generalizing others with
  | nil => simpa using hlen.symm
  | append_singleton front octet ih =>
      rcases others.eq_nil_or_concat with rfl | ⟨otherFront, other, rfl⟩
      · simp at hlen
      · have hoctet := octet.toNat_lt
        have hother := other.toNat_lt
        rw [List.concat_eq_append, value_append_singleton, value_append_singleton] at h
        have hfront : front = otherFront := ih (by simpa using hlen) (by omega)
        have hlast : octet = other := UInt8.toNat_inj.mp (by omega)
        rw [hfront, hlast, List.concat_eq_append]

end BigEndian

namespace TwosComplement

theorem toNat_lowOctet (i : Int) : ((lowOctet i).toNat : Int) = i % 256 := by
  have hnonneg : 0 ≤ i % 256 := Int.emod_nonneg _ (by decide)
  have hlt : i % 256 < 256 := Int.emod_lt_of_pos _ (by decide)
  rw [lowOctet, UInt8.toNat_ofNat']
  omega

theorem lowOctet_eq {i : Int} (octet : UInt8) (h : i % 256 = octet.toNat) : lowOctet i = octet := by
  apply UInt8.toNat_inj.mp
  have := toNat_lowOctet i
  omega

theorem encode_ne_nil (i : Int) : encode i ≠ [] := by
  rw [encode]
  split <;> simp

theorem decode_singleton (octet : UInt8) :
    decode [octet] = if 128 ≤ octet.toNat then (octet.toNat : Int) - 256 else octet.toNat := by
  have hlt := UInt8.toNat_lt octet
  by_cases h : 128 ≤ octet.toNat
  · have hneg : isNegative octet = true := by simp [isNegative, UInt8.le_iff_toNat_le, h]
    simp [decode, hneg, h]
    omega
  · have hneg : isNegative octet = false := by
      simpa [isNegative, UInt8.le_iff_toNat_le] using h
    simp [decode, hneg, h]

theorem decode_append_singleton {octets : Octets} (hne : octets ≠ []) (octet : UInt8) :
    decode (octets ++ [octet]) = decode octets * 256 + octet.toNat := by
  rcases octets with _ | ⟨first, rest⟩
  · exact absurd rfl hne
  · rw [decode, decode, List.foldl_append]
    rfl

@[simp]
theorem decode_encode (i : Int) : decode (encode i) = i := by
  induction hn : i.natAbs using Nat.strongRecOn generalizing i with
  | ind n ih =>
      have hlow := toNat_lowOctet i
      rw [encode]
      split
      · rw [decode_singleton]
        split <;> omega
      · rw [decode_append_singleton (encode_ne_nil _), ih (i / 256).natAbs (by omega) _ rfl]
        omega

theorem isPadded_encode (i : Int) : isPadded (encode i) = false := by
  induction hn : i.natAbs using Nat.strongRecOn generalizing i with
  | ind n ih =>
      rw [encode]
      split
      · rfl
      · have hfront := ih (i / 256).natAbs (by omega) (i / 256) rfl
        have hlow := toNat_lowOctet i
        rcases heq : encode (i / 256) with _ | ⟨first, _ | ⟨second, rest⟩⟩
        · exact absurd heq (encode_ne_nil _)
        · -- A single octet holds the front, and its sign is not that of the last octet.
          have hvalue : decode [first] = i / 256 := by rw [← heq, decode_encode]
          rw [decode_singleton] at hvalue
          have hneg : isNegative (lowOctet i) = decide (128 ≤ (lowOctet i).toNat) := by
            simp [isNegative, UInt8.le_iff_toNat_le]
          have hzero : (first == 0) = decide (first.toNat = 0) := by
            rw [Bool.eq_iff_iff]
            simp [← UInt8.toNat_inj]
          have hfull : (first == 255) = decide (first.toNat = 255) := by
            rw [Bool.eq_iff_iff]
            simp [← UInt8.toNat_inj]
          simp only [List.singleton_append, isPadded, hneg, hzero, hfull]
          split at hvalue <;> simp <;> omega
        · simpa [heq, isPadded] using hfront

/-- Integers that do not fit into one octet are exactly those of more octets. -/
theorem decode_outside_of_not_isPadded {octets : Octets} (hlen : 2 ≤ octets.length)
    (h : isPadded octets = false) : ¬(-128 ≤ decode octets ∧ decode octets < 128) := by
  induction octets using List.reverseRecOn with
  | nil => simp at hlen
  | append_singleton front octet ih =>
      have hlt := UInt8.toNat_lt octet
      rcases front with _ | ⟨first, _ | ⟨second, rest⟩⟩
      · simp at hlen
      · have hneg : isNegative octet = decide (128 ≤ octet.toNat) := by
          simp [isNegative, UInt8.le_iff_toNat_le]
        have hzero : (first == 0) = decide (first.toNat = 0) := by
          rw [Bool.eq_iff_iff]
          simp [← UInt8.toNat_inj]
        have hfull : (first == 255) = decide (first.toNat = 255) := by
          rw [Bool.eq_iff_iff]
          simp [← UInt8.toNat_inj]
        have hfirst := UInt8.toNat_lt first
        simp only [List.singleton_append, isPadded, hneg, hzero, hfull] at h
        simp at h
        rw [decode_append_singleton (by simp), decode_singleton]
        split <;> omega
      · have hfront : isPadded (first :: second :: rest) = false := by
          simpa [isPadded] using h
        have := ih (by simp) hfront
        rw [decode_append_singleton (by simp)]
        omega

theorem encode_decode {octets : Octets} (hne : octets ≠ []) (h : isPadded octets = false) :
    encode (decode octets) = octets := by
  induction octets using List.reverseRecOn with
  | nil => exact absurd rfl hne
  | append_singleton front octet ih =>
      have hlt := UInt8.toNat_lt octet
      by_cases hfront : front = []
      · subst hfront
        rw [List.nil_append, decode_singleton, encode]
        split
        · rw [if_pos (by omega), lowOctet_eq octet (by omega)]
        · rw [if_pos (by omega), lowOctet_eq octet (by omega)]
      · have hlen : 1 ≤ front.length := by
          cases front with
          | nil => exact absurd rfl hfront
          | cons => simp
        have houtside := decode_outside_of_not_isPadded (by simpa using hlen) h
        have hpadded : isPadded front = false := by
          rcases front with _ | ⟨first, _ | ⟨second, rest⟩⟩
          · rfl
          · rfl
          · simpa [isPadded] using h
        rw [encode, if_neg houtside]
        rw [decode_append_singleton hfront]
        rw [show (decode front * 256 + (octet.toNat : Int)) / 256 = decode front by omega]
        rw [ih hfront hpadded, lowOctet_eq octet (by omega)]

theorem length_encode_le {i : Int} {k : Nat} (hleast : -(128 * 256 ^ k) ≤ i)
    (hbound : i < 128 * 256 ^ k) : (encode i).length ≤ k + 1 := by
  induction k generalizing i with
  | zero =>
      rw [encode, if_pos (by simpa using ⟨hleast, hbound⟩)]
      simp
  | succ k ih =>
      rw [encode]
      split
      · simp
      · rw [pow_succ] at hleast hbound
        have := ih (i := i / 256) (by omega) (by omega)
        simpa using this

end TwosComplement

end Asn1

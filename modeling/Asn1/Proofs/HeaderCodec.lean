import Asn1.Proofs.HeaderForms
import Mathlib.Data.Nat.Log

namespace Asn1

open Read Source

namespace Identifier

/-- The two high bits of the first octet in their place. -/
def classOctet : TagClass → UInt8
  | .universal => 0x00
  | .application => 0x40
  | .context => 0x80
  | .privateUse => 0xC0

/-- The lowest group of a number, as the octet that ends its form. -/
def lastGroup (number : UInt32) : UInt8 :=
  (number &&& 0x7F).toUInt8

/-- The lowest group of a number, as an octet that more octets follow. -/
def nextGroup (number : UInt32) : UInt8 :=
  ((number &&& 0x7F) ||| 0x80).toUInt8

/-- The six forms of an identifier, from one octet to six: seven bits at a time are shifted off the
number until nothing is left of it. -/
def shiftedOctets (identifier : Identifier) : Octets :=
  let first := classOctet identifier.tag.tagClass ||| (if identifier.constructed then 0x20 else 0)
  let number := identifier.tag.number
  if number ≤ 0x1E then [first ||| number.toUInt8]
  else
    let first := first ||| 0x1F
    let n₀ := lastGroup number
    let number := number >>> 7
    if number = 0 then [first, n₀]
    else
      let n₁ := nextGroup number
      let number := number >>> 7
      if number = 0 then [first, n₁, n₀]
      else
        let n₂ := nextGroup number
        let number := number >>> 7
        if number = 0 then [first, n₂, n₁, n₀]
        else
          let n₃ := nextGroup number
          let number := number >>> 7
          if number = 0 then [first, n₃, n₂, n₁, n₀]
          else [first, nextGroup number, n₃, n₂, n₁, n₀]

/-- The number of octets of an identifier. -/
def encodedLen (identifier : Identifier) : Nat :=
  identifier.shiftedOctets.length

theorem toNat_shiftRight_seven (number : UInt32) : (number >>> 7).toNat = number.toNat / 128 := by
  simp [Nat.shiftRight_eq_div_pow]

theorem shiftRight_seven_eq_zero_iff {number : UInt32} :
    number >>> 7 = 0 ↔ number.toNat / 128 = 0 := by
  rw [← UInt32.toNat_inj, toNat_shiftRight_seven]
  rfl

theorem lastGroup_eq (number : UInt32) : lastGroup number = UInt8.ofNat (number.toNat % 128) := by
  apply UInt8.toNat_inj.mp
  rw [lastGroup, UInt32.toNat_toUInt8, UInt32.toNat_and, UInt8.toNat_ofNat']
  exact congrArg (· % 256) (Nat.and_two_pow_sub_one_eq_mod number.toNat 7)

theorem nextGroup_eq (number : UInt32) :
    nextGroup number = UInt8.ofNat (number.toNat % 128 + 128) := by
  apply UInt8.toNat_inj.mp
  rw [nextGroup, UInt32.toNat_toUInt8, UInt32.toNat_or, UInt32.toNat_and, UInt8.toNat_ofNat']
  have hmask : number.toNat &&& (0x7F : UInt32).toNat = number.toNat % 128 :=
    Nat.and_two_pow_sub_one_eq_mod number.toNat 7
  have hflag : number.toNat % 128 ||| (0x80 : UInt32).toNat = 128 + number.toNat % 128 := by
    rw [Nat.or_comm]
    exact (Nat.two_pow_add_eq_or_of_lt (i := 7) (Nat.mod_lt _ (by decide)) 1).symm
  rw [hmask, hflag, Nat.add_comm]

theorem firstOctet_eq_or (identifier : Identifier) {low : UInt8} (h : low.toNat < 32) :
    classOctet identifier.tag.tagClass ||| (if identifier.constructed then 0x20 else 0) ||| low =
      identifier.firstOctet low.toNat := by
  have hall : ∀ (tagClass : TagClass) (constructed : Bool) (low : Fin 32),
      classOctet tagClass ||| (if constructed then 0x20 else 0) ||| UInt8.ofNat low.val =
        UInt8.ofNat (tagClass.bits * 64 + (if constructed then 32 else 0) + low.val) := by
    intro tagClass
    cases tagClass <;> decide
  have hlow := hall identifier.tag.tagClass identifier.constructed ⟨low.toNat, h⟩
  rwa [UInt8.ofNat_toNat] at hlow

/-- The shifted forms are the group forms of 32-bit numbers: after four shifts no more than one
group is left. -/
theorem shiftedOctets_eq (identifier : Identifier) :
    identifier.shiftedOctets = identifier.octets := by
  have hbound := identifier.tag.number.toNat_lt
  have hfirst : classOctet identifier.tag.tagClass |||
      (if identifier.constructed then 0x20 else 0) ||| 0x1F = identifier.firstOctet 31 :=
    firstOctet_eq_or identifier (show (0x1F : UInt8).toNat < 32 by decide)
  have hsmall : identifier.tag.number ≤ 0x1E ↔ identifier.tag.number.toNat < 31 := by
    rw [UInt32.le_iff_toNat_le]
    exact Nat.lt_succ_iff.symm
  rw [shiftedOctets, octets]
  simp only [hsmall, hfirst, lastGroup_eq, nextGroup_eq, shiftRight_seven_eq_zero_iff,
    toNat_shiftRight_seven]
  split
  · next h =>
    have hlow : identifier.tag.number.toUInt8.toNat = identifier.tag.number.toNat := by
      rw [UInt32.toNat_toUInt8]
      omega
    rw [firstOctet_eq_or identifier (by omega), hlow]
  · rw [Base128.encode]
    split
    · next h => rw [h, Base128.leading_zero, List.nil_append]
    · next h =>
      rw [Base128.leading_of_ne_zero h]
      split
      · next h => rw [h, Base128.leading_zero, List.nil_append, List.singleton_append]
      · next h =>
        rw [Base128.leading_of_ne_zero h]
        split
        · next h => simp [h, Base128.leading_zero]
        · next h =>
          rw [Base128.leading_of_ne_zero h]
          split
          · next h => simp [h, Base128.leading_zero]
          · next h =>
            have hlast : identifier.tag.number.toNat / 128 / 128 / 128 / 128 / 128 = 0 := by omega
            simp [Base128.leading_of_ne_zero h, hlast, Base128.leading_zero]

@[simp]
theorem length_octets (identifier : Identifier) :
    identifier.octets.length = identifier.encodedLen := by
  rw [encodedLen, shiftedOctets_eq]

end Identifier

namespace BigEndian

theorem length_encode {n : Nat} (h : n ≠ 0) : (encode n).length = Nat.log2 n / 8 + 1 := by
  have hpow (k : Nat) : (256 : Nat) ^ k = 2 ^ (8 * k) := by rw [Nat.pow_mul]
  apply Nat.le_antisymm
  · apply length_encode_le
    rw [hpow]
    exact (Nat.log2_lt h).mp (by omega)
  · have hlt := value_lt (encode n)
    rw [value_encode, hpow, ← Nat.log2_lt h] at hlt
    omega

theorem value_append (octets others : Octets) :
    value (octets ++ others) = value octets * 256 ^ others.length + value others := by
  induction others using List.reverseRecOn with
  | nil => simp [value]
  | append_singleton front octet ih =>
      rw [← List.append_assoc, value_append_singleton, value_append_singleton, ih,
        List.length_append, List.length_singleton, pow_succ]
      ring

@[simp]
theorem value_replicate_append (zeros : Nat) (octets : Octets) :
    value (List.replicate zeros 0 ++ octets) = value octets := by
  have hzero : value (List.replicate zeros 0) = 0 := by
    induction zeros with
    | zero => rfl
    | succ zeros ih =>
        rw [List.replicate_succ', value_append_singleton, ih]
        rfl
  rw [value_append, hzero, Nat.zero_mul, Nat.zero_add]

end BigEndian

namespace Length

/-- The number of bits of a 64-bit size, which is not zero, that stand before its first one. -/
def leadingZeros (size : Nat) : Nat :=
  63 - Nat.log2 size

/-- The number of octets of a length: the eight octets of a size of at least 128 are counted from
the first one that is not zero. -/
def encodedLen : Length → Nat
  | definite size => if 0x7F < size then 8 - leadingZeros size / 8 + 1 else 1
  | indefinite => 1

theorem length_octets {length : Length}
    (h : ∀ size, length = definite size → size < sizeBound) :
    length.octets.length = length.encodedLen := by
  cases length with
  | indefinite => rfl
  | definite size =>
      rw [octets, encodedLen]
      split
      · rw [if_neg (by omega), List.length_singleton]
      · next hlarge =>
        have hlog : Nat.log2 size < 64 := (Nat.log2_lt (by omega)).mpr (h size rfl)
        rw [if_pos (by omega), List.length_cons, BigEndian.length_encode (by omega), leadingZeros]
        omega

theorem length_octets_le_of_isForm {rules : EncodingRules} {octets : Octets} {length : Length}
    (h : IsForm rules octets length) : length.octets.length ≤ octets.length := by
  cases length with
  | indefinite => exact (congrArg List.length h).ge
  | definite size =>
      rw [Length.octets]
      rcases h with ⟨rfl, hsize⟩ | ⟨digits, rfl, hne, -, rfl, -, -⟩
      · rw [if_pos hsize]
      · split
        · simp
        · simpa using BigEndian.length_encode_le (BigEndian.value_lt digits)

/-- The long form of a size: the number of octets that follow, and these octets, any number of which
are zeros in front. -/
def longForm (zeros : Nat) (digits : Octets) : Octets :=
  UInt8.ofNat (128 + (zeros + digits.length)) :: (List.replicate zeros 0 ++ digits)

theorem longForm_eq (zeros : Nat) (digits : Octets) :
    longForm zeros digits = UInt8.ofNat (128 + (List.replicate zeros 0 ++ digits).length) ::
      (List.replicate zeros 0 ++ digits) := by
  simp [longForm]

theorem toNat_countOctet {count : Nat} (h : count < 127) :
    (UInt8.ofNat (128 + count)).toNat = 128 + count := by
  rw [UInt8.toNat_ofNat']
  omega

theorem eq_counted_of_isForm {rules : EncodingRules} {c digits after rest : Octets}
    {length : Length}
    (hne : digits ≠ []) (hlt : digits.length < 127) (h : IsForm rules c length)
    (heq : c ++ after = UInt8.ofNat (128 + digits.length) :: (digits ++ rest)) :
    c = UInt8.ofNat (128 + digits.length) :: digits := by
  have hpos : 0 < digits.length := List.length_pos_iff.mpr hne
  have hcount := toNat_countOctet hlt
  have hfirst (octet : UInt8) (h : octet.toNat ≤ 128) :
      octet ≠ UInt8.ofNat (128 + digits.length) := by
    rintro rfl
    omega
  cases length with
  | indefinite =>
      obtain rfl := h
      exact absurd (List.cons_eq_cons.mp heq).1 (hfirst 128 (by decide))
  | definite size =>
      rcases h with ⟨rfl, hsize⟩ | ⟨others, rfl, -, hothers, -, -, -⟩
      · refine absurd (List.cons_eq_cons.mp heq).1 (hfirst _ ?_)
        rw [UInt8.toNat_ofNat']
        omega
      · obtain ⟨hhead, htail⟩ := List.cons_eq_cons.mp heq
        have hlen : others.length = digits.length := by
          have := congrArg UInt8.toNat hhead
          rw [toNat_countOctet hothers, hcount] at this
          omega
        rw [(List.append_inj htail hlen).1]

theorem isForm_counted_iff {digits : Octets} (hne : digits ≠ []) (hlt : digits.length < 127)
    {length : Length} :
    IsForm .ber (UInt8.ofNat (128 + digits.length) :: digits) length ↔
      BigEndian.value digits < sizeBound ∧ length = definite (BigEndian.value digits) := by
  have hcount := toNat_countOctet hlt
  have hpos : 0 < digits.length := List.length_pos_iff.mpr hne
  constructor
  · intro h
    cases length with
    | indefinite => exact absurd (List.cons_eq_cons.mp h).2 hne
    | definite size =>
        rcases h with ⟨hsingle, -⟩ | ⟨others, heq, -, -, hvalue, hbound, -⟩
        · exact absurd (List.cons_eq_cons.mp hsingle).2 hne
        · obtain rfl := (List.cons_eq_cons.mp heq).2
          exact ⟨hvalue ▸ hbound, hvalue ▸ rfl⟩
  · rintro ⟨hbound, rfl⟩
    exact .inr ⟨digits, rfl, hne, hlt, rfl, hbound, by simp [EncodingRules.isRestricted]⟩

/-- The basic rules accept a long form with any number of leading zeros exactly if the number that
it holds is one of 64 bits, and read that number. -/
theorem outcome_read_longForm_iff {zeros : Nat} {digits rest : Octets}
    (hpos : 0 < zeros + digits.length) (hlt : zeros + digits.length < 127) {position : Nat}
    {length : Length} {source : Source} :
    (read .ber).outcome (ofOctets (longForm zeros digits ++ rest) position) =
        (.ok length, source) ↔
      BigEndian.value digits < 2 ^ 64 ∧ length = definite (BigEndian.value digits) ∧
        source = ofOctets rest (position + (longForm zeros digits).length) := by
  have hlen : (List.replicate zeros (0 : UInt8) ++ digits).length = zeros + digits.length := by simp
  have hne : List.replicate zeros (0 : UInt8) ++ digits ≠ [] :=
    List.ne_nil_of_length_pos (hlen ▸ hpos)
  have hiff : _ ↔ _ ∧ length = _ := isForm_counted_iff hne (hlen ▸ hlt)
  rw [← longForm_eq, BigEndian.value_replicate_append] at hiff
  constructor
  · intro h
    obtain ⟨c, after, heq, rfl, hreads⟩ := isLocal_read .ber _ _ _ _ h
    have hform := reads_read_iff.mp hreads
    rw [longForm_eq, List.cons_append] at heq
    obtain rfl := (eq_counted_of_isForm hne (hlen ▸ hlt) hform heq.symm).trans
      (longForm_eq zeros digits).symm
    rw [← List.cons_append, ← longForm_eq] at heq
    obtain ⟨hbound, hlength⟩ := hiff.mp hform
    exact ⟨hbound, hlength, by rw [List.append_cancel_left heq]⟩
  · rintro ⟨hbound, hlength, rfl⟩
    exact reads_read_iff.mpr (hiff.mpr ⟨hbound, hlength⟩) rest

end Length

namespace Header

/-- Whether a header may have a length under the rules: the size is one of 64 bits, the
end-of-contents marker has no content, indefinite length is for constructed values, and each of the
restricted rules leaves these only one of the two kinds of length. -/
def Allows (rules : EncodingRules) (identifier : Identifier) : Length → Prop
  | .definite size =>
    size < 2 ^ 64 ∧ (identifier = .endOfContents → size = 0) ∧
      (identifier.constructed = true → rules ≠ .cer)
  | .indefinite => identifier.constructed = true ∧ rules ≠ .der

theorem allows_definite_iff {rules : EncodingRules} {identifier : Identifier}
    {size position : Nat} :
    Allows rules identifier (.definite size) ↔
      (⟨identifier, .definite size, position⟩ : Header).fault? rules = none ∧
        size < Length.sizeBound := by
  have hrules : rules.allowsDefiniteConstructed = true ↔ rules ≠ .cer := by cases rules <;> decide
  constructor
  · rintro ⟨hsize, hmark, hcer⟩
    refine ⟨?_, hsize⟩
    obtain ⟨tag, constructed⟩ := identifier
    cases constructed with
    | true => exact fault?_constructed_definite (hrules.mpr (hcer rfl)) tag size position
    | false =>
        by_cases htag : tag = Tag.universal 0
        · subst htag
          rw [hmark rfl]
          rfl
        · exact fault?_primitive htag size position
  · rintro ⟨hfault, hsize⟩
    refine ⟨hsize, ?_, fun hconstructed => ?_⟩
    · rintro rfl
      exact Length.definite.inj (eq_endOfContents hfault rfl).2
    · exact hrules.mp (allowsDefinite_of_fault? hfault rfl hconstructed)

theorem allows_indefinite_iff {rules : EncodingRules} {identifier : Identifier} {position : Nat} :
    Allows rules identifier .indefinite ↔
      (⟨identifier, .indefinite, position⟩ : Header).fault? rules = none := by
  have hrules : rules.allowsIndefiniteConstructed = true ↔ rules ≠ .der := by
    cases rules <;> decide
  constructor
  · rintro ⟨hconstructed, hder⟩
    obtain ⟨tag, constructed⟩ := identifier
    obtain rfl : constructed = true := hconstructed
    exact fault?_constructed_indefinite (hrules.mpr hder) tag position
  · intro hfault
    obtain ⟨hconstructed, hallowed⟩ := constructed_of_indefinite hfault rfl
    exact ⟨hconstructed, hrules.mp hallowed⟩

theorem isForm_octets_of_allows {rules : EncodingRules} {header : Header}
    (h : Allows rules header.identifier header.length) :
    IsForm rules header.position header.octets header := by
  obtain ⟨identifier, length, position⟩ := header
  cases length with
  | definite size =>
      obtain ⟨hfault, hsize⟩ : fault? ⟨identifier, .definite size, position⟩ rules = none ∧ _ :=
        allows_definite_iff.mp h
      exact isForm_octets hfault fun _ heq => Length.definite.inj heq ▸ hsize
  | indefinite => exact isForm_octets (allows_indefinite_iff.mp h) (by rintro _ ⟨⟩)

theorem length_octets {rules : EncodingRules} {header : Header}
    (h : Allows rules header.identifier header.length) :
    header.octets.length = header.identifier.encodedLen + header.length.encodedLen := by
  have hsize (size : Nat) (hlength : header.length = .definite size) : size < Length.sizeBound := by
    rw [hlength] at h
    exact h.1
  rw [octets, List.length_append, Identifier.length_octets, Length.length_octets hsize]

theorem length_octets_le_of_isForm {rules : EncodingRules} {position : Nat} {c : Octets}
    {header : Header} (h : IsForm rules position c header) : header.octets.length ≤ c.length := by
  obtain ⟨-, -, lengthOctets, rfl, hform⟩ := h
  rw [octets, List.length_append, List.length_append]
  exact Nat.add_le_add_left (Length.length_octets_le_of_isForm hform) _

theorem outcome_read_of_identifier_iff {rules : EncodingRules} {identifier : Identifier}
    {octets : Octets} {position : Nat} {header : Header} {source : Source} :
    (read rules).outcome (ofOctets (identifier.octets ++ octets) position) = (.ok header, source) ↔
      ∃ length, (Length.read rules).outcome
          (ofOctets octets (position + identifier.octets.length)) = (.ok length, source) ∧
        header = ⟨identifier, length, position⟩ ∧ header.fault? rules = none := by
  rw [outcome_read_eq_ok_iff, outcome_read?_of_identifier, outcome_bind]
  rcases (Length.read rules).outcome _ with ⟨error | length, rest⟩
  · simp
  · cases hfault : (⟨identifier, length, position⟩ : Header).fault? rules with
    | some error =>
        simp only [hfault, outcome_failAt, Prod.mk.injEq, reduceCtorEq, false_and, false_iff,
          Except.ok.injEq]
        rintro ⟨_, ⟨rfl, rfl⟩, rfl, hnone⟩
        simp [hfault] at hnone
    | none =>
        simp only [hfault, outcome_pure, Prod.mk.injEq, Except.ok.injEq, Option.some.injEq]
        constructor
        · rintro ⟨rfl, rfl⟩
          exact ⟨length, ⟨rfl, rfl⟩, rfl, hfault⟩
        · rintro ⟨_, ⟨rfl, rfl⟩, rfl, -⟩
          exact ⟨rfl, rfl⟩

/-- A long form is accepted after an identifier exactly if its number is one of 64 bits, apart from
the end-of-contents marker, which has no content. -/
theorem outcome_read_longForm_iff {identifier : Identifier} {zeros : Nat} {digits rest : Octets}
    (hpos : 0 < zeros + digits.length) (hlt : zeros + digits.length < 127) {position : Nat}
    {header : Header} {source : Source} :
    (read .ber).outcome
        (ofOctets (identifier.octets ++ Length.longForm zeros digits ++ rest) position) =
        (.ok header, source) ↔
      (BigEndian.value digits < 2 ^ 64 ∧
        (identifier = .endOfContents → BigEndian.value digits = 0)) ∧
      header = ⟨identifier, .definite (BigEndian.value digits), position⟩ ∧
        source = ofOctets rest
          (position + (identifier.octets ++ Length.longForm zeros digits).length) := by
  rw [List.append_assoc, outcome_read_of_identifier_iff, List.length_append, ← Nat.add_assoc]
  simp only [Length.outcome_read_longForm_iff hpos hlt]
  constructor
  · rintro ⟨length, ⟨hbound, rfl, rfl⟩, rfl, hfault⟩
    obtain ⟨-, hmark, -⟩ := allows_definite_iff.mpr ⟨hfault, hbound⟩
    exact ⟨⟨hbound, hmark⟩, rfl, rfl⟩
  · rintro ⟨⟨hbound, hmark⟩, rfl, rfl⟩
    have hallows : Allows .ber identifier (.definite (BigEndian.value digits)) :=
      ⟨hbound, hmark, fun _ => by decide⟩
    exact ⟨_, ⟨hbound, rfl, rfl⟩, rfl, (allows_definite_iff.mp hallows).1⟩

/-- Writing and reading headers undo each other. For every class, number, flag and length that the
rules allow, exactly what is written is read as that header, and it has as many octets as its two
parts say; what is read as a header has at least as many octets as are written for it, and is what
is written under restricted rules. Basic rules accept a counted size with any number of leading
zeros if it is one of 64 bits: as a length, and after every identifier that can have content. -/
theorem read_roundTrips (rules : EncodingRules) :
    (∀ (tagClass : TagClass) (number : UInt32) (constructed : Bool) (length : Length)
      (position : Nat) (rest : Octets), Allows rules ⟨⟨tagClass, number⟩, constructed⟩ length →
        let header : Header := ⟨⟨⟨tagClass, number⟩, constructed⟩, length, position⟩
        (read rules).outcome (ofOctets (header.octets ++ rest) position) =
            (.ok header, ofOctets rest (position + header.octets.length)) ∧
          header.octets.length = header.identifier.encodedLen + length.encodedLen) ∧
    (∀ octets position header source,
      (read rules).outcome (ofOctets octets position) = (.ok header, source) →
        ∃ consumed rest, octets = consumed ++ rest ∧
          source = ofOctets rest (position + consumed.length) ∧
          header.octets.length ≤ consumed.length ∧
          (rules = .cer ∨ rules = .der → header.octets = consumed)) ∧
    ∀ (zeros : Nat) (digits : Octets), 0 < zeros + digits.length →
      zeros + digits.length < 127 → ∀ (rest : Octets) (position : Nat),
        (∀ length source,
          (Length.read .ber).outcome (ofOctets (Length.longForm zeros digits ++ rest) position) =
              (.ok length, source) ↔
            BigEndian.value digits < 2 ^ 64 ∧ length = .definite (BigEndian.value digits) ∧
              source = ofOctets rest (position + (Length.longForm zeros digits).length)) ∧
        ∀ (identifier : Identifier) header source,
          (read .ber).outcome
              (ofOctets (identifier.octets ++ Length.longForm zeros digits ++ rest) position) =
              (.ok header, source) ↔
            (BigEndian.value digits < 2 ^ 64 ∧
              (identifier = .endOfContents → BigEndian.value digits = 0)) ∧
            header = ⟨identifier, .definite (BigEndian.value digits), position⟩ ∧
              source = ofOctets rest
                (position + (identifier.octets ++ Length.longForm zeros digits).length) := by
  refine ⟨?_, ?_, ?_⟩
  · intro tagClass number constructed length position rest hallows header
    exact ⟨reads_read_iff.mpr (isForm_octets_of_allows hallows) rest, length_octets hallows⟩
  · intro octets position header source h
    obtain ⟨consumed, rest, rfl, rfl, hreads⟩ := isLocal_read rules _ _ _ _ h
    have hform := reads_read_iff.mp hreads
    refine ⟨consumed, rest, rfl, rfl, length_octets_le_of_isForm hform, ?_⟩
    rintro (rfl | rfl)
    · exact (eq_octets_of_isForm rfl hform).symm
    · exact (eq_octets_of_isForm rfl hform).symm
  · intro zeros digits hpos hlt rest position
    exact ⟨fun _ _ => Length.outcome_read_longForm_iff hpos hlt,
      fun _ _ _ => outcome_read_longForm_iff hpos hlt⟩

/-- The header of a constructed value of 300 octets whose number takes three groups, and the size
zero with ten leading zeros, which is more octets than any size needs. -/
theorem read_roundTrips_threeGroups :
    (∃ octets : Octets, octets.length = 7 ∧
      (read .der).outcome (ofOctets (octets ++ [5, 0]) 9) =
        (.ok ⟨⟨⟨.context, 16384⟩, true⟩, .definite 300, 9⟩, ofOctets [5, 0] 16) ∧
      ∃ consumed rest, octets ++ [5, 0] = consumed ++ rest ∧
        ofOctets [5, 0] 16 = ofOctets rest (9 + consumed.length)) ∧
      (Length.read .ber).outcome (ofOctets (Length.longForm 10 [] ++ [5]) 1) =
        (.ok (.definite 0), ofOctets [5] 12) := by
  have hallows : Allows .der ⟨⟨.context, 16384⟩, true⟩ (.definite 300) :=
    ⟨by decide, fun h => absurd h (by decide), fun _ => by decide⟩
  obtain ⟨hwritten, hread, -⟩ := read_roundTrips .der
  obtain ⟨houtcome, hlength⟩ := hwritten .context 16384 true (.definite 300) 9 [5, 0] hallows
  have hseven : (⟨⟨⟨.context, 16384⟩, true⟩, .definite 300, 9⟩ : Header).octets.length = 7 :=
    hlength.trans (by decide)
  rw [hseven] at houtcome
  obtain ⟨consumed, rest, hsplit, hsource, -⟩ := hread _ _ _ _ houtcome
  obtain ⟨-, -, hlong⟩ := read_roundTrips .ber
  refine ⟨⟨_, hseven, houtcome, consumed, rest, hsplit, hsource⟩, ?_⟩
  exact ((hlong 10 [] (by decide) (by decide) [5] 1).1 _ _).mpr ⟨by decide, rfl, rfl⟩

end Header

end Asn1

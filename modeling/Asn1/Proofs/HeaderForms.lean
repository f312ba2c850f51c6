import Asn1.Header
import Asn1.Proofs.NumberForms
import Asn1.Proofs.Reading

namespace Asn1

open Read Source

/-- What is demanded is what is found, as the end of the octets is an error then. -/
theorem Read.outcome_demand_eq_ok_iff {α : Type} {found? : Read (Option α)}
    {next : Option α → Read α} (hsome : ∀ a, next (some a) = pure a)
    (hnone : next none = position >>= failAt .truncated) {a : α} {source rest : Source} :
    (found? >>= next).outcome source = (.ok a, rest) ↔
      found?.outcome source = (.ok (some a), rest) := by
  rw [outcome_bind]
  rcases found?.outcome source with ⟨error | _ | found, middle⟩
  · simp
  · simp [hnone, outcome_bind]
  · simp [hsome]

namespace Identifier

theorem isLocal_readGroups (start groups n : Nat) : (readGroups start groups n).IsLocal := by
  induction groups generalizing n with
  | zero => exact isLocal_failAt _ _
  | succ groups ih =>
      refine isLocal_takeOctet.bind fun octet => ?_
      exact IsLocal.ite (isLocal_pure _) (ih _)

theorem reads_readGroups_iff {start groups n position m : Nat} {octets : Octets} :
    (readGroups start groups n).Reads position octets m ↔
      Base128.IsComplete octets ∧ octets.length ≤ groups ∧ m = octets.foldl Base128.extend n := by
  induction groups generalizing n position octets with
  | zero =>
      simp only [readGroups, not_reads_failAt, false_iff]
      rintro ⟨hcomplete, hlen, -⟩
      obtain rfl := List.length_eq_zero_iff.mp (Nat.le_zero.mp hlen)
      exact Base128.not_isComplete_nil hcomplete
  | succ groups ih =>
      have hlocal (octet : UInt8) : (if Base128.isLast octet = true then
          pure (Base128.extend n octet)
          else readGroups start groups (Base128.extend n octet) : Read Nat).IsLocal :=
        IsLocal.ite (isLocal_pure _) (isLocal_readGroups _ _ _)
      rw [readGroups, reads_takeOctet_bind_iff hlocal]
      constructor
      · rintro ⟨octet, rest, rfl, hrest⟩
        rw [Base128.isComplete_cons_iff]
        split at hrest
        · next hlast =>
          obtain ⟨rfl, rfl⟩ := reads_pure_iff.mp hrest
          simp [hlast]
        · next hlast =>
          obtain ⟨hcomplete, hlen, rfl⟩ := ih.mp hrest
          simp [hlast, hcomplete, hlen]
      · rintro ⟨hcomplete, hlen, rfl⟩
        rcases octets with _ | ⟨octet, rest⟩
        · exact absurd hcomplete Base128.not_isComplete_nil
        · refine ⟨octet, rest, rfl, ?_⟩
          rcases Base128.isComplete_cons_iff.mp hcomplete with ⟨hlast, rfl⟩ | ⟨hlast, hrest⟩
          · simp [hlast]
          · rw [if_neg (by simp [hlast]), ih]
            exact ⟨hrest, by simpa using hlen, rfl⟩

theorem isLocal_readNumber (start : Nat) : (readNumber start).IsLocal := by
  refine isLocal_takeOctet.bind fun octet => ?_
  simp only [failAt_bind]
  refine IsLocal.ite (isLocal_failAt _ _) (IsLocal.ite ?_ ?_)
  · exact IsLocal.ite (isLocal_failAt _ _) (isLocal_pure _)
  · refine (isLocal_readGroups _ _ _).bind fun number => ?_
    exact IsLocal.ite (isLocal_failAt _ _) (isLocal_pure _)

theorem length_encode_le_maxGroups {n : Nat} (h : n < UInt32.size) :
    (Base128.encode n).length ≤ maxGroups :=
  Base128.length_encode_le (k := 4) (h.trans_le (by decide))

theorem reads_moreGroups_iff {start first position : Nat} {octets : Octets} {number : UInt32} :
    (readGroups start (maxGroups - 1) first >>= fun n =>
      if UInt32.size ≤ n then failAt (.illegalTag .excessive) start
      else pure (UInt32.ofNat n) : Read UInt32).Reads position octets number ↔
        Base128.IsComplete octets ∧ octets.length ≤ maxGroups - 1 ∧
          octets.foldl Base128.extend first = number.toNat := by
  rw [reads_bind_iff (isLocal_readGroups _ _ _)
    fun _ => IsLocal.ite (isLocal_failAt _ _) (isLocal_pure _)]
  constructor
  · rintro ⟨groups, rest, n, rfl, hgroups, hn⟩
    obtain ⟨hsize, hn⟩ := reads_ite_failAt_iff.mp hn
    obtain ⟨rfl, rfl⟩ := reads_pure_iff.mp hn
    obtain ⟨hcomplete, hlen, rfl⟩ := reads_readGroups_iff.mp hgroups
    rw [UInt32.toNat_ofNat_of_lt' (by omega), List.append_nil]
    exact ⟨hcomplete, hlen, rfl⟩
  · rintro ⟨hcomplete, hlen, hvalue⟩
    refine ⟨octets, [], number.toNat, by simp, ?_, ?_⟩
    · exact reads_readGroups_iff.mpr ⟨hcomplete, hlen, hvalue.symm⟩
    · have hsize : number.toNat < UInt32.size := number.toNat_lt
      rw [if_neg (by omega)]
      simp

theorem reads_readNumber_iff_groups {start position : Nat} {octets : Octets} {number : UInt32} :
    (readNumber start).Reads position octets number ↔
      ∃ octet rest, octets = octet :: rest ∧ octet ≠ 128 ∧
        (Base128.isLast octet = true ∧ 31 ≤ number.toNat ∧ rest = [] ∧
            Base128.extend 0 octet = number.toNat ∨
          Base128.isLast octet = false ∧ Base128.IsComplete rest ∧
            rest.length ≤ maxGroups - 1 ∧
              rest.foldl Base128.extend (Base128.extend 0 octet) = number.toNat) := by
  rw [readNumber, reads_takeOctet_bind_iff]
  swap
  · intro octet
    simp only [failAt_bind]
    exact IsLocal.ite (isLocal_failAt _ _) (IsLocal.ite
      (IsLocal.ite (isLocal_failAt _ _) (isLocal_pure _))
      ((isLocal_readGroups _ _ _).bind fun _ => IsLocal.ite (isLocal_failAt _ _) (isLocal_pure _)))
  simp only [failAt_bind, reads_ite_failAt_iff]
  refine exists_congr fun octet => exists_congr fun rest => and_congr_right fun _ =>
    and_congr_right fun _ => ?_
  cases hlast : Base128.isLast octet with
  | true =>
      have hsmall : Base128.extend 0 octet < UInt32.size := by
        have : UInt32.size = 4294967296 := rfl
        simp only [Base128.isLast, Base128.extend] at hlast ⊢
        have := octet.toNat_lt
        omega
      rw [if_pos rfl, reads_ite_failAt_iff, reads_pure_iff]
      constructor
      · rintro ⟨hlow, rfl, rfl⟩
        rw [UInt32.toNat_ofNat_of_lt' hsmall]
        exact .inl ⟨rfl, by omega, rfl, rfl⟩
      · rintro (⟨-, hlarge, rfl, hvalue⟩ | ⟨hfalse, -⟩)
        · exact ⟨by omega, rfl, by simp [hvalue]⟩
        · contradiction
  | false =>
      rw [if_neg (by simp), reads_moreGroups_iff]
      simp

theorem reads_readNumber_iff {start position : Nat} {octets : Octets} {number : UInt32} :
    (readNumber start).Reads position octets number ↔
      31 ≤ number.toNat ∧ octets = Base128.encode number.toNat := by
  rw [reads_readNumber_iff_groups]
  constructor
  · rintro ⟨octet, rest, rfl, hempty, ⟨hlast, hlarge, rfl, hvalue⟩ | ⟨hlast, hrest, -, hvalue⟩⟩
    · have hcomplete : Base128.IsComplete [octet] := by
        simp [Base128.isComplete_cons_iff, hlast]
      refine ⟨hlarge, ?_⟩
      rw [← hvalue]
      exact (Base128.encode_value hcomplete (by simpa using hempty)).symm
    · have hcomplete : Base128.IsComplete (octet :: rest) := by
        simp [Base128.isComplete_cons_iff, hlast, hrest]
      have hform : Base128.encode number.toNat = octet :: rest :=
        hvalue ▸ Base128.encode_value hcomplete (by simpa using hempty)
      refine ⟨?_, hform.symm⟩
      -- More than one group is needed, so that the number does not fit into seven bits.
      by_contra hsmall
      have hlen := Base128.length_encode_le (n := number.toNat) (k := 0) (by omega)
      rw [hform] at hlen
      cases rest with
      | nil => exact Base128.not_isComplete_nil hrest
      | cons group groups => simp at hlen
  · rintro ⟨hlarge, rfl⟩
    have hcomplete := Base128.isComplete_encode number.toNat
    have hhead := Base128.head?_encode_ne number.toNat
    have hlen := length_encode_le_maxGroups number.toNat_lt
    have hvalue := Base128.value_encode number.toNat
    cases hoctets : Base128.encode number.toNat with
    | nil => exact absurd (hoctets ▸ hcomplete) Base128.not_isComplete_nil
    | cons octet rest =>
        rw [hoctets] at hcomplete hhead hlen hvalue
        refine ⟨octet, rest, rfl, by simpa using hhead, ?_⟩
        rcases Base128.isComplete_cons_iff.mp hcomplete with ⟨hlast, rfl⟩ | ⟨hlast, hrest⟩
        · exact .inl ⟨hlast, hlarge, rfl, hvalue⟩
        · exact .inr ⟨hlast, hrest, Nat.le_sub_one_of_lt hlen, hvalue⟩

theorem toNat_firstOctet (identifier : Identifier) {low : Nat} (h : low < 32) :
    (identifier.firstOctet low).toNat =
      identifier.tag.tagClass.bits * 64 + (if identifier.constructed then 32 else 0) + low := by
  have hbits : identifier.tag.tagClass.bits ≤ 3 := by cases identifier.tag.tagClass <;> decide
  rw [firstOctet, UInt8.toNat_ofNat']
  split <;> omega

theorem bits_ofOctet (octet : UInt8) : (TagClass.ofOctet octet).bits = octet.toNat / 64 := by
  have hlt := UInt8.toNat_lt octet
  have hclass : octet.toNat / 64 = 0 ∨ octet.toNat / 64 = 1 ∨ octet.toNat / 64 = 2 ∨
      octet.toNat / 64 = 3 := by omega
  rw [TagClass.ofOctet]
  rcases hclass with h | h | h | h <;> rw [h] <;> rfl

theorem bits_injective : Function.Injective TagClass.bits := by
  intro a b
  cases a <;> cases b <;> simp [TagClass.bits]

theorem ofOctet_firstOctet (identifier : Identifier) {low : Nat} (h : low < 32) :
    TagClass.ofOctet (identifier.firstOctet low) = identifier.tag.tagClass := by
  apply bits_injective
  rw [bits_ofOctet, toNat_firstOctet identifier h]
  split <;> omega

theorem isConstructedOctet_firstOctet (identifier : Identifier) {low : Nat} (h : low < 32) :
    isConstructedOctet (identifier.firstOctet low) = identifier.constructed := by
  rw [isConstructedOctet, toNat_firstOctet identifier h]
  cases identifier.constructed <;> simp <;> omega

/-- The first octet of an identifier is made up of its class, the constructed flag and five bits. -/
theorem firstOctet_ofOctet (octet : UInt8) (number : UInt32) :
    firstOctet ⟨⟨TagClass.ofOctet octet, number⟩, isConstructedOctet octet⟩ (octet.toNat % 32) =
      octet := by
  have hlt := UInt8.toNat_lt octet
  apply UInt8.toNat_inj.mp
  rw [toNat_firstOctet _ (Nat.mod_lt _ (by decide)), bits_ofOctet, isConstructedOctet]
  simp only [decide_eq_true_eq]
  split <;> omega

theorem reads_number_iff {start position low : Nat} (h : low < 32) {octets : Octets}
    {number : UInt32} :
    (if low < 31 then pure (UInt32.ofNat low) else readNumber start : Read UInt32).Reads
        position octets number ↔
      low = min number.toNat 31 ∧
        octets = if number.toNat < 31 then [] else Base128.encode number.toNat := by
  split
  · next hlow =>
    rw [reads_pure_iff]
    constructor
    · rintro ⟨rfl, rfl⟩
      rw [UInt32.toNat_ofNat_of_lt' (hlow.trans (by decide))]
      simp only [hlow, if_true, and_true]
      omega
    · rintro ⟨hmin, rfl⟩
      have hnumber : number.toNat = low := by omega
      rw [if_pos (by omega), ← hnumber]
      exact ⟨rfl, UInt32.ofNat_toNat.symm⟩
  · next hlow =>
    rw [reads_readNumber_iff]
    constructor
    · rintro ⟨hlarge, rfl⟩
      rw [if_neg (by omega)]
      exact ⟨by omega, rfl⟩
    · rintro ⟨hmin, rfl⟩
      rw [if_neg (by omega)]
      exact ⟨by omega, rfl⟩

theorem octets_eq (identifier : Identifier) :
    identifier.octets = identifier.firstOctet (min identifier.tag.number.toNat 31) ::
      if identifier.tag.number.toNat < 31 then []
      else Base128.encode identifier.tag.number.toNat := by
  rw [octets]
  split
  · next h => rw [Nat.min_eq_left (by omega)]
  · next h => rw [Nat.min_eq_right (by omega)]

theorem outcome_read?_nil (position : Nat) :
    read?.outcome (ofOctets [] position) = (.ok none, ofOctets [] position) := by
  rw [read?, outcome_bind_of_ok (outcome_position _), outcome_bind_of_ok (outcome_takeOctet?_nil _)]
  rfl

theorem outcome_read?_cons (octet : UInt8) (rest : Octets) (position : Nat) :
    read?.outcome (ofOctets (octet :: rest) position) =
      ((if octet.toNat % 32 < 31 then pure (UInt32.ofNat (octet.toNat % 32))
          else readNumber position) >>= fun number => (pure (some
            (⟨⟨TagClass.ofOctet octet, number⟩, isConstructedOctet octet⟩ : Identifier)) :
              Read (Option Identifier))).outcome (ofOctets rest (position + 1)) := by
  rw [read?, outcome_bind_of_ok (outcome_position _),
    outcome_bind_of_ok (outcome_takeOctet?_cons _ _ _)]
  simp only
  split <;> rfl

theorem outcome_read?_eq_some_iff {octets : Octets} {position : Nat} {identifier : Identifier}
    {source : Source} :
    read?.outcome (ofOctets octets position) = (.ok (some identifier), source) ↔
      ∃ rest, octets = identifier.octets ++ rest ∧
        source = ofOctets rest (position + identifier.octets.length) := by
  have hlow (octet : UInt8) : octet.toNat % 32 < 32 := Nat.mod_lt _ (by decide)
  constructor
  · intro h
    rcases octets with _ | ⟨octet, rest⟩
    · simp [outcome_read?_nil] at h
    · rw [outcome_read?_cons] at h
      obtain ⟨number, middle, hnumber, hlast⟩ := exists_of_outcome_bind h
      have hlocal : (if octet.toNat % 32 < 31 then pure (UInt32.ofNat (octet.toNat % 32))
          else readNumber position : Read UInt32).IsLocal :=
        IsLocal.ite (isLocal_pure _) (isLocal_readNumber _)
      obtain ⟨c, rest, rfl, rfl, hc⟩ := hlocal _ _ _ _ hnumber
      obtain ⟨hmin, rfl⟩ := (reads_number_iff (hlow octet)).mp hc
      rw [outcome_pure] at hlast
      obtain ⟨hid, rfl⟩ := Prod.mk.injEq .. ▸ hlast
      obtain rfl : (⟨⟨TagClass.ofOctet octet, number⟩, isConstructedOctet octet⟩ : Identifier) =
        identifier := by simpa using hid
      refine ⟨rest, ?_, ?_⟩
      · rw [octets_eq, ← hmin, firstOctet_ofOctet]
        rfl
      · rw [octets_eq]
        simp only [List.length_cons, Nat.add_assoc, Nat.add_comm 1]
  · rintro ⟨rest, rfl, rfl⟩
    rw [octets_eq, List.cons_append, outcome_read?_cons]
    have hmod : (identifier.firstOctet (min identifier.tag.number.toNat 31)).toNat % 32 =
        min identifier.tag.number.toNat 31 := by
      rw [toNat_firstOctet identifier (by omega)]
      split <;> omega
    rw [hmod, outcome_bind_of_ok ((reads_number_iff (by omega)).mpr ⟨rfl, rfl⟩ rest),
      ofOctet_firstOctet _ (by omega), isConstructedOctet_firstOctet _ (by omega)]
    simp [Nat.add_assoc, Nat.add_comm 1]

end Identifier

namespace Length

/-- The octets that a length is read from. Restricted rules demand the shortest form, which has no
leading zero and does not count a size that fits into the first octet. -/
def IsForm (rules : EncodingRules) (octets : Octets) : Length → Prop
  | indefinite => octets = [128]
  | definite size =>
    octets = [UInt8.ofNat size] ∧ size < 128 ∨
      ∃ digits, octets = UInt8.ofNat (128 + digits.length) :: digits ∧ digits ≠ [] ∧
        digits.length < 127 ∧ BigEndian.value digits = size ∧ size < sizeBound ∧
        (rules.isRestricted = true → digits.head? ≠ some 0 ∧ 128 ≤ size)

theorem isLocal_readSize (start count n : Nat) : (readSize start count n).IsLocal := by
  induction count generalizing n with
  | zero => exact isLocal_pure _
  | succ count ih =>
      refine isLocal_takeOctet.bind fun octet => ?_
      simp only [failAt_bind]
      exact IsLocal.ite (isLocal_failAt _ _) (ih _)

theorem le_foldl_size (n : Nat) (octets : Octets) :
    n ≤ octets.foldl (fun n octet => n * 256 + octet.toNat) n := by
  induction octets generalizing n with
  | nil => exact le_rfl
  | cons octet rest ih => exact le_trans (by omega) (ih (n * 256 + octet.toNat))

theorem reads_readSize_iff {start count n position size : Nat} (h : n < sizeBound)
    {octets : Octets} :
    (readSize start count n).Reads position octets size ↔
      octets.length = count ∧ size = octets.foldl (fun n octet => n * 256 + octet.toNat) n ∧
        size < sizeBound := by
  induction count generalizing n position octets with
  | zero =>
      rw [readSize, reads_pure_iff]
      constructor
      · rintro ⟨rfl, rfl⟩
        exact ⟨rfl, rfl, h⟩
      · rintro ⟨hlen, rfl, -⟩
        obtain rfl := List.length_eq_zero_iff.mp hlen
        exact ⟨rfl, rfl⟩
  | succ count ih =>
      have hlocal (octet : UInt8) : (if sizeBound ≤ n * 256 + octet.toNat then
          failAt (.illegalLength .excessive) start
          else readSize start count (n * 256 + octet.toNat) : Read Nat).IsLocal :=
        IsLocal.ite (isLocal_failAt _ _) (isLocal_readSize _ _ _)
      rw [readSize]
      simp only [failAt_bind]
      rw [reads_takeOctet_bind_iff hlocal]
      constructor
      · rintro ⟨octet, rest, rfl, hrest⟩
        obtain ⟨hsmall, hrest⟩ := reads_ite_failAt_iff.mp hrest
        obtain ⟨hlen, hsize, hbound⟩ := (ih (by omega)).mp hrest
        exact ⟨by simp [hlen], hsize, hbound⟩
      · rintro ⟨hlen, hsize, hbound⟩
        rcases octets with _ | ⟨octet, rest⟩
        · simp at hlen
        · have hle := le_foldl_size (n * 256 + octet.toNat) rest
          have hsmall : n * 256 + octet.toNat < sizeBound := by
            rw [List.foldl_cons] at hsize
            omega
          refine ⟨octet, rest, rfl, reads_ite_failAt_iff.mpr ⟨by omega, ?_⟩⟩
          exact (ih hsmall).mpr ⟨by simpa using hlen, hsize, hbound⟩

/-- Reads the octets of a size after the first octet of a length, which has given their count. -/
def readCounted (rules : EncodingRules) (start count : Nat) : Read Length :=
  takeOctet >>= fun first =>
    if rules.isRestricted = true ∧ first = 0 then failAt (.illegalLength .leadingZero) start
    else readSize start (count - 1) first.toNat >>= fun size =>
      if rules.isRestricted = true ∧ size < 128 then failAt (.illegalLength .longForm) start
      else pure (definite size)

/-- Reads what follows the first octet of a length. -/
def readAfter (rules : EncodingRules) (start : Nat) (octet : UInt8) : Read Length :=
  if octet < 128 then pure (definite octet.toNat)
  else if octet = 128 then pure indefinite
  else if octet = 255 then failAt (.illegalLength .reserved) start
  else readCounted rules start (octet.toNat - 128)

theorem read_eq (rules : EncodingRules) :
    read rules = position >>= fun start => takeOctet >>= readAfter rules start := by
  rw [read]
  simp only [failAt_bind]
  rfl

theorem isLocal_readCounted (rules : EncodingRules) (start count : Nat) :
    (readCounted rules start count).IsLocal := by
  refine isLocal_takeOctet.bind fun first => ?_
  refine IsLocal.ite (isLocal_failAt _ _) ((isLocal_readSize _ _ _).bind fun size => ?_)
  exact IsLocal.ite (isLocal_failAt _ _) (isLocal_pure _)

theorem isLocal_readAfter (rules : EncodingRules) (start : Nat) (octet : UInt8) :
    (readAfter rules start octet).IsLocal := by
  exact IsLocal.ite (isLocal_pure _) (IsLocal.ite (isLocal_pure _)
    (IsLocal.ite (isLocal_failAt _ _) (isLocal_readCounted _ _ _)))

theorem isLocal_read (rules : EncodingRules) : (read rules).IsLocal := by
  rw [read_eq]
  exact isLocal_position.bind fun start => isLocal_takeOctet.bind (isLocal_readAfter rules start)

theorem reads_readCounted_iff {rules : EncodingRules} {start count position : Nat}
    (hcount : 1 ≤ count) {octets : Octets} {length : Length} :
    (readCounted rules start count).Reads position octets length ↔
      octets.length = count ∧ BigEndian.value octets < sizeBound ∧
        length = definite (BigEndian.value octets) ∧
        (rules.isRestricted = true → octets.head? ≠ some 0 ∧ 128 ≤ BigEndian.value octets) := by
  have hlast (size : Nat) : (if rules.isRestricted = true ∧ size < 128 then
      failAt (.illegalLength .longForm) start else pure (definite size) : Read Length).IsLocal :=
    IsLocal.ite (isLocal_failAt _ _) (isLocal_pure _)
  have hvalue (first : UInt8) (rest : Octets) : BigEndian.value (first :: rest) =
      rest.foldl (fun n octet => n * 256 + octet.toNat) first.toNat := by simp [BigEndian.value]
  have hfirst (first : UInt8) : first.toNat < sizeBound :=
    (UInt8.toNat_lt first).trans (by decide)
  rw [readCounted, reads_takeOctet_bind_iff fun first =>
    IsLocal.ite (isLocal_failAt _ _) ((isLocal_readSize _ _ _).bind hlast)]
  simp only [reads_ite_failAt_iff]
  constructor
  · rintro ⟨first, rest, rfl, hzero, hrest⟩
    obtain ⟨c, d, size, rfl, hc, hd⟩ := (reads_bind_iff (isLocal_readSize _ _ _) hlast).mp hrest
    obtain ⟨hshort, hd⟩ := reads_ite_failAt_iff.mp hd
    obtain ⟨rfl, rfl⟩ := reads_pure_iff.mp hd
    obtain ⟨hlen, rfl, hbound⟩ := (reads_readSize_iff (hfirst first)).mp hc
    rw [List.append_nil, hvalue]
    refine ⟨by simp [hlen]; omega, hbound, rfl, fun hrestricted => ⟨?_, ?_⟩⟩
    · simpa [hrestricted] using hzero
    · simpa [hrestricted] using hshort
  · rintro ⟨hlen, hbound, rfl, hrestricted⟩
    rcases octets with _ | ⟨first, rest⟩
    · simp at hlen
      omega
    · refine ⟨first, rest, rfl, ?_, ?_⟩
      · rintro ⟨h, rfl⟩
        exact (hrestricted h).1 rfl
      · rw [reads_bind_iff (isLocal_readSize _ _ _) hlast]
        refine ⟨rest, [], BigEndian.value (first :: rest), by simp, ?_, ?_⟩
        · rw [reads_readSize_iff (hfirst first), ← hvalue]
          exact ⟨by simp at hlen; omega, rfl, hbound⟩
        · rw [reads_ite_failAt_iff, reads_pure_iff]
          refine ⟨?_, rfl, rfl⟩
          rintro ⟨h, hshort⟩
          exact absurd (hrestricted h).2 (by omega)

theorem reads_readAfter_iff {rules : EncodingRules} {start position : Nat} {octet : UInt8}
    {octets : Octets} {length : Length} :
    (readAfter rules start octet).Reads position octets length ↔
      octet.toNat < 128 ∧ octets = [] ∧ length = definite octet.toNat ∨
        octet.toNat = 128 ∧ octets = [] ∧ length = indefinite ∨
          128 < octet.toNat ∧ octet.toNat < 255 ∧ octets.length = octet.toNat - 128 ∧
            BigEndian.value octets < sizeBound ∧ length = definite (BigEndian.value octets) ∧
            (rules.isRestricted = true → octets.head? ≠ some 0 ∧ 128 ≤ BigEndian.value octets) := by
  have hlow : octet < 128 ↔ octet.toNat < 128 := UInt8.lt_iff_toNat_lt
  have hmiddle : octet = 128 ↔ octet.toNat = 128 := UInt8.toNat_inj.symm
  have hhigh : octet = 255 ↔ octet.toNat = 255 := UInt8.toNat_inj.symm
  have hlt := UInt8.toNat_lt octet
  simp only [readAfter, hlow, hmiddle, hhigh]
  rcases Nat.lt_trichotomy octet.toNat 128 with h | h | h
  · rw [if_pos h, reads_pure_iff]
    simp [h, Nat.ne_of_lt h, Nat.lt_asymm h]
  · rw [if_neg (by omega), if_pos h, reads_pure_iff]
    simp [h]
  · rw [if_neg (by omega), if_neg (by omega), reads_ite_failAt_iff,
      reads_readCounted_iff (by omega)]
    simp only [h, Nat.ne_of_gt h, Nat.lt_asymm h, false_and, false_or, true_and]
    exact and_congr_left fun _ => by omega

@[simp]
theorem reads_read_iff {rules : EncodingRules} {position : Nat} {octets : Octets}
    {length : Length} : (read rules).Reads position octets length ↔ IsForm rules octets length := by
  rw [read_eq, reads_position_bind_iff, reads_takeOctet_bind_iff (isLocal_readAfter _ _)]
  simp only [reads_readAfter_iff]
  constructor
  · rintro ⟨octet, rest, rfl, ⟨hlow, rfl, rfl⟩ | ⟨hmiddle, rfl, rfl⟩ |
      ⟨hlow, hhigh, hcount, hbound, rfl, hrestricted⟩⟩
    · exact .inl ⟨by simp, hlow⟩
    · obtain rfl : octet = 128 := UInt8.toNat_inj.mp hmiddle
      rfl
    · refine .inr ⟨rest, ?_, ?_, by omega, rfl, hbound, hrestricted⟩
      · rw [ofNat_eq_octet octet _ (by omega)]
      · rintro rfl
        simp at hcount
        omega
  · intro hform
    cases length with
    | indefinite =>
        obtain rfl := hform
        exact ⟨128, [], rfl, .inr (.inl ⟨rfl, rfl, rfl⟩)⟩
    | definite size =>
        rcases hform with ⟨rfl, hsize⟩ | ⟨digits, rfl, hne, hcount, rfl, hbound, hrestricted⟩
        · have htoNat : (UInt8.ofNat size).toNat = size := by
            rw [UInt8.toNat_ofNat']
            omega
          exact ⟨_, [], rfl, .inl ⟨by omega, rfl, by rw [htoNat]⟩⟩
        · have hpos := List.length_pos_iff.mpr hne
          have htoNat : (UInt8.ofNat (128 + digits.length)).toNat = 128 + digits.length := by
            rw [UInt8.toNat_ofNat']
            omega
          exact ⟨_, digits, rfl, .inr (.inr
            ⟨by omega, by omega, by omega, hbound, rfl, hrestricted⟩)⟩

theorem length_encode_lt_of_lt_sizeBound {size : Nat} (h : size < sizeBound) :
    (BigEndian.encode size).length < 127 := by
  have hlen : (BigEndian.encode size).length ≤ 8 :=
    BigEndian.length_encode_le (by simpa [sizeBound] using h)
  omega

theorem isForm_octets (rules : EncodingRules) {length : Length}
    (h : ∀ size, length = definite size → size < sizeBound) :
    IsForm rules length.octets length := by
  cases length with
  | indefinite => rfl
  | definite size =>
      rw [octets]
      split
      · next hsize => exact .inl ⟨rfl, hsize⟩
      · next hsize =>
        refine .inr ⟨BigEndian.encode size, rfl, ?_, length_encode_lt_of_lt_sizeBound (h size rfl),
          BigEndian.value_encode size, h size rfl, fun _ => ⟨?_, by omega⟩⟩
        · intro hnil
          have hvalue := BigEndian.value_encode size
          rw [hnil] at hvalue
          exact hsize (hvalue ▸ by decide)
        · exact BigEndian.head?_encode_ne_zero size

theorem eq_octets_of_isForm {rules : EncodingRules} (hrules : rules.isRestricted = true)
    {c : Octets} {length : Length} (h : IsForm rules c length) : c = length.octets := by
  cases length with
  | indefinite => exact h
  | definite size =>
      rw [octets]
      rcases h with ⟨rfl, hsize⟩ | ⟨digits, rfl, -, -, rfl, -, hrestricted⟩
      · rw [if_pos hsize]
      · obtain ⟨hhead, hlarge⟩ := hrestricted hrules
        rw [if_neg (by omega), BigEndian.encode_value hhead]

end Length

namespace Header

/-- The octets that a header found at a position is read from. -/
def IsForm (rules : EncodingRules) (position : Nat) (octets : Octets) (header : Header) : Prop :=
  header.position = position ∧ header.fault? rules = none ∧
    ∃ lengthOctets, octets = header.identifier.octets ++ lengthOctets ∧
      Length.IsForm rules lengthOctets header.length

theorem outcome_read?_nil (rules : EncodingRules) (position : Nat) :
    (read? rules).outcome (ofOctets [] position) = (.ok none, ofOctets [] position) := by
  rw [read?, outcome_bind_of_ok (outcome_position _),
    outcome_bind_of_ok (Identifier.outcome_read?_nil _)]
  rfl

theorem isLocal_length (rules : EncodingRules) (identifier : Identifier) (start : Nat) :
    (Length.read rules >>= fun length =>
      match (⟨identifier, length, start⟩ : Header).fault? rules with
      | some error => failAt error start
      | none => (return some ⟨identifier, length, start⟩ : Read (Option Header))).IsLocal := by
  refine (Length.isLocal_read rules).bind fun length => ?_
  split
  · exact isLocal_failAt _ _
  · exact isLocal_pure _

theorem reads_length_iff {rules : EncodingRules} {identifier : Identifier} {start position : Nat}
    {octets : Octets} {found : Option Header} :
    (Length.read rules >>= fun length =>
        match (⟨identifier, length, start⟩ : Header).fault? rules with
        | some error => failAt error start
        | none => (return some ⟨identifier, length, start⟩ : Read (Option Header))).Reads
          position octets found ↔
      ∃ length, found = some ⟨identifier, length, start⟩ ∧ Length.IsForm rules octets length ∧
        (⟨identifier, length, start⟩ : Header).fault? rules = none := by
  have hlocal (length : Length) : (match (⟨identifier, length, start⟩ : Header).fault? rules with
      | some error => failAt error start
      | none => (return some ⟨identifier, length, start⟩ : Read (Option Header))).IsLocal := by
    split
    · exact isLocal_failAt _ _
    · exact isLocal_pure _
  rw [reads_bind_iff (Length.isLocal_read rules) hlocal]
  constructor
  · rintro ⟨c, d, length, rfl, hc, hd⟩
    split at hd
    · exact absurd hd not_reads_failAt
    · next hfault =>
      obtain ⟨rfl, rfl⟩ := reads_pure_iff.mp hd
      exact ⟨length, rfl, by simpa using hc, hfault⟩
  · rintro ⟨length, rfl, hform, hfault⟩
    refine ⟨octets, [], length, by simp, Length.reads_read_iff.mpr hform, ?_⟩
    rw [hfault]
    exact reads_pure_iff.mpr ⟨rfl, rfl⟩

theorem outcome_read?_of_identifier {rules : EncodingRules} (identifier : Identifier)
    (rest : Octets) (position : Nat) :
    (read? rules).outcome (ofOctets (identifier.octets ++ rest) position) =
      (Length.read rules >>= fun length =>
        match (⟨identifier, length, position⟩ : Header).fault? rules with
        | some error => failAt error position
        | none => (return some ⟨identifier, length, position⟩ : Read (Option Header))).outcome
          (ofOctets rest (position + identifier.octets.length)) := by
  rw [read?, outcome_bind_of_ok (outcome_position _),
    outcome_bind_of_ok (Identifier.outcome_read?_eq_some_iff.mpr ⟨rest, rfl, rfl⟩)]
  rfl

theorem outcome_read?_eq_some_iff {rules : EncodingRules} {octets : Octets} {position : Nat}
    {header : Header} {source : Source} :
    (read? rules).outcome (ofOctets octets position) = (.ok (some header), source) ↔
      ∃ c rest, octets = c ++ rest ∧ source = ofOctets rest (position + c.length) ∧
        IsForm rules position c header := by
  constructor
  · intro h
    rw [read?, outcome_bind_of_ok (outcome_position _)] at h
    obtain ⟨found, middle, hfound, hrest⟩ := exists_of_outcome_bind h
    rcases found with _ | identifier
    · simp at hrest
    · obtain ⟨rest, rfl, rfl⟩ := Identifier.outcome_read?_eq_some_iff.mp hfound
      obtain ⟨c, rest, rfl, rfl, hc⟩ := isLocal_length rules identifier position _ _ _ _ hrest
      obtain ⟨length, heq, hform, hfault⟩ := reads_length_iff.mp hc
      obtain rfl := Option.some.inj heq
      exact ⟨identifier.octets ++ c, rest, by simp, by simp [Nat.add_assoc], rfl, hfault, c, rfl,
        hform⟩
  · rintro ⟨c, rest, rfl, rfl, rfl, hfault, lengthOctets, rfl, hform⟩
    rw [List.append_assoc, outcome_read?_of_identifier,
      reads_length_iff.mpr ⟨header.length, rfl, hform, hfault⟩ rest]
    simp [Nat.add_assoc]

theorem outcome_read?_eq_none_iff {rules : EncodingRules} {octets : Octets} {position : Nat}
    {source : Source} :
    (read? rules).outcome (ofOctets octets position) = (.ok none, source) ↔
      octets = [] ∧ source = ofOctets [] position := by
  constructor
  · intro h
    rcases octets with _ | ⟨octet, rest⟩
    · rw [outcome_read?_nil] at h
      exact ⟨rfl, (congrArg Prod.snd h).symm⟩
    · rw [read?, outcome_bind_of_ok (outcome_position _)] at h
      obtain ⟨found, middle, hfound, hrest⟩ := exists_of_outcome_bind h
      rcases found with _ | identifier
      · rw [Identifier.outcome_read?_cons] at hfound
        obtain ⟨number, last, -, hlast⟩ := exists_of_outcome_bind hfound
        simp at hlast
      · obtain ⟨rest, hrest', rfl⟩ := Identifier.outcome_read?_eq_some_iff.mp hfound
        obtain ⟨c, rest, rfl, rfl, hc⟩ := isLocal_length rules identifier position _ _ _ _ hrest
        obtain ⟨length, heq, -⟩ := reads_length_iff.mp hc
        simp at heq
  · rintro ⟨rfl, rfl⟩
    exact outcome_read?_nil rules position

theorem outcome_read_eq_ok_iff {rules : EncodingRules} {header : Header} {source rest : Source} :
    (read rules).outcome source = (.ok header, rest) ↔
      (read? rules).outcome source = (.ok (some header), rest) := by
  rw [read]
  exact outcome_demand_eq_ok_iff (fun _ => rfl) rfl

@[simp]
theorem reads_read_iff {rules : EncodingRules} {position : Nat} {octets : Octets}
    {header : Header} :
    (read rules).Reads position octets header ↔ IsForm rules position octets header := by
  constructor
  · intro h
    obtain ⟨c, rest, rfl, hrest, hform⟩ :=
      outcome_read?_eq_some_iff.mp (outcome_read_eq_ok_iff.mp h.outcome_nil)
    obtain ⟨rfl, -⟩ := ofOctets_inj.mp hrest
    rwa [List.append_nil]
  · intro hform rest
    exact outcome_read_eq_ok_iff.mpr
      (outcome_read?_eq_some_iff.mpr ⟨octets, rest, rfl, rfl, hform⟩)

theorem isLocal_read (rules : EncodingRules) : (read rules).IsLocal := by
  intro octets position header source h
  obtain ⟨c, rest, rfl, rfl, hform⟩ :=
    outcome_read?_eq_some_iff.mp (outcome_read_eq_ok_iff.mp h)
  exact ⟨c, rest, rfl, rfl, reads_read_iff.mpr hform⟩

theorem isForm_octets {rules : EncodingRules} {header : Header}
    (hfault : header.fault? rules = none)
    (hsize : ∀ size, header.length = .definite size → size < Length.sizeBound) :
    IsForm rules header.position header.octets header :=
  ⟨rfl, hfault, header.length.octets, rfl, Length.isForm_octets rules hsize⟩

theorem eq_octets_of_isForm {rules : EncodingRules} (hrules : rules.isRestricted = true)
    {position : Nat} {c : Octets} {header : Header} (h : IsForm rules position c header) :
    c = header.octets := by
  obtain ⟨-, -, lengthOctets, rfl, hform⟩ := h
  rw [octets, Length.eq_octets_of_isForm hrules hform]

theorem isEndOfContents_eq_false {tag : Tag} (h : tag ≠ Tag.universal 0) {constructed : Bool}
    {length : Length} {position : Nat} :
    (⟨⟨tag, constructed⟩, length, position⟩ : Header).isEndOfContents = false := by
  simp [isEndOfContents, Identifier.isEndOfContents, Identifier.endOfContents, h]

theorem fault?_primitive {rules : EncodingRules} {tag : Tag} (h : tag ≠ Tag.universal 0)
    (size position : Nat) :
    (⟨⟨tag, false⟩, .definite size, position⟩ : Header).fault? rules = none := by
  rw [fault?, isEndOfContents_eq_false h]
  rfl

theorem fault?_constructed_definite {rules : EncodingRules}
    (h : rules.allowsDefiniteConstructed = true) (tag : Tag) (size position : Nat) :
    (⟨⟨tag, true⟩, .definite size, position⟩ : Header).fault? rules = none := by
  simp [fault?, isEndOfContents, Identifier.isEndOfContents, Identifier.endOfContents,
    isConstructed, Length.isIndefinite, h]

theorem fault?_constructed_indefinite {rules : EncodingRules}
    (h : rules.allowsIndefiniteConstructed = true) (tag : Tag) (position : Nat) :
    (⟨⟨tag, true⟩, .indefinite, position⟩ : Header).fault? rules = none := by
  simp [fault?, isEndOfContents, Identifier.isEndOfContents, Identifier.endOfContents,
    isConstructed, Length.isIndefinite, h]

section Faultless

variable {rules : EncodingRules} {header : Header}

theorem eq_endOfContents (hfault : header.fault? rules = none)
    (h : header.isEndOfContents = true) :
    header.identifier = .endOfContents ∧ header.length = .definite 0 := by
  have hidentifier : header.identifier = .endOfContents := of_decide_eq_true h
  rw [fault?, if_pos h] at hfault
  refine ⟨hidentifier, ?_⟩
  cases hzero : header.length.isZero with
  | true => exact of_decide_eq_true hzero
  | false => simp [hzero] at hfault

theorem allowsDefinite_of_fault? {size : Nat} (hfault : header.fault? rules = none)
    (hlength : header.length = .definite size)
    (hconstructed : header.identifier.constructed = true) :
    rules.allowsDefiniteConstructed = true := by
  obtain ⟨⟨tag, constructed⟩, length, start⟩ := header
  obtain rfl : length = .definite size := hlength
  obtain rfl : constructed = true := hconstructed
  by_contra hrules
  simp [fault?, isEndOfContents, Identifier.isEndOfContents, Identifier.endOfContents,
    isConstructed, Length.isIndefinite, hrules] at hfault

theorem constructed_of_indefinite (hfault : header.fault? rules = none)
    (hlength : header.length = .indefinite) :
    header.identifier.constructed = true ∧ rules.allowsIndefiniteConstructed = true := by
  cases hmark : header.isEndOfContents with
  | true => simp [(eq_endOfContents hfault hmark).2] at hlength
  | false =>
      simp only [fault?, hmark, hlength, isConstructed, Length.isIndefinite, Bool.false_eq_true,
        if_false, decide_true] at hfault
      cases hconstructed : header.identifier.constructed with
      | false => simp [hconstructed] at hfault
      | true => simpa [hconstructed] using hfault

end Faultless

theorem isForm_endOfContents (rules : EncodingRules) (position : Nat) :
    IsForm rules position endOfContents ⟨Identifier.endOfContents, .definite 0, position⟩ :=
  ⟨rfl, rfl, _, rfl, .inl ⟨rfl, by decide⟩⟩

theorem IsForm.ne_nil {rules : EncodingRules} {position : Nat} {c : Octets} {header : Header}
    (h : IsForm rules position c header) : c ≠ [] := by
  obtain ⟨-, -, lengthOctets, rfl, -⟩ := h
  simp [Identifier.octets_eq]

theorem IsForm.size_lt {rules : EncodingRules} {position size : Nat} {c : Octets} {header : Header}
    (h : IsForm rules position c header) (hlength : header.length = .definite size) :
    size < Length.sizeBound := by
  obtain ⟨-, -, lengthOctets, -, hform⟩ := h
  rw [hlength] at hform
  rcases hform with ⟨-, hsmall⟩ | ⟨-, -, -, -, -, hbound, -⟩
  · exact hsmall.trans (by decide)
  · exact hbound

theorem IsForm.shortest {rules : EncodingRules} {position : Nat} {c : Octets} {header : Header}
    (h : IsForm rules position c header) (start : Nat) :
    IsForm rules start header.octets ⟨header.identifier, header.length, start⟩ := by
  apply isForm_octets (by exact h.2.1)
  intro _ hlength
  exact h.size_lt hlength

end Header

end Asn1

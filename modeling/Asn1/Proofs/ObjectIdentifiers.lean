import Asn1.Oid
import Asn1.Proofs.LeafContent
import Asn1.Proofs.NumberForms

namespace Asn1

namespace Base128

/-- The groups of one number, of which there are no more than it needs. -/
def IsShortest (groups : Octets) : Prop :=
  IsComplete groups ∧ groups.head? ≠ some 128

theorem isShortest_encode (n : Nat) : IsShortest (encode n) :=
  ⟨isComplete_encode n, head?_encode_ne n⟩

theorem go_append_of_isComplete {groups : Octets} (h : IsComplete groups) (n : Nat)
    (rest : Octets) :
    decodeAll.go n (groups ++ rest) = groups.foldl extend n :: decodeAll.go 0 rest := by
  induction groups generalizing n with
  | nil => exact absurd h not_isComplete_nil
  | cons octet groups ih =>
      rw [List.cons_append, decodeAll.go]
      rcases isComplete_cons_iff.mp h with ⟨hlast, rfl⟩ | ⟨hlast, hgroups⟩
      · rw [if_pos hlast]
        rfl
      · rw [if_neg (by simp [hlast])]
        exact ih hgroups (extend n octet)

theorem decodeAll_flatten {forms : List Octets} (h : ∀ groups ∈ forms, IsComplete groups) :
    decodeAll forms.flatten = forms.map value := by
  induction forms with
  | nil => rfl
  | cons groups forms ih =>
      obtain ⟨hgroups, hforms⟩ := List.forall_mem_cons.mp h
      rw [List.flatten_cons, decodeAll, go_append_of_isComplete hgroups, List.map_cons, value]
      exact congrArg _ (ih hforms)

theorem decodeAll_flatMap_encode (numbers : List Nat) :
    decodeAll (numbers.flatMap encode) = numbers := by
  have hcomplete : ∀ groups ∈ numbers.map encode, IsComplete groups := by
    intro groups hgroups
    obtain ⟨n, -, rfl⟩ := List.mem_map.mp hgroups
    exact isComplete_encode n
  rw [List.flatMap_def, decodeAll_flatten hcomplete, List.map_map]
  simp [Function.comp_def]

end Base128

namespace Oid

open Base128

/-- Octets that consist of one or more numbers of 64 bits, each in its shortest form. -/
def IsWellFormed (content : Octets) : Prop :=
  ∃ forms : List Octets, forms ≠ [] ∧ content = forms.flatten ∧
    ∀ groups ∈ forms, IsShortest groups ∧ value groups < 2 ^ 64

section Form

variable {arcLength : Nat} {octets : Octets}

theorem formFault?_cons_eq_none_iff {octet : UInt8} :
    formFault? arcLength (octet :: octets) = none ↔
      ¬(arcLength = 0 ∧ octet = 128) ∧ arcLength < maxArcOctets ∧
        formFault? (if isLast octet then 0 else arcLength + 1) octets = none := by
  rw [formFault?]
  split
  · next h => simp [h]
  · next h =>
    split
    · next hlong => simp [Nat.not_lt.mpr (Nat.le_of_lt_succ hlong)]
    · next hlong =>
      have hlt : arcLength < maxArcOctets := by omega
      simp only [h, hlt, not_false_iff, true_and]

/-- The check goes over a number that is not too long, and then starts again. -/
theorem formFault?_append {groups : Octets} (h : IsComplete groups)
    (hlength : arcLength + groups.length ≤ maxArcOctets)
    (hhead : arcLength = 0 → groups.head? ≠ some 128) :
    formFault? arcLength (groups ++ octets) = none ↔ formFault? 0 octets = none := by
  induction groups generalizing arcLength with
  | nil => exact absurd h not_isComplete_nil
  | cons octet groups ih =>
      have hoctet : ¬(arcLength = 0 ∧ octet = 128) := by
        rintro ⟨hzero, rfl⟩
        exact hhead hzero rfl
      rw [List.length_cons] at hlength
      rw [List.cons_append, formFault?_cons_eq_none_iff]
      rcases isComplete_cons_iff.mp h with ⟨hlast, rfl⟩ | ⟨hlast, hgroups⟩
      · rw [if_pos hlast]
        exact ⟨fun hfault => hfault.2.2, fun hfault => ⟨hoctet, by omega, hfault⟩⟩
      · rw [if_neg (by simp [hlast]), ih hgroups (by omega) (by omega)]
        exact ⟨fun hfault => hfault.2.2, fun hfault => ⟨hoctet, by omega, hfault⟩⟩

theorem exists_append_of_formFault? (h : formFault? arcLength octets = none) (hne : octets ≠ []) :
    ∃ groups rest, octets = groups ++ rest ∧ IsComplete groups ∧
      (arcLength = 0 → groups.head? ≠ some 128) ∧ formFault? 0 rest = none := by
  induction octets generalizing arcLength with
  | nil => exact absurd rfl hne
  | cons octet octets ih =>
      obtain ⟨hoctet, -, hrest⟩ := formFault?_cons_eq_none_iff.mp h
      have hhead : arcLength = 0 → some octet ≠ some 128 := fun hzero heq =>
        hoctet ⟨hzero, Option.some.inj heq⟩
      cases hlast : isLast octet with
      | true =>
          rw [if_pos hlast] at hrest
          exact ⟨[octet], octets, rfl, isComplete_cons_iff.mpr (.inl ⟨hlast, rfl⟩), hhead, hrest⟩
      | false =>
          rw [if_neg (by simp [hlast])] at hrest
          have hnonempty : octets ≠ [] := by
            rintro rfl
            simp [formFault?] at hrest
          obtain ⟨groups, rest, rfl, hgroups, -, hfault⟩ := ih hrest hnonempty
          exact ⟨octet :: groups, rest, rfl, isComplete_cons_iff.mpr (.inr ⟨hlast, hgroups⟩), hhead,
            hfault⟩

theorem exists_forms_of_formFault? (h : formFault? 0 octets = none) :
    ∃ forms : List Octets, octets = forms.flatten ∧ ∀ groups ∈ forms, IsShortest groups := by
  induction hsize : octets.length using Nat.strongRecOn generalizing octets with
  | ind size ih =>
      by_cases hne : octets = []
      · subst hne
        exact ⟨[], rfl, nofun⟩
      · obtain ⟨groups, rest, rfl, hgroups, hhead, hrest⟩ := exists_append_of_formFault? h hne
        have hpos : 0 < groups.length := List.length_pos_iff.mpr fun hnil =>
          not_isComplete_nil (hnil ▸ hgroups)
        rw [List.length_append] at hsize
        obtain ⟨forms, rfl, hforms⟩ := ih rest.length (by omega) hrest rfl
        exact ⟨groups :: forms, rfl, List.forall_mem_cons.mpr ⟨⟨hgroups, hhead rfl⟩, hforms⟩⟩

theorem length_le_maxArcOctets {groups : Octets} (h : IsShortest groups)
    (hvalue : value groups < 2 ^ 64) : groups.length ≤ maxArcOctets := by
  rw [← encode_value h.1 h.2]
  exact length_encode_le (hvalue.trans (by decide))

theorem formFault?_flatten {forms : List Octets}
    (h : ∀ groups ∈ forms, IsShortest groups ∧ value groups < 2 ^ 64) :
    formFault? 0 forms.flatten = none := by
  induction forms with
  | nil => rfl
  | cons groups forms ih =>
      obtain ⟨⟨hgroups, hvalue⟩, hforms⟩ := List.forall_mem_cons.mp h
      have hlength := length_le_maxArcOctets hgroups hvalue
      rw [List.flatten_cons, formFault?_append hgroups.1 (by omega) fun _ => hgroups.2]
      exact ih hforms

end Form

/-- The two checks of the size of numbers, by their octets and by their values, let exactly the
numbers of 64 bits through. -/
theorem fault?_eq_none_iff {content : Octets} : fault? content = none ↔ IsWellFormed content := by
  constructor
  · intro h
    rw [fault?] at h
    split at h
    · contradiction
    · next hne =>
      obtain ⟨hform, hsize⟩ := Option.or_eq_none_iff.mp h
      obtain ⟨forms, rfl, hforms⟩ := exists_forms_of_formFault? hform
      rw [decodeAll_flatten fun groups hgroups => (hforms groups hgroups).1] at hsize
      refine ⟨forms, ?_, rfl, fun groups hgroups => ⟨hforms groups hgroups, ?_⟩⟩
      · rintro rfl
        exact hne rfl
      · split at hsize
        · next hall =>
          exact of_decide_eq_true (List.all_eq_true.mp hall _ (List.mem_map_of_mem hgroups))
        · contradiction
  · rintro ⟨forms, hne, rfl, hforms⟩
    have hnonempty : forms.flatten.isEmpty = false := by
      obtain ⟨groups, others, rfl⟩ := List.exists_cons_of_ne_nil hne
      obtain ⟨⟨hgroups, -⟩, -⟩ := List.forall_mem_cons.mp hforms
      rcases groups with _ | ⟨octet, groups⟩
      · exact absurd hgroups.1 not_isComplete_nil
      · rfl
    rw [fault?, hnonempty, if_neg Bool.false_ne_true, formFault?_flatten hforms, Option.none_or,
      decodeAll_flatten fun groups hgroups => (hforms groups hgroups).1.1, if_pos]
    rw [List.all_map, List.all_eq_true]
    exact fun groups hgroups => decide_eq_true (hforms groups hgroups).2

theorem isWellFormed_iff_encode {content : Octets} :
    IsWellFormed content ↔ ∃ numbers : List Nat, numbers ≠ [] ∧
      content = numbers.flatMap encode ∧ ∀ n ∈ numbers, n < 2 ^ 64 := by
  constructor
  · rintro ⟨forms, hne, rfl, hforms⟩
    refine ⟨forms.map value, by simpa using hne, ?_, ?_⟩
    · rw [List.flatMap_map, ← List.flatMap_id]
      refine (List.flatMap_congr fun groups hgroups => ?_).symm
      obtain ⟨⟨hcomplete, hhead⟩, -⟩ := hforms groups hgroups
      exact encode_value hcomplete hhead
    · intro n hn
      obtain ⟨groups, hgroups, rfl⟩ := List.mem_map.mp hn
      exact (hforms groups hgroups).2
  · rintro ⟨numbers, hne, rfl, hnumbers⟩
    refine ⟨numbers.map encode, by simpa using hne, List.flatMap_def, ?_⟩
    intro groups hgroups
    obtain ⟨n, hn, rfl⟩ := List.mem_map.mp hgroups
    exact ⟨isShortest_encode n, by simpa using hnumbers n hn⟩

theorem exists_ofContent_iff {content : Octets} :
    (∃ oid, ofContent content = .ok oid) ↔ IsWellFormed content := by
  rw [← fault?_eq_none_iff]
  constructor
  · rintro ⟨oid, hoid⟩
    rw [← Builtin.content_of_ofContent hoid]
    exact oid.fault?_content
  · exact fun h => ⟨⟨content, h⟩, Builtin.ofContent_content ⟨content, h⟩⟩

theorem ofContent_eq_ok_iff {content : Octets} {oid : Oid} :
    ofContent content = .ok oid ↔ oid.content = content := by
  refine ⟨Builtin.content_of_ofContent, ?_⟩
  intro h
  exact h ▸ Builtin.ofContent_content oid

section Arcs

variable {first second : Nat} {rest arcs : List Nat} {oid : Oid}

/-- Whether the first two arcs can share a number. -/
def FitTogether (first second : Nat) : Prop :=
  first = 2 ∨ first < 2 ∧ second < 40

theorem splitFirst_eq_iff {number : Nat} {others : List Nat} :
    splitFirst (number :: others) = first :: second :: rest ↔
      FitTogether first second ∧ number = first * 40 + second ∧ others = rest := by
  simp only [splitFirst, FitTogether, List.cons.injEq]
  rw [← and_assoc, ← and_assoc]
  exact and_congr_left fun _ => by omega

theorem exists_numbers (oid : Oid) : ∃ number others,
    oid.content = (number :: others).flatMap encode ∧ (∀ n ∈ number :: others, n < 2 ^ 64) ∧
      oid.arcs = splitFirst (number :: others) := by
  obtain ⟨numbers, hne, hcontent, hnumbers⟩ :=
    isWellFormed_iff_encode.mp (fault?_eq_none_iff.mp oid.fault?_content)
  obtain ⟨number, others, rfl⟩ := List.exists_cons_of_ne_nil hne
  refine ⟨number, others, hcontent, hnumbers, ?_⟩
  rw [arcs, hcontent, decodeAll_flatMap_encode]

theorem arcs_eq_iff : oid.arcs = first :: second :: rest ↔
    FitTogether first second ∧ oid.content = ((first * 40 + second) :: rest).flatMap encode := by
  obtain ⟨number, others, hcontent, -, harcs⟩ := oid.exists_numbers
  rw [harcs, splitFirst_eq_iff, hcontent]
  constructor
  · rintro ⟨hfit, rfl, rfl⟩
    exact ⟨hfit, rfl⟩
  · rintro ⟨hfit, heq⟩
    have hnumbers := congrArg decodeAll heq
    rw [decodeAll_flatMap_encode, decodeAll_flatMap_encode, List.cons.injEq] at hnumbers
    exact ⟨hfit, hnumbers⟩

theorem exists_arcs (oid : Oid) : ∃ first second rest, oid.arcs = first :: second :: rest := by
  obtain ⟨number, others, -, -, harcs⟩ := oid.exists_numbers
  exact ⟨_, _, _, harcs⟩

theorem ofArcs_cons_eq_ok_iff : ofArcs (first :: second :: rest) = .ok oid ↔
    FitTogether first second ∧ oid.content = ((first * 40 + second) :: rest).flatMap encode := by
  rw [ofArcs]
  split
  · next h => rw [ofContent_eq_ok_iff, FitTogether, and_iff_right h]
  · next h => exact iff_of_false nofun fun hcontent => h hcontent.1

theorem ofArcs_eq_ok_iff : ofArcs arcs = .ok oid ↔ oid.arcs = arcs := by
  rcases arcs with _ | ⟨first, _ | ⟨second, rest⟩⟩
  · obtain ⟨first, second, rest, harcs⟩ := oid.exists_arcs
    simp [ofArcs, harcs]
  · obtain ⟨first, second, rest, harcs⟩ := oid.exists_arcs
    simp [ofArcs, harcs]
  · rw [ofArcs_cons_eq_ok_iff, arcs_eq_iff]

/-- The arcs that identifiers can have. There are at least two, the first of which is 0, 1 or 2, and
after 0 and 1 the second is below 40. All are numbers of 64 bits, and after 2 there is room for 80
more. -/
def IsLegal (arcs : List Nat) : Prop :=
  ∃ first second rest, arcs = first :: second :: rest ∧ first ≤ 2 ∧ (first < 2 → second < 40) ∧
    (first = 2 → second + 80 < 2 ^ 64) ∧ ∀ arc ∈ arcs, arc < 2 ^ 64

theorem isLegal_cons_iff : IsLegal (first :: second :: rest) ↔
    FitTogether first second ∧ ∀ n ∈ (first * 40 + second) :: rest, n < 2 ^ 64 := by
  simp only [IsLegal, FitTogether, List.cons.injEq, List.forall_mem_cons]
  constructor
  · rintro ⟨_, _, _, ⟨rfl, rfl, rfl⟩, hfirst, hsmall, hlarge, -, -, hrest⟩
    exact ⟨by omega, by omega, hrest⟩
  · rintro ⟨hfit, hnumber, hrest⟩
    exact ⟨_, _, _, ⟨rfl, rfl, rfl⟩, by omega, by omega, by omega, by omega, by omega, hrest⟩

theorem exists_arcs_eq_iff : (∃ oid : Oid, oid.arcs = arcs) ↔ IsLegal arcs := by
  constructor
  · rintro ⟨oid, rfl⟩
    obtain ⟨number, others, -, hnumbers, harcs⟩ := oid.exists_numbers
    obtain ⟨hfit, hnumber, -⟩ := splitFirst_eq_iff.mp (rfl : splitFirst (number :: others) = _)
    rw [harcs, splitFirst, isLegal_cons_iff, ← hnumber]
    exact ⟨hfit, hnumbers⟩
  · intro h
    obtain ⟨first, second, rest, rfl, -⟩ := id h
    obtain ⟨hfit, hnumbers⟩ := isLegal_cons_iff.mp h
    have hcontent := isWellFormed_iff_encode.mpr ⟨_, List.cons_ne_nil _ _, rfl, hnumbers⟩
    exact ⟨⟨_, fault?_eq_none_iff.mpr hcontent⟩, arcs_eq_iff.mpr ⟨hfit, rfl⟩⟩

theorem exists_ofArcs_iff : (∃ oid, ofArcs arcs = .ok oid) ↔ IsLegal arcs := by
  simp only [ofArcs_eq_ok_iff]
  exact exists_arcs_eq_iff

end Arcs

end Oid

end Asn1

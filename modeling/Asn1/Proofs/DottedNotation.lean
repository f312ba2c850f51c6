import Asn1.Proofs.ObjectIdentifiers

namespace Asn1.Oid

open Results

/-- A run of at least one decimal digit, and the number that it stands for. -/
def IsNumeral (chars : List Char) (n : Nat) : Prop :=
  chars ≠ [] ∧ (∀ char ∈ chars, char.isDigit = true) ∧ Nat.ofDigitChars 10 chars 0 = n

/-- A numeral, with or without a plus sign. -/
def IsSignedNumeral (chars : List Char) (n : Nat) : Prop :=
  IsNumeral chars n ∨ ∃ digits, chars = '+' :: digits ∧ IsNumeral digits n

/-- Whether a text consists of parts that stand for numbers, with single dots between them. -/
def IsDotted (isNumber : List Char → Nat → Prop) (text : String) (numbers : List Nat) : Prop :=
  ∃ parts, text.toList = ['.'].intercalate parts ∧ List.Forall₂ isNumber parts numbers

section Numerals

variable {chars : List Char} {n : Nat}

theorem isNumeral_toDigits (n : Nat) : IsNumeral (Nat.toDigits 10 n) n := by
  refine ⟨Nat.toDigits_ne_nil, ?_, Nat.ofDigitChars_ten_toDigits⟩
  intro _
  exact Nat.isDigit_of_mem_toDigits (by decide) (by decide)

theorem IsNumeral.not_mem {char : Char} (h : IsNumeral chars n) (hchar : char.isDigit = false) :
    char ∉ chars := by
  intro hmem
  have hdigit := h.2.1 char hmem
  rw [hchar] at hdigit
  contradiction

theorem IsSignedNumeral.not_mem_dot (h : IsSignedNumeral chars n) : '.' ∉ chars := by
  rcases h with hnumeral | ⟨digits, rfl, hnumeral⟩
  · exact hnumeral.not_mem rfl
  · rw [List.mem_cons, not_or]
    exact ⟨by decide, hnumeral.not_mem rfl⟩

theorem isSignedNumeral_iff_of_not_mem (h : '+' ∉ chars) :
    IsSignedNumeral chars n ↔ IsNumeral chars n := by
  constructor
  · rintro (hnumeral | ⟨digits, rfl, -⟩)
    · exact hnumeral
    · exact absurd List.mem_cons_self h
  · exact .inl

theorem readDigits?_eq_some_iff : readDigits? chars = some n ↔ IsNumeral chars n := by
  have hvalue : chars.foldl (fun n char => n * 10 + digitValue char) 0 =
      Nat.ofDigitChars 10 chars 0 := by
    rw [Nat.ofDigitChars_eq_foldl]
    simp only [digitValue, Nat.mul_comm]
  rw [readDigits?, hvalue, IsNumeral]
  split
  · next h =>
    simp only [Bool.or_eq_true, List.isEmpty_iff, Bool.not_eq_true'] at h
    simp only [reduceCtorEq, false_iff]
    rintro ⟨hne, hdigits, -⟩
    rw [List.all_eq_true.mpr hdigits] at h
    simp [hne] at h
  · next h =>
    simp only [Bool.or_eq_true, List.isEmpty_iff, Bool.not_eq_true', not_or,
      Bool.not_eq_false, List.all_eq_true] at h
    rw [Option.some_inj, and_iff_right h.1, and_iff_right h.2]

/-- Digits for a number of 64 bits. -/
def readBounded? (digits : List Char) : Option Nat :=
  (readDigits? digits).bind fun n => if n < arcBound then some n else none

theorem readBounded?_eq_some_iff :
    readBounded? chars = some n ↔ IsNumeral chars n ∧ n < 2 ^ 64 := by
  rw [readBounded?, Option.bind_eq_some_iff]
  simp only [readDigits?_eq_some_iff, Option.ite_none_right_eq_some, Option.some_inj]
  constructor
  · rintro ⟨m, hnumeral, hm, rfl⟩
    exact ⟨hnumeral, hm⟩
  · rintro ⟨hnumeral, hn⟩
    exact ⟨n, hnumeral, hn, rfl⟩

theorem readArc?_plus (digits : List Char) : readArc? ('+' :: digits) = readBounded? digits := by
  rw [readArc?, readBounded?]
  cases readDigits? digits <;> rfl

theorem readArc?_other (h : ∀ digits, chars ≠ '+' :: digits) :
    readArc? chars = readBounded? chars := by
  rw [readArc?.eq_2 chars h, readBounded?]
  cases readDigits? chars <;> rfl

theorem readArc?_eq_some_iff :
    readArc? chars = some n ↔ IsSignedNumeral chars n ∧ n < 2 ^ 64 := by
  by_cases hplus : ∃ digits, chars = '+' :: digits
  · obtain ⟨digits, rfl⟩ := hplus
    rw [readArc?_plus, readBounded?_eq_some_iff]
    refine and_congr_left fun _ => ⟨fun h => .inr ⟨digits, rfl, h⟩, ?_⟩
    rintro (hnumeral | ⟨_, heq, hnumeral⟩)
    · exact absurd List.mem_cons_self (hnumeral.not_mem rfl)
    · rwa [(List.cons_eq_cons.mp heq).2]
  · rw [readArc?_other (not_exists.mp hplus), readBounded?_eq_some_iff]
    refine and_congr_left fun _ => ⟨.inl, ?_⟩
    rintro (hnumeral | ⟨digits, heq, -⟩)
    · exact hnumeral
    · exact absurd ⟨digits, heq⟩ hplus

end Numerals

theorem mapM_eq_some_iff {α β : Type} {f : α → Option β} {as : List α} {bs : List β} :
    as.mapM f = some bs ↔ List.Forall₂ (fun a b => f a = some b) as bs := by
  induction as generalizing bs with
  | nil => simp [eq_comm]
  | cons a as ih =>
      rw [List.mapM_cons, List.forall₂_cons_left_iff]
      constructor
      · intro h
        obtain ⟨b, hb, hrest⟩ := Option.bind_eq_some_iff.mp h
        obtain ⟨others, hothers, heq⟩ := Option.bind_eq_some_iff.mp hrest
        exact ⟨b, others, hb, ih.mp hothers, (Option.some.inj heq).symm⟩
      · rintro ⟨b, others, hb, hothers, rfl⟩
        rw [hb, ih.mpr hothers]
        rfl

theorem mem_intercalate {α : Type} {a : α} {separator part : List α} {parts : List (List α)}
    (hpart : part ∈ parts) (ha : a ∈ part) : a ∈ separator.intercalate parts := by
  induction parts with
  | nil => exact absurd hpart List.not_mem_nil
  | cons first parts ih =>
      cases parts with
      | nil =>
          rw [List.intercalate_singleton]
          exact List.mem_singleton.mp hpart ▸ ha
      | cons second parts =>
          rw [List.intercalate_cons_cons, List.append_assoc, List.mem_append, List.mem_append]
          rcases List.mem_cons.mp hpart with rfl | hpart
          · exact .inl ha
          · exact .inr (.inr (ih hpart))

theorem not_mem_intercalate {α : Type} {a : α} {separator : List α} {parts : List (List α)}
    (hseparator : a ∉ separator) (hparts : ∀ part ∈ parts, a ∉ part) :
    a ∉ separator.intercalate parts := by
  induction parts with
  | nil => exact List.not_mem_nil
  | cons first parts ih =>
      have hfirst := hparts first List.mem_cons_self
      cases parts with
      | nil => rwa [List.intercalate_singleton]
      | cons second parts =>
          rw [List.intercalate_cons_cons, List.append_assoc, List.mem_append, List.mem_append]
          exact not_or.mpr ⟨hfirst, not_or.mpr
            ⟨hseparator, ih fun part hpart => hparts part (List.mem_cons_of_mem _ hpart)⟩⟩

theorem splitDots_eq_splitOn (chars : List Char) : splitDots chars = chars.splitOn '.' := by
  induction chars with
  | nil => rfl
  | cons char rest ih =>
      rw [List.splitOn_cons_eq_if_modifyHead, ← ih]
      by_cases hdot : char = '.'
      · subst hdot
        rfl
      · have hne : splitDots rest ≠ [] := ih ▸ List.splitOn_ne_nil '.' rest
        obtain ⟨part, parts, hparts⟩ := List.exists_cons_of_ne_nil hne
        rw [splitDots.eq_3 char rest (by simpa using hdot), hparts, if_neg (by simpa using hdot)]
        rfl

section Notation

variable {text : String} {arcs : List Nat} {oid : Oid}

theorem mapM_readArc?_eq_some_iff (hne : arcs ≠ []) :
    (splitDots text.toList).mapM readArc? = some arcs ↔
      IsDotted IsSignedNumeral text arcs ∧ ∀ arc ∈ arcs, arc < 2 ^ 64 := by
  rw [splitDots_eq_splitOn, mapM_eq_some_iff]
  simp only [readArc?_eq_some_iff]
  constructor
  · intro h
    refine ⟨⟨_, (List.intercalate_splitOn '.').symm, h.imp fun _ _ => And.left⟩, fun arc harc => ?_⟩
    obtain ⟨part, -, -, hbound⟩ := forall₂_exists_of_mem h harc
    exact hbound
  · rintro ⟨⟨parts, htext, hparts⟩, hbound⟩
    have hdots : ∀ part ∈ parts, '.' ∉ part := by
      intro part hpart
      obtain ⟨n, -, hnumeral⟩ := forall₂_exists_of_mem hparts.flip hpart
      exact IsSignedNumeral.not_mem_dot hnumeral
    have hnonempty : parts ≠ [] := by
      rintro rfl
      exact hne (List.forall₂_nil_left_iff.mp hparts)
    rw [htext, List.splitOn_intercalate '.' hdots hnonempty]
    exact forall₂_imp_of_mem hparts fun _ _ arc harc hnumeral => ⟨hnumeral, hbound arc harc⟩

/-- An identifier is read from every dotted notation of its arcs. -/
theorem ofText_eq_ok_iff : ofText text = .ok oid ↔ IsDotted IsSignedNumeral text oid.arcs := by
  obtain ⟨first, second, rest, harcs⟩ := oid.exists_arcs
  have hne : oid.arcs ≠ [] := by simp [harcs]
  have hbound : ∀ arc ∈ oid.arcs, arc < 2 ^ 64 := by
    obtain ⟨_, _, _, -, -, -, -, hbound⟩ := exists_arcs_eq_iff.mp ⟨oid, rfl⟩
    exact hbound
  constructor
  · intro h
    rw [ofText] at h
    split at h
    · next arcs hread =>
      obtain rfl := ofArcs_eq_ok_iff.mp h
      exact ((mapM_readArc?_eq_some_iff hne).mp hread).1
    · contradiction
  · intro h
    rw [ofText, (mapM_readArc?_eq_some_iff hne).mpr ⟨h, hbound⟩]
    exact ofArcs_eq_ok_iff.mpr rfl

theorem isDotted_text (oid : Oid) : IsDotted IsNumeral oid.text oid.arcs := by
  refine ⟨oid.arcs.map (Nat.toDigits 10), ?_, ?_⟩
  · rw [Oid.text, String.toList_intercalate, List.map_map]
    congr 2
    funext arc
    exact Nat.toList_repr
  · exact List.forall₂_map_left_iff.mpr (List.forall₂_same.mpr fun arc _ => isNumeral_toDigits arc)

theorem ofText_text (oid : Oid) : ofText oid.text = .ok oid := by
  obtain ⟨parts, htext, hparts⟩ := oid.isDotted_text
  exact ofText_eq_ok_iff.mpr ⟨parts, htext, hparts.imp fun _ _ => .inl⟩

theorem isDotted_isNumeral_iff :
    IsDotted IsNumeral text arcs ↔ IsDotted IsSignedNumeral text arcs ∧ '+' ∉ text.toList := by
  constructor
  · rintro ⟨parts, htext, hparts⟩
    refine ⟨⟨parts, htext, hparts.imp fun _ _ => .inl⟩, ?_⟩
    rw [htext]
    refine not_mem_intercalate (by decide) fun part hpart => ?_
    obtain ⟨n, -, hnumeral⟩ := forall₂_exists_of_mem hparts.flip hpart
    exact IsNumeral.not_mem hnumeral rfl
  · rintro ⟨⟨parts, htext, hparts⟩, hplus⟩
    refine ⟨parts, htext, forall₂_imp_of_mem hparts fun part hpart n _ hnumeral => ?_⟩
    apply (isSignedNumeral_iff_of_not_mem ?_).mp hnumeral
    intro hmem
    exact hplus (htext ▸ mem_intercalate hpart hmem)

theorem exists_ofText_iff :
    (∃ oid, ofText text = .ok oid) ↔ ∃ arcs, IsDotted IsSignedNumeral text arcs ∧ IsLegal arcs := by
  constructor
  · rintro ⟨oid, hread⟩
    exact ⟨oid.arcs, ofText_eq_ok_iff.mp hread, exists_arcs_eq_iff.mp ⟨oid, rfl⟩⟩
  · rintro ⟨arcs, hdotted, hlegal⟩
    obtain ⟨oid, rfl⟩ := exists_arcs_eq_iff.mpr hlegal
    exact ⟨oid, ofText_eq_ok_iff.mpr hdotted⟩

end Notation

/-- Content, arcs and text of identifiers determine each other. Identifiers can be made of all well
formed contents and of all legal arcs, and each is made again from its arcs, its content and its
text. -/
theorem determined_by_forms :
    (∀ content, (∃ oid, ofContent content = .ok oid) ↔ IsWellFormed content) ∧
      (∀ content oid, ofContent content = .ok oid →
        oid.content = content ∧ ofArcs oid.arcs = .ok oid) ∧
      (∀ arcs, (∃ oid, ofArcs arcs = .ok oid) ↔ IsLegal arcs) ∧
      (∀ arcs oid, ofArcs arcs = .ok oid → oid.arcs = arcs ∧ ofContent oid.content = .ok oid) ∧
      ∀ oid : Oid, ofText oid.text = .ok oid := by
  refine ⟨fun _ => exists_ofContent_iff, ?_, fun _ => exists_ofArcs_iff, ?_, ofText_text⟩
  · intro content oid h
    exact ⟨ofContent_eq_ok_iff.mp h, ofArcs_eq_ok_iff.mpr rfl⟩
  · intro arcs oid h
    exact ⟨ofArcs_eq_ok_iff.mp h, ofContent_eq_ok_iff.mpr rfl⟩

/-- The largest number that the first two arcs can share. -/
theorem determined_by_forms_largest :
    let content : Octets := [0x81, 0xFF, 0xFF, 0xFF, 0xFF, 0xFF, 0xFF, 0xFF, 0xFF, 0x7F]
    let arcs := [2, 18446744073709551535]
    ∃ oid, ofContent content = .ok oid ∧ oid.content = content ∧ ofArcs oid.arcs = .ok oid ∧
      ofArcs arcs = .ok oid ∧ oid.arcs = arcs ∧ ofContent oid.content = .ok oid := by
  intro content arcs
  obtain ⟨-, hcontent, -, harcs, -⟩ := determined_by_forms
  have hvalid : fault? content = none := by decide +kernel
  have hread : ofContent content = .ok ⟨content, hvalid⟩ := ofContent_eq_ok_iff.mpr rfl
  have hmade : ofArcs arcs = .ok ⟨content, hvalid⟩ := by
    apply ofArcs_eq_ok_iff.mpr
    change splitFirst (Base128.decodeAll content) = arcs
    decide +kernel
  obtain ⟨hsame, hagain⟩ := hcontent _ _ hread
  obtain ⟨hsplit, hchecked⟩ := harcs _ _ hmade
  exact ⟨_, hread, hsame, hagain, hmade, hsplit, hchecked⟩

/-- What is read are the dotted notations of legal arcs, where any of the numerals may have a plus
sign. Those without plus signs are all in dotted notation. -/
theorem reads_dotted (text : String) :
    ((∃ oid, ofText text = .ok oid) ↔ ∃ arcs, IsDotted IsSignedNumeral text arcs ∧ IsLegal arcs) ∧
      ((∃ oid, ofText text = .ok oid) ∧ '+' ∉ text.toList ↔
        ∃ arcs, IsDotted IsNumeral text arcs ∧ IsLegal arcs) := by
  refine ⟨exists_ofText_iff, ?_⟩
  rw [exists_ofText_iff, ← exists_and_right]
  refine exists_congr fun arcs => ?_
  rw [isDotted_isNumeral_iff, and_right_comm]

theorem exists_signed_arc : (∃ oid, ofText "+1.2" = .ok oid) ∧
    ¬∃ arcs, IsDotted IsNumeral "+1.2" arcs ∧ IsLegal arcs := by
  refine ⟨⟨⟨[0x2A], by decide⟩, by decide +kernel⟩, ?_⟩
  rintro ⟨arcs, hdotted, -⟩
  exact (isDotted_isNumeral_iff.mp hdotted).2 (by simp)

end Asn1.Oid

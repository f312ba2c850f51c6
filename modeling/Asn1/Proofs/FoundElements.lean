import Asn1.Proofs.HeaderForms

/-!
The elements that are found in octets by descending through all constructed elements, whether or
not their headers have the shortest form, and what encoding rules demand of each of them. Elements
are found in octets from front to back: those of definite length one after the other, while the
content of an element of indefinite length is part of what follows its header.
-/

namespace Asn1

open Read

theorem Base128.IsComplete.unique {a b resta restb : Octets} (ha : IsComplete a)
    (hb : IsComplete b) (h : a ++ resta = b ++ restb) : a = b := by
  induction a generalizing b with
  | nil => exact absurd ha not_isComplete_nil
  | cons octet groups ih =>
      cases b with
      | nil => exact absurd hb not_isComplete_nil
      | cons other others =>
          obtain ⟨rfl, hrest⟩ := List.cons_eq_cons.mp h
          rcases isComplete_cons_iff.mp ha with ⟨hlast, rfl⟩ | ⟨hlast, hgroups⟩ <;>
            rcases isComplete_cons_iff.mp hb with ⟨hother, rfl⟩ | ⟨hother, hothers⟩
          · rfl
          · simp [hlast] at hother
          · simp [hlast] at hother
          · rw [ih hgroups hothers hrest]

namespace Identifier

/-- Octets that can be taken for an identifier: its number is in the first octet or in groups behind
it, also if it needs none or not so many of them. -/
def IsForm (octets : Octets) (identifier : Identifier) : Prop :=
  ∃ low groups, octets = identifier.firstOctet low :: groups ∧
    (low < 31 ∧ groups = [] ∧ low = identifier.tag.number.toNat ∨
      low = 31 ∧ Base128.IsComplete groups ∧
        Base128.value groups = identifier.tag.number.toNat)

theorem isForm_octets (identifier : Identifier) : IsForm identifier.octets identifier := by
  refine ⟨_, _, octets_eq identifier, ?_⟩
  split
  · next h => exact .inl ⟨by omega, rfl, by omega⟩
  · next h =>
    exact .inr ⟨by omega, Base128.isComplete_encode _, Base128.value_encode _⟩

theorem eq_of_firstOctet_eq {a b : Identifier} {low other : Nat} (hlow : low < 32)
    (hother : other < 32) (h : a.firstOctet low = b.firstOctet other) :
    a.tag.tagClass = b.tag.tagClass ∧ a.constructed = b.constructed ∧ low = other := by
  refine ⟨?_, ?_, ?_⟩
  · rw [← ofOctet_firstOctet a hlow, h, ofOctet_firstOctet b hother]
  · rw [← isConstructedOctet_firstOctet a hlow, h, isConstructedOctet_firstOctet b hother]
  · have hnat := congrArg (·.toNat % 32) h
    simp only [toNat_firstOctet a hlow, toNat_firstOctet b hother] at hnat
    split at hnat <;> split at hnat <;> omega

theorem IsForm.unique {a b resta restb : Octets} {identifier other : Identifier}
    (ha : IsForm a identifier) (hb : IsForm b other) (h : a ++ resta = b ++ restb) :
    a = b ∧ identifier = other := by
  obtain ⟨low, groups, rfl, hgroups⟩ := ha
  obtain ⟨low', groups', rfl, hgroups'⟩ := hb
  obtain ⟨hfirst, hrest⟩ := List.cons_eq_cons.mp h
  obtain ⟨hclass, hconstructed, rfl⟩ :=
    eq_of_firstOctet_eq (by omega) (by omega) hfirst
  have hsame : groups = groups' ∧
      identifier.tag.number.toNat = other.tag.number.toNat := by
    rcases hgroups with ⟨hlow, rfl, hnumber⟩ | ⟨rfl, hcomplete, hnumber⟩ <;>
      rcases hgroups' with ⟨hlow', rfl, hnumber'⟩ | ⟨hlow', hcomplete', hnumber'⟩
    · exact ⟨rfl, hnumber.symm.trans hnumber'⟩
    · omega
    · omega
    · obtain rfl := hcomplete.unique hcomplete' hrest
      exact ⟨rfl, hnumber.symm.trans hnumber'⟩
  obtain ⟨⟨tagClass, number⟩, constructed⟩ := identifier
  obtain ⟨⟨tagClass', number'⟩, constructed'⟩ := other
  obtain rfl : number = number' := UInt32.toNat_inj.mp hsame.2
  obtain rfl : tagClass = tagClass' := hclass
  obtain rfl : constructed = constructed' := hconstructed
  exact ⟨by rw [hfirst, hsame.1], rfl⟩

end Identifier

/-- Octets that can be taken for the header of an element. Indefinite length is for constructed
elements. -/
def IsHeaderForm (form : Octets) (identifier : Identifier) (length : Length) : Prop :=
  (∃ a b, form = a ++ b ∧ identifier.IsForm a ∧ Length.IsForm .ber b length) ∧
    (length = .indefinite → identifier.constructed = true)

namespace IsHeaderForm

variable {form other rest after : Octets} {identifier identifier' : Identifier}
  {length length' : Length}

theorem unique (h : IsHeaderForm form identifier length)
    (h' : IsHeaderForm other identifier' length') (heq : form ++ rest = other ++ after) :
    form = other ∧ rest = after ∧ identifier = identifier' ∧ length = length' := by
  obtain ⟨⟨a, b, rfl, ha, hb⟩, -⟩ := h
  obtain ⟨⟨c, d, rfl, hc, hd⟩, -⟩ := h'
  simp only [List.append_assoc] at heq
  obtain ⟨rfl, rfl⟩ := ha.unique hc heq
  have hread : (Length.read .ber).Reads 0 b length := Length.reads_read_iff.mpr hb
  obtain ⟨rfl, rfl, rfl⟩ :=
    hread.unique (Length.reads_read_iff.mpr hd) (List.append_cancel_left heq)
  exact ⟨rfl, rfl, rfl, rfl⟩

theorem ne_nil (h : IsHeaderForm form identifier length) : form ≠ [] := by
  obtain ⟨⟨_, b, rfl, ⟨low, groups, rfl, -⟩, -⟩, -⟩ := h
  exact List.cons_ne_nil _ _

theorem definite (identifier : Identifier) {size : Nat} (h : size < Length.sizeBound) :
    IsHeaderForm (identifier.octets ++ (Length.definite size).octets) identifier
      (.definite size) := by
  refine ⟨⟨_, _, rfl, identifier.isForm_octets, Length.isForm_octets _ ?_⟩, nofun⟩
  rintro _ ⟨⟩
  exact h

theorem indefinite (tag : Tag) :
    IsHeaderForm ((Identifier.mk tag true).octets ++ Length.indefinite.octets) ⟨tag, true⟩
      .indefinite := by
  refine ⟨⟨_, _, rfl, Identifier.isForm_octets _, rfl⟩, ?_⟩
  intro _
  rfl

end IsHeaderForm

/-- An element that is found in octets. -/
structure FoundElement where
  /-- The octets of the header. -/
  form : Octets
  identifier : Identifier
  length : Length
  /-- The octets behind the header: the content and all that follows it. -/
  behind : Octets

/-- The elements that are found in octets, those inside other elements included. -/
inductive Finds : Octets → FoundElement → Prop
  | definite {form content rest : Octets} {identifier : Identifier}
    (hform : IsHeaderForm form identifier (.definite content.length)) :
    Finds (form ++ (content ++ rest))
      ⟨form, identifier, .definite content.length, content ++ rest⟩
  | indefinite {form rest : Octets} {identifier : Identifier}
    (hform : IsHeaderForm form identifier .indefinite) :
    Finds (form ++ rest) ⟨form, identifier, .indefinite, rest⟩
  | inside {form content rest : Octets} {identifier : Identifier} {found : FoundElement}
    (hform : IsHeaderForm form identifier (.definite content.length))
    (hconstructed : identifier.constructed = true) (hfound : Finds content found) :
    Finds (form ++ (content ++ rest)) found
  | after {form content rest : Octets} {identifier : Identifier} {found : FoundElement}
    (hform : IsHeaderForm form identifier (.definite content.length))
    (hfound : Finds rest found) :
    Finds (form ++ (content ++ rest)) found
  | behind {form rest : Octets} {identifier : Identifier} {found : FoundElement}
    (hform : IsHeaderForm form identifier .indefinite) (hfound : Finds rest found) :
    Finds (form ++ rest) found

/-- Whether octets close a number of contents of indefinite length: as many end-of-contents markers
follow, those of elements of indefinite length between them not counted. -/
inductive Closes : Nat → Octets → Prop
  | done {octets : Octets} : Closes 0 octets
  | marker {depth : Nat} {form rest : Octets}
    (hform : IsHeaderForm form .endOfContents (.definite 0)) (hrest : Closes depth rest) :
    Closes (depth + 1) (form ++ rest)
  | definite {depth : Nat} {form content rest : Octets} {identifier : Identifier}
    (hform : IsHeaderForm form identifier (.definite content.length))
    (hmark : identifier ≠ .endOfContents ∨ content ≠ []) (hrest : Closes depth rest) :
    Closes depth (form ++ (content ++ rest))
  | indefinite {depth : Nat} {form rest : Octets} {identifier : Identifier}
    (hform : IsHeaderForm form identifier .indefinite) (hrest : Closes (depth + 1) rest) :
    Closes depth (form ++ rest)

/-- What rules demand of an element: identifier and length have their shortest form, and a
constructed element has a length that the rules allow. Indefinite length has to be closed by an
end-of-contents marker. -/
def FoundElement.Obeys (rules : EncodingRules) (element : FoundElement) : Prop :=
  element.form = element.identifier.octets ++ element.length.octets ∧
    match element.length with
    | .definite _ =>
      element.identifier.constructed = true → rules.allowsDefiniteConstructed = true
    | .indefinite => rules.allowsIndefiniteConstructed = true ∧ Closes 1 element.behind

/-- Whether all elements found in octets obey the rules. -/
def Obeys (rules : EncodingRules) (octets : Octets) : Prop :=
  ∀ element, Finds octets element → element.Obeys rules

section Elements

variable {rules : EncodingRules} {form content rest : Octets} {identifier : Identifier}
  {element : FoundElement}

theorem not_finds_nil : ¬Finds [] element := by
  intro h
  generalize hoctets : ([] : Octets) = octets at h
  cases h with
  | definite hform | indefinite hform | inside hform | after hform | behind hform =>
      exact hform.ne_nil (List.append_eq_nil_iff.mp hoctets.symm).1

theorem finds_definite_iff (hform : IsHeaderForm form identifier (.definite content.length)) :
    Finds (form ++ (content ++ rest)) element ↔
      element = ⟨form, identifier, .definite content.length, content ++ rest⟩ ∨
        (identifier.constructed = true ∧ Finds content element) ∨ Finds rest element := by
  constructor
  · intro h
    generalize hoctets : form ++ (content ++ rest) = octets at h
    cases h with
    | definite hform' =>
        obtain ⟨rfl, hrest, rfl, hlength⟩ := hform.unique hform' hoctets
        obtain ⟨rfl, rfl⟩ := List.append_inj hrest (Length.definite.inj hlength)
        exact .inl rfl
    | indefinite hform' =>
        obtain ⟨-, -, -, hlength⟩ := hform.unique hform' hoctets
        contradiction
    | inside hform' hconstructed hfound =>
        obtain ⟨rfl, hrest, rfl, hlength⟩ := hform.unique hform' hoctets
        obtain ⟨rfl, rfl⟩ := List.append_inj hrest (Length.definite.inj hlength)
        exact .inr (.inl ⟨hconstructed, hfound⟩)
    | after hform' hfound =>
        obtain ⟨rfl, hrest, rfl, hlength⟩ := hform.unique hform' hoctets
        obtain ⟨rfl, rfl⟩ := List.append_inj hrest (Length.definite.inj hlength)
        exact .inr (.inr hfound)
    | behind hform' _ =>
        obtain ⟨-, -, -, hlength⟩ := hform.unique hform' hoctets
        contradiction
  · rintro (rfl | ⟨hconstructed, hfound⟩ | hfound)
    · exact .definite hform
    · exact .inside hform hconstructed hfound
    · exact .after hform hfound

theorem finds_indefinite_iff (hform : IsHeaderForm form identifier .indefinite) :
    Finds (form ++ rest) element ↔
      element = ⟨form, identifier, .indefinite, rest⟩ ∨ Finds rest element := by
  constructor
  · intro h
    generalize hoctets : form ++ rest = octets at h
    cases h with
    | indefinite hform' =>
        obtain ⟨rfl, rfl, rfl, -⟩ := hform.unique hform' hoctets
        exact .inl rfl
    | behind hform' hfound =>
        obtain ⟨rfl, rfl, rfl, -⟩ := hform.unique hform' hoctets
        exact .inr hfound
    | definite hform' | inside hform' | after hform' =>
        obtain ⟨-, -, -, hlength⟩ := hform.unique hform' hoctets
        contradiction
  · rintro (rfl | hfound)
    · exact .indefinite hform
    · exact .behind hform hfound

theorem obeys_nil (rules : EncodingRules) : Obeys rules [] := by
  intro _ hfound
  exact absurd hfound not_finds_nil

theorem obeys_definite_iff (hform : IsHeaderForm form identifier (.definite content.length)) :
    Obeys rules (form ++ (content ++ rest)) ↔
      form = identifier.octets ++ (Length.definite content.length).octets ∧
        (identifier.constructed = true →
          rules.allowsDefiniteConstructed = true ∧ Obeys rules content) ∧ Obeys rules rest := by
  simp only [Obeys, finds_definite_iff hform]
  constructor
  · intro h
    obtain ⟨hshortest, hdefinite⟩ := h _ (.inl rfl)
    refine ⟨hshortest, fun hconstructed => ⟨hdefinite hconstructed, fun element hfound => ?_⟩,
      fun element hfound => h element (.inr (.inr hfound))⟩
    exact h element (.inr (.inl ⟨hconstructed, hfound⟩))
  · rintro ⟨hshortest, hcontent, hrest⟩ element (rfl | ⟨hconstructed, hfound⟩ | hfound)
    · exact ⟨hshortest, fun hconstructed => (hcontent hconstructed).1⟩
    · exact (hcontent hconstructed).2 element hfound
    · exact hrest element hfound

theorem obeys_indefinite_iff (hform : IsHeaderForm form identifier .indefinite) :
    Obeys rules (form ++ rest) ↔
      form = identifier.octets ++ Length.indefinite.octets ∧
        rules.allowsIndefiniteConstructed = true ∧ Closes 1 rest ∧ Obeys rules rest := by
  simp only [Obeys, finds_indefinite_iff hform]
  constructor
  · intro h
    obtain ⟨hshortest, hindefinite, hcloses⟩ := h _ (.inl rfl)
    exact ⟨hshortest, hindefinite, hcloses, fun element hfound => h element (.inr hfound)⟩
  · rintro ⟨hshortest, hindefinite, hcloses, hrest⟩ element (rfl | hfound)
    · exact ⟨hshortest, hindefinite, hcloses⟩
    · exact hrest element hfound

theorem Closes.of_succ {depth : Nat} {octets : Octets} (h : Closes (depth + 1) octets) :
    Closes depth octets := by
  generalize hdepth : depth + 1 = outer at h
  induction h generalizing depth with
  | done => contradiction
  | marker hform hrest ih =>
      obtain rfl := Nat.succ.inj hdepth
      cases depth with
      | zero => exact .done
      | succ depth => exact .marker hform (ih rfl)
  | definite hform hmark _ ih => exact .definite hform hmark (ih hdepth)
  | indefinite hform _ ih => exact .indefinite hform (ih (congrArg (· + 1) hdepth))

end Elements

/-- Octets that are whole elements and obey the rules under a condition. The elements behind them
are the ones that are found in what follows, and so are the markers that close the contents in which
the elements stand. -/
structure IsWhole (rules : EncodingRules) (condition : Prop) (octets : Octets) : Prop where
  obeys_append_iff (rest : Octets) : Obeys rules (octets ++ rest) ↔ condition ∧ Obeys rules rest
  closes_append {depth : Nat} {rest : Octets} : Closes depth rest → Closes depth (octets ++ rest)

namespace IsWhole

variable {rules : EncodingRules} {condition other : Prop} {octets c d : Octets}

theorem obeys_iff (h : IsWhole rules condition octets) : Obeys rules octets ↔ condition := by
  have happend := h.obeys_append_iff []
  rw [List.append_nil] at happend
  rw [happend]
  exact and_iff_left (obeys_nil rules)

theorem congr (h : IsWhole rules condition octets) (hiff : condition ↔ other) :
    IsWhole rules other octets := by
  refine ⟨?_, h.closes_append⟩
  intro rest
  exact (h.obeys_append_iff rest).trans (and_congr_left' hiff)

theorem nil : IsWhole rules True [] := by
  refine ⟨?_, id⟩
  intro _
  simp

theorem append (hc : IsWhole rules condition c) (hd : IsWhole rules other d) :
    IsWhole rules (condition ∧ other) (c ++ d) := by
  refine ⟨fun rest => ?_, fun hrest => ?_⟩
  · rw [List.append_assoc, hc.obeys_append_iff, hd.obeys_append_iff, and_assoc]
  · rw [List.append_assoc]
    exact hc.closes_append (hd.closes_append hrest)

/-- Pieces that are whole elements, one for each of the things that they stand for. -/
theorem flatten {α : Type} {condition : α → Prop} {parts : List α} {pieces : List Octets}
    (h : List.Forall₂ (fun part piece => piece.length < Length.sizeBound →
      IsWhole rules (condition part) piece) parts pieces)
    (hsize : pieces.flatten.length < Length.sizeBound) :
    IsWhole rules (∀ part ∈ parts, condition part) pieces.flatten := by
  induction h with
  | nil => exact nil.congr (by simp)
  | cons hpart _ ih =>
      rw [List.flatten_cons, List.length_append] at hsize
      exact ((hpart (by omega)).append (ih (by omega))).congr (by simp)

theorem definite (identifier : Identifier) {content : Octets}
    (hsize : content.length < Length.sizeBound) :
    IsWhole rules (identifier.constructed = true →
        rules.allowsDefiniteConstructed = true ∧ Obeys rules content)
      (identifier.octets ++ (Length.definite content.length).octets ++ content) := by
  have hform := IsHeaderForm.definite identifier hsize
  refine ⟨fun rest => ?_, fun {depth rest} hrest => ?_⟩
  · rw [List.append_assoc _ content, obeys_definite_iff hform]
    exact and_iff_right rfl
  · rw [List.append_assoc _ content]
    by_cases hmark : identifier = .endOfContents ∧ content = []
    · obtain ⟨rfl, rfl⟩ := hmark
      cases depth with
      | zero => exact .done
      | succ depth => exact .marker hform hrest.of_succ
    · exact .definite hform (by tauto) hrest

theorem primitive (tag : Tag) {content : Octets} (hsize : content.length < Length.sizeBound) :
    IsWhole rules True
      ((Identifier.mk tag false).octets ++ (Length.definite content.length).octets ++ content) := by
  apply (definite ⟨tag, false⟩ hsize).congr
  rw [iff_true]
  rintro ⟨⟩

theorem indefinite (tag : Tag) {content : Octets} (hcontent : IsWhole rules condition content)
    (hrules : rules.allowsIndefiniteConstructed = true) :
    IsWhole rules condition ((Identifier.mk tag true).octets ++ Length.indefinite.octets ++
      (content ++ Header.endOfContents)) := by
  have hform := IsHeaderForm.indefinite tag
  have hmark : IsHeaderForm Header.endOfContents .endOfContents (.definite 0) :=
    .definite _ (by decide)
  have hend : IsWhole rules True (Header.endOfContents ++ []) :=
    primitive (Tag.universal 0) (show ([] : Octets).length < Length.sizeBound by decide)
  rw [List.append_nil] at hend
  refine ⟨fun rest => ?_, fun hrest => ?_⟩
  · have hcloses : Closes 1 (content ++ (Header.endOfContents ++ rest)) :=
      hcontent.closes_append (.marker hmark .done)
    rw [List.append_assoc _ (content ++ _), List.append_assoc content, obeys_indefinite_iff hform,
      hcontent.obeys_append_iff, hend.obeys_append_iff]
    simp [hrules, hcloses]
  · rw [List.append_assoc _ (content ++ _), List.append_assoc content]
    exact .indefinite hform (hcontent.closes_append (.marker hmark hrest))

end IsWhole

end Asn1

import Asn1.Captured.Read
import Asn1.Proofs.HeaderForms

namespace Asn1

open Read Source

namespace Captured

variable {rules : EncodingRules}

section Elements

variable {copy : Header → Read Octets}

/-- The elements up to the end-of-contents marker, and what is copied of them. -/
inductive Copies (rules : EncodingRules) (copy : Header → Read Octets) :
    Nat → Octets → Octets → Prop
  | last {position : Nat} {form content copied : Octets} {header : Header}
    (hform : Header.IsForm rules position form header) (hheader : header.isEndOfContents = true)
    (hcopy : (copy header).Reads (position + form.length) content copied) :
    Copies rules copy position (form ++ content) copied
  | cons {position : Nat} {form content octets copied others : Octets} {header : Header}
    (hform : Header.IsForm rules position form header) (hheader : header.isEndOfContents = false)
    (hcopy : (copy header).Reads (position + form.length) content copied)
    (hrest : Copies rules copy (position + form.length + content.length) octets others) :
    Copies rules copy position (form ++ (content ++ octets)) (copied ++ others)

theorem outcome_copyElements_zero (source : Source) :
    (copyElements rules copy 0).outcome source =
      (.error (.format .missingEndOfContents source.position), source) :=
  rfl

theorem exists_copies (hlocal : ∀ header, (copy header).IsLocal) {count : Nat} {octets : Octets}
    {position : Nat} {result : Octets} {source : Source}
    (h : (copyElements rules copy count).outcome (Source.ofOctets octets position) =
      (.ok result, source)) :
    ∃ c rest, octets = c ++ rest ∧ source = Source.ofOctets rest (position + c.length) ∧
      Copies rules copy position c result := by
  induction count generalizing octets position result source with
  | zero => simp [outcome_copyElements_zero] at h
  | succ count ih =>
      rw [copyElements, outcome_bind_of_ok (outcome_position _)] at h
      obtain ⟨found, middle, hfound, hlast⟩ := exists_of_outcome_bind h
      rcases found with _ | header
      · simp at hlast
      · obtain ⟨form, rest, rfl, rfl, hform⟩ := Header.outcome_read?_eq_some_iff.mp hfound
        obtain ⟨copied, middle, hcopied, hlast⟩ := exists_of_outcome_bind hlast
        obtain ⟨content, rest, rfl, rfl, hcopy⟩ := hlocal header _ _ _ _ hcopied
        cases hheader : header.isEndOfContents with
        | true =>
            simp only [hheader, if_true, outcome_pure, Prod.mk.injEq, Except.ok.injEq] at hlast
            obtain ⟨rfl, rfl⟩ := hlast
            exact ⟨form ++ content, rest, by simp, by simp [Nat.add_assoc],
              .last hform hheader hcopy⟩
        | false =>
            simp only [hheader, Bool.false_eq_true, if_false] at hlast
            obtain ⟨others, middle, hothers, hlast⟩ := exists_of_outcome_bind hlast
            obtain ⟨tail, rest, rfl, rfl, htail⟩ := ih hothers
            simp only [outcome_pure, Prod.mk.injEq, Except.ok.injEq] at hlast
            obtain ⟨rfl, rfl⟩ := hlast
            exact ⟨form ++ (content ++ tail), rest, by simp, by simp [Nat.add_assoc],
              .cons hform hheader hcopy htail⟩

theorem Copies.reads {position : Nat} {octets result : Octets}
    (h : Copies rules copy position octets result) {count : Nat} (hcount : octets.length < count) :
    (copyElements rules copy count).Reads position octets result := by
  induction h generalizing count with
  | @last position form content copied header hform hheader hcopy =>
      obtain ⟨count, rfl⟩ := Nat.exists_eq_add_of_lt hcount
      intro rest
      rw [copyElements, outcome_bind_of_ok (outcome_position _), List.append_assoc,
        outcome_bind_of_ok (Header.outcome_read?_eq_some_iff.mpr ⟨form, _, rfl, rfl, hform⟩)]
      simp only
      rw [outcome_bind_of_ok (hcopy rest)]
      simp [hheader, Nat.add_assoc]
  | @cons position form content octets copied others header hform hheader hcopy hrest ih =>
      have hpos := List.length_pos_iff.mpr hform.ne_nil
      obtain ⟨count, rfl⟩ : ∃ rest, count = rest + 1 := Nat.exists_eq_add_of_le' (by omega)
      intro rest
      rw [copyElements, outcome_bind_of_ok (outcome_position _)]
      simp only [List.append_assoc]
      rw [outcome_bind_of_ok (Header.outcome_read?_eq_some_iff.mpr ⟨form, _, rfl, rfl, hform⟩)]
      simp only
      rw [outcome_bind_of_ok (hcopy _)]
      simp only [hheader, Bool.false_eq_true, if_false]
      simp only [List.length_append] at hcount
      rw [outcome_bind_of_ok (ih (by omega) rest)]
      simp [Nat.add_assoc]

theorem Copies.ne_nil {position : Nat} {octets result : Octets}
    (h : Copies rules copy position octets result) : octets ≠ [] := by
  cases h with
  | last hform => simp [hform.ne_nil]
  | cons hform => simp [hform.ne_nil]

theorem Copies.imp {other : Header → Read Octets} {position : Nat} {octets result : Octets}
    (h : Copies rules copy position octets result)
    (himp : ∀ {header position content copied}, content.length < octets.length →
      (copy header).Reads position content copied → (other header).Reads position content copied) :
    Copies rules other position octets result := by
  induction h with
  | last hform hheader hread =>
      have hpos := List.length_pos_iff.mpr hform.ne_nil
      exact .last hform hheader (himp (by rw [List.length_append]; omega) hread)
  | cons hform hheader hread _ ih =>
      have hpos := List.length_pos_iff.mpr hform.ne_nil
      simp only [List.length_append] at himp
      exact .cons hform hheader (himp (by omega) hread) (ih fun hlen => himp (by omega))

/-- Octets that are a header in its shortest form and content from which just these octets are
copied, wherever they stand. -/
def IsCopied (copy : Header → Read Octets) (header : Header) (octets : Octets) : Prop :=
  ∃ content, octets = header.octets ++ content ∧
    (∀ size, header.length = .definite size → size = content.length) ∧
      ∀ start position,
        (copy ⟨header.identifier, header.length, start⟩).Reads position content octets

/-- What is copied of elements is copied again as it is, if this holds of each of them. -/
theorem Copies.copied
    (hcopy : ∀ header position content copied, (copy header).Reads position content copied →
      IsCopied copy header copied)
    {position : Nat} {octets copied : Octets} (h : Copies rules copy position octets copied)
    (start : Nat) : Copies rules copy start copied copied := by
  induction h generalizing start with
  | last hform hheader hread =>
      obtain ⟨content, rfl, -, hreads⟩ := hcopy _ _ _ _ hread
      exact .last (hform.shortest start) hheader (hreads _ _)
  | cons hform hheader hread _ ih =>
      obtain ⟨content, rfl, -, hreads⟩ := hcopy _ _ _ _ hread
      have hcopied := Copies.cons (hform.shortest start) hheader (hreads _ _) (ih _)
      rwa [← List.append_assoc] at hcopied

end Elements

theorem copyElement_definite {depth size : Nat} {header : Header}
    (hlength : header.length = .definite size) : copyElement rules depth header =
      (takeOctets size >>= fun octets => pure (header.octets ++ octets)) := by
  obtain ⟨identifier, length, position⟩ := header
  obtain rfl : length = .definite size := hlength
  cases depth <;> rfl

theorem reads_copyElement_iff_of_definite {depth position size : Nat} {header : Header}
    (hlength : header.length = .definite size) {octets copied : Octets} :
    (copyElement rules depth header).Reads position octets copied ↔
      octets.length = size ∧ copied = header.octets ++ octets := by
  rw [copyElement_definite hlength,
    reads_bind_iff (isLocal_takeOctets _) fun _ => isLocal_pure _]
  constructor
  · rintro ⟨c, d, content, rfl, hc, hd⟩
    obtain ⟨rfl, rfl⟩ := reads_takeOctets_iff.mp hc
    obtain ⟨rfl, rfl⟩ := reads_pure_iff.mp hd
    simp
  · rintro ⟨hsize, rfl⟩
    exact ⟨octets, [], octets, by simp, reads_takeOctets_iff.mpr ⟨hsize, rfl⟩, by simp⟩

theorem isCopied_of_definite {depth position size : Nat} {header : Header}
    (hlength : header.length = .definite size) {octets copied : Octets}
    (h : (copyElement rules depth header).Reads position octets copied) :
    IsCopied (copyElement rules depth) header copied := by
  obtain ⟨hsize, rfl⟩ := (reads_copyElement_iff_of_definite hlength).mp h
  refine ⟨octets, rfl, ?_, ?_⟩
  · intro other hother
    rw [hsize]
    exact Length.definite.inj (hother.symm.trans hlength)
  · intro start position
    exact (reads_copyElement_iff_of_definite (by exact hlength)).mpr ⟨hsize, rfl⟩

theorem outcome_copyElement_indefinite {depth : Nat} {header : Header}
    (hlength : header.length = .indefinite) (source : Source) :
    (copyElement rules (depth + 1) header).outcome source =
      (copyElements rules (copyElement rules depth) (source.available + 1) >>= fun octets =>
        pure (header.octets ++ octets)).outcome source := by
  obtain ⟨identifier, length, position⟩ := header
  obtain rfl : length = .indefinite := hlength
  rfl

theorem Copies.reads_copyElement {depth position : Nat} {header : Header} {octets copied : Octets}
    (h : Copies rules (copyElement rules depth) position octets copied)
    (hlength : header.length = .indefinite) :
    (copyElement rules (depth + 1) header).Reads position octets (header.octets ++ copied) := by
  intro after
  have hfuel : octets.length < (Source.ofOctets (octets ++ after) position).available + 1 := by
    rw [available_ofOctets, List.length_append]
    omega
  rw [outcome_copyElement_indefinite hlength, outcome_bind_of_ok (h.reads hfuel after)]
  rfl

theorem isLocal_copyElement (rules : EncodingRules) (depth : Nat) (header : Header) :
    (copyElement rules depth header).IsLocal := by
  induction depth generalizing header with
  | zero =>
      obtain ⟨identifier, length, position⟩ := header
      cases length with
      | definite size => exact (isLocal_takeOctets size).bind fun _ => isLocal_pure _
      | indefinite => exact isLocal_failAt _ _
  | succ depth ih =>
      cases hlength : header.length with
      | definite size =>
          rw [copyElement_definite hlength]
          exact (isLocal_takeOctets size).bind fun _ => isLocal_pure _
      | indefinite =>
          intro octets position result source h
          rw [outcome_copyElement_indefinite hlength] at h
          obtain ⟨copied, middle, hcopied, hlast⟩ := exists_of_outcome_bind h
          obtain ⟨c, rest, rfl, rfl, hcopies⟩ := exists_copies ih hcopied
          simp only [outcome_pure, Prod.mk.injEq, Except.ok.injEq] at hlast
          obtain ⟨rfl, rfl⟩ := hlast
          exact ⟨c, rest, rfl, rfl, hcopies.reads_copyElement hlength⟩

/-- An element of indefinite length is copied element by element, with one level of depth less. -/
theorem exists_copies_of_reads {depth position : Nat} {header : Header} {octets copied : Octets}
    (hlength : header.length = .indefinite)
    (h : (copyElement rules depth header).Reads position octets copied) :
    ∃ inner others, depth = inner + 1 ∧ copied = header.octets ++ others ∧
      Copies rules (copyElement rules inner) position octets others := by
  cases depth with
  | zero =>
      obtain ⟨identifier, length, start⟩ := header
      obtain rfl : length = .indefinite := hlength
      exact absurd h not_reads_failAt
  | succ depth =>
      have hok := h.outcome_nil
      rw [outcome_copyElement_indefinite hlength] at hok
      obtain ⟨others, middle, hothers, hlast⟩ := exists_of_outcome_bind hok
      obtain ⟨c, rest, hc, rfl, hcopies⟩ := exists_copies (isLocal_copyElement rules depth) hothers
      simp only [outcome_pure, Prod.mk.injEq, Except.ok.injEq] at hlast
      obtain ⟨rfl, hsource⟩ := hlast
      obtain ⟨rfl, -⟩ := ofOctets_inj.mp hsource
      rw [List.append_nil] at hc
      subst hc
      exact ⟨depth, others, rfl, rfl, hcopies⟩

/-- Copying an element changes nothing any more once the element has been copied. -/
theorem isCopied_of_reads {depth position : Nat} {header : Header} {octets copied : Octets}
    (h : (copyElement rules depth header).Reads position octets copied) :
    IsCopied (copyElement rules depth) header copied := by
  induction depth generalizing position header octets copied with
  | zero =>
      cases hlength : header.length with
      | definite size => exact isCopied_of_definite hlength h
      | indefinite =>
          obtain ⟨_, _, hdepth, -⟩ := exists_copies_of_reads hlength h
          contradiction
  | succ depth ih =>
      cases hlength : header.length with
      | definite size => exact isCopied_of_definite hlength h
      | indefinite =>
          obtain ⟨inner, others, hdepth, rfl, hcopies⟩ := exists_copies_of_reads hlength h
          obtain rfl := Nat.succ.inj hdepth
          refine ⟨others, rfl, by simp [hlength], fun start position => ?_⟩
          exact (hcopies.copied (fun _ _ _ _ => ih) position).reads_copyElement hlength

/-- No more levels of depth are needed than there are octets. -/
theorem reads_copyElement_of_length_le {depth limit position : Nat} {header : Header}
    {octets copied : Octets} (h : (copyElement rules depth header).Reads position octets copied)
    (hlimit : octets.length ≤ limit) :
    (copyElement rules limit header).Reads position octets copied := by
  induction limit generalizing depth header position octets copied with
  | zero =>
      cases hlength : header.length with
      | definite size =>
          rwa [copyElement_definite hlength] at h ⊢
      | indefinite =>
          obtain ⟨_, _, -, -, hcopies⟩ := exists_copies_of_reads hlength h
          obtain rfl := List.length_eq_zero_iff.mp (Nat.le_zero.mp hlimit)
          exact absurd rfl hcopies.ne_nil
  | succ limit ih =>
      cases hlength : header.length with
      | definite size =>
          rwa [copyElement_definite hlength] at h ⊢
      | indefinite =>
          obtain ⟨_, _, -, rfl, hcopies⟩ := exists_copies_of_reads hlength h
          have hinner := hcopies.imp fun hlen hread => ih hread (by omega)
          exact hinner.reads_copyElement hlength

theorem isLocal_read (rules : EncodingRules) (depth : Nat) (header : Header) :
    (read rules depth header).IsLocal := by
  apply (isLocal_copyElement rules depth header).bind
  intro _
  exact isLocal_pure _

theorem reads_read_iff {depth position : Nat} {header : Header} {octets : Octets}
    {captured : Captured} :
    (read rules depth header).Reads position octets captured ↔
      ∃ copied, (copyElement rules depth header).Reads position octets copied ∧
        captured = ⟨header.identifier, copied⟩ := by
  rw [read, reads_bind_iff (isLocal_copyElement rules depth header) fun _ => isLocal_pure _]
  constructor
  · rintro ⟨c, d, copied, rfl, hcopied, hd⟩
    obtain ⟨rfl, rfl⟩ := reads_pure_iff.mp hd
    exact ⟨copied, by simpa using hcopied, rfl⟩
  · rintro ⟨copied, hcopied, rfl⟩
    exact ⟨octets, [], copied, by simp, hcopied, by simp⟩

theorem ofOctets_of_reads {form content copied : Octets} {header : Header}
    (hform : Header.IsForm rules 0 form header)
    (hreads : (copyElement rules (form ++ content).length header).Reads (0 + form.length) content
      copied) :
    ofOctets rules (form ++ content) = .ok ⟨header.identifier, form ++ content⟩ := by
  have hread := Header.reads_read_iff.mpr hform content
  have hcopy : (discard (copyElement rules (form ++ content).length header)).outcome
      (Source.ofOctets content (0 + form.length)) =
        (.ok (), Source.ofOctets [] (0 + form.length + content.length)) :=
    outcome_discard_of_ok hreads.outcome_nil
  have hexhausted := outcome_isExhausted [] (0 + form.length + content.length)
  rw [ofOctets]
  show (fun identifier => (⟨identifier, form ++ content⟩ : Captured)) <$> (Read.outcome (do
    let header ← Header.read rules
    discard <| copyElement rules (form ++ content).length header
    unless ← isExhausted do failAt .trailingData (← position)
    return header.identifier) (Source.ofOctets (form ++ content) 0)).1 = _
  rw [outcome_bind_of_ok hread, outcome_bind_of_ok hcopy, outcome_bind_of_ok hexhausted]
  rfl

theorem ofOctets_of_isForm {form content : Octets} {header : Header}
    (hform : Header.IsForm rules 0 form header)
    (hlength : header.length = .definite content.length) :
    ofOctets rules (form ++ content) = .ok ⟨header.identifier, form ++ content⟩ := by
  apply ofOctets_of_reads hform
  rw [reads_copyElement_iff_of_definite hlength]
  exact ⟨rfl, rfl⟩

theorem ofOctets_of_copied {depth start position : Nat} {form content copied : Octets}
    {header : Header} (hform : Header.IsForm rules start form header)
    (h : (copyElement rules depth header).Reads position content copied) :
    ofOctets rules copied = .ok ⟨header.identifier, copied⟩ := by
  obtain ⟨rest, rfl, -, hreads⟩ := isCopied_of_reads h
  have hlength : rest.length ≤ (header.octets ++ rest).length := by simp
  have hfront : Header.IsForm rules 0 header.octets ⟨header.identifier, header.length, 0⟩ :=
    hform.shortest 0
  have hcheck := ofOctets_of_reads hfront (reads_copyElement_of_length_le (hreads 0 _) hlength)
  exact hcheck

end Captured

end Asn1

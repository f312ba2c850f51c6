import Asn1.Proofs.CompilationSteps
import Asn1.Proofs.CorrespondingReads
import Asn1.Proofs.SourceImages

namespace Asn1

open Read

/-- What a source can be asked for, by itself or in order to decode something. -/
inductive SourceCall
  | request (count : Nat) (consumed : Bool)
  | requestExactly (count : Nat) (consumed : Bool)
  | takeOctet
  | takeOctet?
  | takeOctets (count : Nat)
  | isExhausted
  | readIdentifier
  | readIdentifier?
  | readLength (rules : EncodingRules)
  | readHeader (rules : EncodingRules)
  | readHeader? (rules : EncodingRules)
  | decodeOne (schema : Schema) (handle : Handle) (decoder : Decoder)
  | decodeAll (schema : Schema) (handle : Handle) (decoder : Decoder)

inductive SourceAnswer
  | octets (octets : Octets)
  | octet (octet : UInt8)
  | octet? (octet? : Option UInt8)
  | exhausted (exhausted : Bool)
  | identifier (identifier : Identifier)
  | identifier? (identifier? : Option Identifier)
  | length (length : Length)
  | header (header : Header)
  | header? (header? : Option Header)
  | value (value : Value)

namespace Read

/-- Hands out octets that have been requested, which are then consumed or left where they are. -/
def handOut (requested : Read Octets) (consumed : Bool) : Read SourceAnswer := do
  let octets ← requested
  if consumed then consume octets.length
  return .octets octets

end Read

namespace SourceCall

def perform : SourceCall → Read SourceAnswer
  | request count consumed => handOut (Read.request count) consumed
  | requestExactly count consumed => handOut (Read.requestExactly count) consumed
  | takeOctet => return .octet (← Read.takeOctet)
  | takeOctet? => return .octet? (← Read.takeOctet?)
  | takeOctets count => return .octets (← Read.takeOctets count)
  | isExhausted => return .exhausted (← Read.isExhausted)
  | readIdentifier => return .identifier (← Identifier.read)
  | readIdentifier? => return .identifier? (← Identifier.read?)
  | readLength rules => return .length (← Length.read rules)
  | readHeader rules => return .header (← Header.read rules)
  | readHeader? rules => return .header? (← Header.read? rules)
  | decodeOne schema handle decoder => return .value (← schema.decodeOne handle decoder)
  | decodeAll schema handle decoder => return .value (← schema.decodeAll handle decoder)

/-- How many octets a call needs, if it is a single request for them. -/
def requested? : SourceCall → Option Nat
  | request count _ | requestExactly count _ | takeOctets count => some count
  | takeOctet | takeOctet? | isExhausted => some 1
  | _ => none

end SourceCall

namespace Source

/-- The answers to calls, each with the position after it. A call that fails ends nothing. -/
def answers : List SourceCall → Source → List (Except DecodeError SourceAnswer × Nat)
  | [], _ => []
  | call :: calls, source =>
    let (answer, rest) := call.perform.outcome source
    (answer, rest.position) :: answers calls rest

/-- What calls leave of a source. -/
def after (calls : List SourceCall) (source : Source) : Source :=
  calls.foldl (fun source call => (call.perform.outcome source).2) source

/-- Whether the source itself has failed. -/
def isFailure {α : Type} : Except DecodeError α → Bool
  | .error (.source _) => true
  | _ => false

end Source

namespace Correspondence

open Source

variable {origin : Source} {ahead? : Option Octets}

/-- Sources with their images, whatever is left of the image where the source alone fails. -/
def unlimited (origin : Source) (ahead? : Option Octets) : Correspondence :=
  ofImages origin ahead? 0 fun _ _ => Nat.zero_le _

theorem advances_request (count : Nat) : (Read.request count).Advances := by
  intro source octets rest h
  rcases Nat.lt_or_ge source.octets.length count with hlt | hle
  · rw [outcome_request_of_lt hlt] at h
    obtain rfl : source.fill count = rest := congrArg Prod.snd h
    exact Nat.le_of_eq (position_fill count source).symm
  · rw [outcome_request_of_le hle] at h
    obtain rfl : source.fill count = rest := congrArg Prod.snd h
    exact Nat.le_of_eq (position_fill count source).symm

theorem agrees_request (count : Nat) :
    (unlimited origin ahead?).Agrees (Read.request count) (Read.request count) := by
  refine ⟨advances_request count, fun source image hrelated => ?_⟩
  have h : IsImage origin ahead? source image := hrelated
  rcases Nat.lt_or_ge source.octets.length count with hlt | hle
  · rw [outcome_request_of_lt hlt]
    refine Comparison.matches_beyond h (fun hnone => ?_) fun _ _ _ _ => Nat.zero_le _
    have hoctets := h.octets
    rw [hnone, Option.getD_none, List.append_nil] at hoctets
    rw [outcome_request_of_lt (by rwa [hoctets]), hoctets]
  · rw [outcome_request_of_le hle, outcome_request_of_le (Nat.le_trans hle h.length_le),
      h.take_octets hle]
    exact Comparison.matches_fill h count _

theorem agrees_requestExactly (count : Nat) :
    (unlimited origin ahead?).Agrees (Read.requestExactly count) (Read.requestExactly count) := by
  refine (agrees_request count).bind fun octets => ?_
  exact .ite (carries_position.bind fun start => carries_failAt rfl) (agrees_pure octets)

theorem agrees_isExhausted :
    (unlimited origin ahead?).Agrees Read.isExhausted Read.isExhausted := by
  apply (agrees_request 1).bind
  intro octets
  exact agrees_pure octets.isEmpty

theorem length_le_of_request {source rest : Source} {count : Nat} {octets : Octets}
    (h : (Read.request count).outcome source = (.ok octets, rest)) :
    octets.length ≤ rest.buffered.length := by
  rcases Nat.lt_or_ge source.octets.length count with hlt | hle
  · rw [outcome_request_of_lt hlt, beyond] at h
    obtain rfl : source.fill count = rest := congrArg Prod.snd h
    cases hfailure : source.reader.failure? with
    | some reason => simp [hfailure] at h
    | none =>
        obtain rfl : source.octets = octets := by simpa [hfailure] using h
        exact le_length_buffered_fill (Nat.le_of_lt hlt) (Nat.le_refl _)
  · rw [outcome_request_of_le hle] at h
    obtain ⟨hoctets, rfl⟩ := Prod.mk.injEq .. ▸ h
    rw [← Except.ok.inj hoctets]
    exact Nat.le_trans (List.length_take_le _ _) (le_length_buffered_fill (Nat.le_refl _) hle)

theorem length_le_of_requestExactly {source rest : Source} {count : Nat} {octets : Octets}
    (h : (Read.requestExactly count).outcome source = (.ok octets, rest)) :
    octets.length ≤ rest.buffered.length := by
  obtain ⟨found, middle, hfound, hlast⟩ := exists_of_outcome_bind h
  split at hlast
  · cases hlast
  · obtain ⟨hoctets, rfl⟩ := Prod.mk.injEq .. ▸ hlast
    rw [← Except.ok.inj hoctets]
    exact length_le_of_request hfound

theorem agrees_handOut {requested : Read Octets}
    (h : (unlimited origin ahead?).Agrees requested requested)
    (hlength : ∀ {source rest octets}, requested.outcome source = (.ok octets, rest) →
      octets.length ≤ rest.buffered.length) (consumed : Bool) :
    (unlimited origin ahead?).Agrees (handOut requested consumed) (handOut requested consumed) := by
  cases consumed with
  | false => exact h.map _
  | true =>
      have hadvances (octets : Octets) : Advances (do
          consume octets.length
          return SourceAnswer.octets octets) := by
        rintro source answer rest hok
        obtain ⟨-, rfl⟩ := Prod.mk.injEq .. ▸ hok
        exact Nat.le_add_right _ _
      refine ⟨h.advances.bind hadvances, fun source image hrelated => ?_⟩
      refine matches_bind (h.matched _ _ hrelated) hadvances ?_
      intro octets _ rest middle hmiddle hfirst hsecond _ _ _
      exact Comparison.matches_skip hmiddle (hlength hfirst) (hlength hsecond) _

theorem agrees_decodeAll (schema : Schema) (handle : Handle) (decoder : Decoder) :
    (unlimited origin ahead?).Agrees (schema.decodeAll handle decoder)
      (schema.decodeAll handle decoder) := by
  refine (Schema.agrees_decodeOne _ schema handle decoder).bind fun value => ?_
  refine carries_position.bind fun start => agrees_isExhausted.bind fun exhausted => ?_
  exact .ite (agrees_pure value) (carries_failAt rfl)

theorem agrees_perform (call : SourceCall) :
    (unlimited origin ahead?).Agrees call.perform call.perform := by
  cases call with
  | request count consumed => exact agrees_handOut (agrees_request count) length_le_of_request _
  | requestExactly count consumed =>
      exact agrees_handOut (agrees_requestExactly count) length_le_of_requestExactly _
  | takeOctet => exact agrees_takeOctet.map _
  | takeOctet? => exact agrees_takeOctet?.map _
  | takeOctets count => exact (agrees_takeOctets count).map _
  | isExhausted => exact agrees_isExhausted.map _
  | readIdentifier => exact Identifier.agrees_read.map _
  | readIdentifier? => exact Identifier.agrees_read?.map _
  | readLength rules => exact (Length.agrees_read rules).map _
  | readHeader rules => exact (Header.carries_read rules).bind fun _ => carries_pure rfl
  | readHeader? rules =>
      refine (Header.carries_read? rules).bind fun header? => carries_pure ?_
      cases header? <;> rfl
  | decodeOne schema handle decoder => exact (Schema.agrees_decodeOne _ schema handle decoder).map _
  | decodeAll schema handle decoder => exact (agrees_decodeAll schema handle decoder).map _

end Correspondence

namespace Source

open Correspondence

variable {origin : Source} {ahead? : Option Octets} {source image : Source}

/-- A call keeps a source and its image together unless the source alone fails. -/
theorem IsImage.perform (h : IsImage origin ahead? source image) (call : SourceCall) :
    (call.perform.outcome source).1 = (call.perform.outcome image).1 ∧
        IsImage origin ahead? (call.perform.outcome source).2 (call.perform.outcome image).2 ∨
      ahead? ≠ none ∧ isFailure (call.perform.outcome source).1 = true := by
  have hmatches := (agrees_perform call).matched source image h
  generalize call.perform.outcome source = first at hmatches ⊢
  generalize call.perform.outcome image = second at hmatches ⊢
  cases hmatches with
  | ok count hrest => exact .inl ⟨rfl, hrest⟩
  | error error hrest => exact .inl ⟨congrArg Except.error error.moved_zero, hrest⟩
  | failed hlimit => exact .inr ⟨fun hnone => (by subst hnone; cases hlimit), rfl⟩

theorem IsImage.answers_eq (h : IsImage origin none source image) (calls : List SourceCall) :
    answers calls source = answers calls image := by
  induction calls generalizing source image with
  | nil => rfl
  | cons call calls ih =>
      obtain ⟨hanswer, hrest⟩ | ⟨hnone, -⟩ := h.perform call
      · simp only [answers, hanswer, hrest.position, ih hrest]
      · exact absurd rfl hnone

/-- Up to the first failure of a source its image answers alike. -/
theorem IsImage.takeWhile_answers (h : IsImage origin ahead? source image)
    (calls : List SourceCall) :
    (answers calls source).takeWhile (fun answer => !isFailure answer.1) <+:
      answers calls image := by
  induction calls generalizing source image with
  | nil => exact List.prefix_rfl
  | cons call calls ih =>
      rw [answers, answers, List.takeWhile_cons]
      simp only
      cases hfailure : isFailure (call.perform.outcome source).1 with
      | true => exact List.nil_prefix
      | false =>
          obtain ⟨hanswer, hrest⟩ | ⟨-, htrue⟩ := h.perform call
          · simp only [hanswer, hrest.position, Bool.not_false, if_true]
            exact List.prefix_cons_inj _ |>.mpr (ih hrest)
          · rw [hfailure] at htrue
            cases htrue

theorem IsImage.after (h : IsImage origin none source source) (calls : List SourceCall) :
    IsImage origin none (after calls source) (after calls source) := by
  induction calls generalizing source with
  | nil => exact h
  | cons call calls ih =>
      obtain ⟨-, hrest⟩ | ⟨hnone, -⟩ := h.perform call
      · exact ih hrest
      · exact absurd rfl hnone

/-- A single request is the first thing that a call does, and nothing else asks the reader. -/
theorem exists_eq_request {call : SourceCall} {count : Nat} (h : call.requested? = some count) :
    ∃ next : Octets → Read SourceAnswer, call.perform = Read.request count >>= next ∧
      ∀ octets source, isFailure ((next octets).outcome source).1 = false := by
  cases call with
  | request size consumed =>
      obtain rfl := Option.some.inj h
      refine ⟨_, rfl, fun octets source => ?_⟩
      cases consumed <;> rfl
  | requestExactly size consumed =>
      obtain rfl := Option.some.inj h
      rw [SourceCall.perform, handOut, requestExactly, bind_assoc]
      refine ⟨_, rfl, fun octets source => ?_⟩
      split <;> cases consumed <;> rfl
  | takeOctets size =>
      obtain rfl := Option.some.inj h
      rw [SourceCall.perform, takeOctets, requestExactly, bind_assoc, bind_assoc]
      refine ⟨_, rfl, fun octets source => ?_⟩
      split <;> rfl
  | takeOctet =>
      obtain rfl := Option.some.inj h
      rw [SourceCall.perform, takeOctet, takeOctet?, bind_assoc, bind_assoc]
      refine ⟨_, rfl, fun octets source => ?_⟩
      cases octets <;> rfl
  | takeOctet? =>
      obtain rfl := Option.some.inj h
      rw [SourceCall.perform, takeOctet?, bind_assoc]
      refine ⟨_, rfl, fun octets source => ?_⟩
      cases octets <;> rfl
  | isExhausted =>
      obtain rfl := Option.some.inj h
      rw [SourceCall.perform, isExhausted, bind_assoc]
      exact ⟨_, rfl, fun octets source => rfl⟩
  | _ => cases h

/-- A request fails if the reader does before it has delivered what is asked for. It leaves the
octets that were delivered. -/
theorem perform_of_requested {call : SourceCall} {count : Nat}
    (h : call.requested? = some count) (source : Source) :
    (isFailure (call.perform.outcome source).1 = true ↔
        source.reader.failure? ≠ none ∧ source.octets.length < count) ∧
      (isFailure (call.perform.outcome source).1 = true →
        (call.perform.outcome source).2 = source.fill count) := by
  obtain ⟨next, hperform, hnext⟩ := exists_eq_request h
  rw [hperform]
  rcases Nat.lt_or_ge source.octets.length count with hlt | hle
  · have hrequest := outcome_request_of_lt hlt
    cases hfailure : source.reader.failure? with
    | none =>
        rw [beyond, hfailure] at hrequest
        rw [outcome_bind_of_ok hrequest, hnext]
        simp
    | some reason =>
        rw [beyond, hfailure] at hrequest
        rw [outcome_bind, hrequest]
        simp [isFailure, hlt]
  · rw [outcome_bind_of_ok (outcome_request_of_le hle), hnext]
    simp [Nat.not_lt.mpr hle]

/-- Whatever is asked of a source, and however its reader splits the octets, the answers are those
of a source over the octets in memory. A reader that fails at some offset makes no difference before
it is noticed. Only requests for octets from that offset on notice it, and these change nothing. -/
theorem answers_ofReader (pieces : List Octets) (calls : List SourceCall) :
    answers calls (ofReader ⟨pieces, none⟩) = answers calls (ofOctets pieces.flatten 0) ∧
      ∀ (octets : Octets) (offset : Nat) (reason : String), offset ≤ octets.length →
        pieces.flatten = octets.take offset →
          (answers calls (ofReader ⟨pieces, some reason⟩)).takeWhile
              (fun answer => !isFailure answer.1) <+: answers calls (ofOctets octets 0) ∧
            ∀ (call : SourceCall) (count : Nat), call.requested? = some count →
              let source := after calls (ofReader ⟨pieces, some reason⟩)
              let result := call.perform.outcome source
              (isFailure result.1 = true ↔ offset < source.position + count) ∧
                (isFailure result.1 = true → result.2.position = source.position ∧
                  ∀ more, answers more result.2 = answers more source) := by
  constructor
  · have himage : IsImage (ofReader ⟨pieces, none⟩) none (ofReader ⟨pieces, none⟩)
        (ofOctets pieces.flatten 0) :=
      isImage_of_octets (isBounded_ofReader _) (isBounded_ofOctets _ _) rfl
        (octets_ofOctets _ _) rfl
    exact himage.answers_eq calls
  · intro octets offset reason hoffset hpieces
    have hbounded := isBounded_ofReader ⟨pieces, some reason⟩
    constructor
    · have himage := isImage_of_ahead hbounded (by simp [ofReader]) (octets.drop offset)
      rw [octets_ofReader, hpieces, List.take_append_drop] at himage
      exact himage.takeWhile_answers calls
    · intro call count hcall
      have hself := (isImage_of_octets hbounded hbounded rfl rfl rfl).after calls
      generalize after calls (ofReader ⟨pieces, some reason⟩) = source at hself
      obtain ⟨hiff, hrest⟩ := perform_of_requested hcall source
      have hfails : source.reader.failure? ≠ none := by
        rw [hself.failure?]
        simp [ofReader]
      have hstop := hself.stop_eq
      rw [show (ofReader ⟨pieces, some reason⟩).stop = pieces.flatten.length from rfl, hpieces,
        List.length_take_of_le hoffset] at hstop
      have hoffset : isFailure (call.perform.outcome source).1 = true ↔
          offset < source.position + count := by
        rw [hiff]
        simp only [hfails, ne_eq, not_false_iff, true_and]
        omega
      refine ⟨hoffset, fun hfailed => ?_⟩
      · rw [hrest hfailed]
        have hfill : IsImage source none (source.fill count) source :=
          ⟨position_fill _ _, stop_fill _ _, failure?_fill _ _, hself.isBounded.fill,
            hself.isBounded, by simp, fun _ => by simp, absurd rfl⟩
        exact ⟨position_fill count source, hfill.answers_eq⟩

/-- Three octets of which one has been taken: a request for three more fails, one for two does not.
-/
theorem answers_failingReader :
    let octets : Octets := [0x30, 0x03, 0x02, 0x01, 0x05]
    let source := after [.takeOctet] (ofReader ⟨[[0x30], [0x03, 0x02]], some "closed"⟩)
    let result := (SourceCall.takeOctets 3).perform.outcome source
    [[0x30], [0x03, 0x02]].flatten = octets.take 3 ∧ isFailure result.1 = true ∧
      result.2.position = 1 ∧
        answers [.takeOctets 2] result.2 = [(.ok (.octets [0x03, 0x02]), 3)] := by
  have htake : [[0x30], [0x03, 0x02]].flatten = ([0x30, 0x03, 0x02, 0x01, 0x05] : Octets).take 3 :=
    rfl
  obtain ⟨-, hfails⟩ := answers_ofReader [[0x30], [0x03, 0x02]] [.takeOctet]
  obtain ⟨-, hcalls⟩ := hfails _ 3 "closed" (by decide) htake
  obtain ⟨hiff, hrest⟩ := hcalls (.takeOctets 3) 3 rfl
  have hfailed := hiff.mpr (by decide)
  obtain ⟨hposition, hmore⟩ := hrest hfailed
  exact ⟨htake, hfailed, hposition, hmore [.takeOctets 2]⟩

end Source

end Asn1

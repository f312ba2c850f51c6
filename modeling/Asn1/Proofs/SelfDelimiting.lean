import Asn1.Proofs.CompilationSteps
import Asn1.Proofs.CorrespondingReads
import Asn1.Proofs.SourceImages

namespace Asn1

open Read Source

namespace Read

variable {α β : Type}

/-- Whether an operation gives `a` on every source that starts with certain octets. It consumes just
these, and if they are buffered it reads nothing. Otherwise it reads no octet that comes after them.
-/
def Delimits (operation : Read α) (octets : Octets) (a : α) : Prop :=
  ∀ (source : Source) (after : Octets), source.IsBounded → source.octets = octets ++ after →
    ∃ rest, operation.outcome source = (.ok a, rest) ∧ rest.IsBounded ∧ rest.octets = after ∧
      rest.position = source.position + octets.length ∧
        rest.buffered = source.buffered.drop octets.length

theorem delimits_pure (a : α) : (pure a : Read α).Delimits [] a := by
  intro source _ hbounded hoctets
  exact ⟨source, rfl, hbounded, hoctets, rfl, rfl⟩

theorem Delimits.bind {operation : Read α} {next : α → Read β} {c d : Octets} {a : α} {b : β}
    (h : operation.Delimits c a) (hnext : (next a).Delimits d b) :
    (operation >>= next).Delimits (c ++ d) b := by
  intro source after hbounded hoctets
  obtain ⟨middle, hfirst, hmiddle, hrest, hposition, hbuffered⟩ :=
    h source (d ++ after) hbounded (by rw [hoctets, List.append_assoc])
  obtain ⟨rest, hsecond, hlast, hafter, hposition', hbuffered'⟩ := hnext middle after hmiddle hrest
  refine ⟨rest, (outcome_bind_of_ok hfirst).trans hsecond, hlast, hafter, ?_, ?_⟩
  · rw [hposition', hposition, List.length_append, Nat.add_assoc]
  · rw [hbuffered', hbuffered, List.drop_drop, List.length_append]

/-- Each source has an image in memory. If the source fails at its end, the image has one more octet
there, so that it shows whether that octet is asked for. -/
theorem exists_image {source : Source} (h : source.IsBounded) :
    ∃ ahead? limit, IsImage source ahead? source
        (ofOctets (source.octets ++ ahead?.getD []) source.position) ∧
      (∀ ahead, ahead? = some ahead → limit ≤ source.stop + min 1 ahead.length) ∧
        (ahead? ≠ none → source.stop < limit) := by
  cases hfailure : source.reader.failure? with
  | none =>
      refine ⟨none, 0, ?_, fun _ _ => Nat.zero_le _, absurd rfl⟩
      exact isImage_of_octets h (isBounded_ofOctets _ _) rfl (by simp) (by rw [hfailure]; rfl)
  | some reason =>
      refine ⟨some [0], source.stop + 1, isImage_of_ahead h (by simp [hfailure]) [0], ?_, ?_⟩
      · rintro _ ⟨⟩
        exact Nat.le_refl _
      · exact fun _ => Nat.lt_succ_self _

variable {operation : Read α} (hlocal : operation.IsLocal)
  (hagrees : ∀ c : Correspondence, c.Agrees operation operation)

include hlocal hagrees

theorem exists_reads_of_outcome {source rest : Source} (hbounded : source.IsBounded) {a : α}
    (h : operation.outcome source = (.ok a, rest)) :
    ∃ octets, source.octets = octets ++ rest.octets ∧ operation.Reads source.position octets a := by
  obtain ⟨ahead?, limit, himage, hlimit, -⟩ := exists_image hbounded
  have hmatches := (hagrees (.ofImages source ahead? limit hlimit)).matched _ _ himage
  rw [h] at hmatches
  generalize hlast : operation.outcome
    (ofOctets (source.octets ++ ahead?.getD []) source.position) = result at hmatches
  cases hmatches with
  | @ok _ _ _ last hrelated =>
      have hrest : IsImage source ahead? rest last := hrelated
      obtain ⟨consumed, left, hconsumed, rfl, hreads⟩ := hlocal _ _ _ _ hlast
      have hleft := hrest.octets
      rw [octets_ofOctets] at hleft
      rw [hleft, ← List.append_assoc] at hconsumed
      exact ⟨consumed, List.append_cancel_right hconsumed, hreads⟩

theorem reads_of_outcome {source rest : Source} (hbounded : source.IsBounded) {octets : Octets}
    {a : α} (h : operation.outcome source = (.ok a, rest))
    (hoctets : source.octets = octets ++ rest.octets) :
    operation.Reads source.position octets a := by
  obtain ⟨consumed, hconsumed, hreads⟩ := exists_reads_of_outcome hlocal hagrees hbounded h
  rw [hoctets] at hconsumed
  rwa [List.append_cancel_right hconsumed]

theorem Reads.at_position {position : Nat} {octets : Octets} {a : α}
    (h : operation.Reads position octets a) (other : Nat) : operation.Reads other octets a := by
  have hzero : operation.Reads 0 octets a := by
    have hmatches := (hagrees (.shifted position)).matched _ _
      ⟨octets, 0, rfl, rfl⟩
    rw [Nat.zero_add, h.outcome_nil] at hmatches
    generalize hlast : operation.outcome (ofOctets octets 0) = result at hmatches
    cases hmatches with
    | ok _ hrelated =>
        obtain ⟨left, start, hrest, rfl⟩ := hrelated
        obtain ⟨rfl, hstart⟩ := ofOctets_inj.mp hrest
        rw [hlocal.reads_iff, hlast]
        congr 2
        omega
  have hmatches := (hagrees (.shifted other)).matched _ _ ⟨octets, 0, rfl, rfl⟩
  rw [hzero.outcome_nil, Nat.zero_add] at hmatches
  generalize hlast : operation.outcome (ofOctets octets other) = result at hmatches
  cases hmatches with
  | ok _ hrelated =>
      obtain ⟨left, start, rfl, hrest⟩ := hrelated
      obtain ⟨rfl, rfl⟩ := ofOctets_inj.mp hrest
      rw [hlocal.reads_iff, hlast]
      congr 2
      omega
  | failed hlimit => cases hlimit

/-- What is read from memory is read from any source, and nothing else is read for it. -/
theorem Reads.delimits {position : Nat} {octets : Octets} {a : α}
    (h : operation.Reads position octets a) : operation.Delimits octets a := by
  intro source after hbounded hoctets
  obtain ⟨ahead?, limit, himage, hlimit, hstop⟩ := exists_image hbounded
  have hreads := h.at_position hlocal hagrees source.position (after ++ ahead?.getD [])
  have hmatches := (hagrees ((Correspondence.ofImages source ahead? limit hlimit).frugal
    source)).matched _ _ ⟨himage, 0, rfl, rfl⟩
  rw [hoctets, List.append_assoc, hreads] at hmatches
  generalize hrest : operation.outcome source = result at hmatches
  cases hmatches with
  | @ok _ _ rest _ hrelated =>
      obtain ⟨hlast, count, hposition, hbuffered⟩ := hrelated
      have hlast : IsImage source ahead? rest
        (ofOctets (after ++ ahead?.getD []) (source.position + octets.length)) := hlast
      have hcount : rest.position = source.position + octets.length := hlast.position
      obtain rfl : octets.length = count := by omega
      have hafter := hlast.octets
      rw [octets_ofOctets] at hafter
      exact ⟨rest, rfl, hlast.isBounded, (List.append_cancel_right hafter).symm, hcount, hbuffered⟩
  | failed hsome hle =>
      -- The source would have failed for an octet beyond its end, which the value does not reach.
      have hahead : ahead? ≠ none := by
        rintro rfl
        cases hsome
      obtain rfl : limit = _ := by
        obtain ⟨ahead, rfl⟩ := Option.ne_none_iff_exists'.mp hahead
        exact Option.some.inj hsome
      have hend := hle a rfl
      have hlt := hstop hahead
      rw [position_ofOctets] at hend
      rw [IsBounded, hoctets, List.length_append] at hbounded
      omega

end Read

namespace Schema

variable {schema : Schema} {handle : Handle} {decoder : Decoder} {octets : Octets} {value : Value}

theorem delimits_of_decode (h : schema.decode handle decoder octets = .ok value) :
    (schema.decodeOne handle decoder).Delimits octets value := by
  apply (decode_eq_ok_iff_reads.mp h).delimits (isLocal_decodeOne _ _ _)
  intro c
  exact agrees_decodeOne c _ _ _

theorem exists_decodeOne_of_decodeAll {source rest : Source}
    (h : (schema.decodeAll handle decoder).outcome source = (.ok value, rest)) :
    ∃ middle, (schema.decodeOne handle decoder).outcome source = (.ok value, middle) ∧
      rest.octets = middle.octets := by
  obtain ⟨decoded, middle, hone, hrest⟩ := exists_of_outcome_bind h
  rw [outcome_bind_of_ok (outcome_position _)] at hrest
  obtain ⟨exhausted, last, hexhausted, hrest⟩ := exists_of_outcome_bind hrest
  cases exhausted with
  | false => cases hrest
  | true =>
      obtain ⟨hvalue, rfl⟩ := Prod.mk.inj hrest
      obtain rfl := Except.ok.inj hvalue
      exact ⟨middle, hone, octets_of_isExhausted hexhausted⟩

/-- A value with its type, how it is decoded, and its octets. -/
structure EncodedValue where
  handle : Handle
  decoder : Decoder
  octets : Octets
  value : Value

theorem delimits_mapM {items : List EncodedValue}
    (h : ∀ item ∈ items, schema.decode item.handle item.decoder item.octets = .ok item.value) :
    (items.mapM fun item => schema.decodeOne item.handle item.decoder).Delimits
      (items.flatMap EncodedValue.octets) (items.map EncodedValue.value) := by
  induction items with
  | nil => exact delimits_pure []
  | cons item items ih =>
      have hitem := delimits_of_decode (h item List.mem_cons_self)
      have hitems := ih fun other hother => h other (List.mem_cons_of_mem _ hother)
      rw [List.mapM_cons, List.flatMap_cons, ← List.append_nil (items.flatMap EncodedValue.octets)]
      exact hitem.bind (hitems.bind (delimits_pure _))

/-- Decoding one value takes just its octets, whatever comes after them. -/
theorem decodeOne_delimits (schema : Schema) :
    (∀ (handle : Handle) (decoder : Decoder) (source rest : Source) (octets after : Octets)
        (value : Value), source.IsBounded → source.octets = octets ++ after →
      (schema.decodeOne handle decoder).outcome source = (.ok value, rest) → rest.octets = after →
        (schema.decodeOne handle decoder).Delimits octets value ∧
          schema.decode handle decoder octets = .ok value) ∧
      ∀ items : List EncodedValue,
        (∀ item ∈ items, schema.decode item.handle item.decoder item.octets = .ok item.value) →
          (items.mapM fun item => schema.decodeOne item.handle item.decoder).Delimits
            (items.flatMap EncodedValue.octets) (items.map EncodedValue.value) := by
  refine ⟨?_, fun items => delimits_mapM⟩
  intro handle decoder source rest octets after value hbounded hoctets houtcome hrest
  have hreads := reads_of_outcome (isLocal_decodeOne _ _ _) (fun c => agrees_decodeOne c _ _ _)
    hbounded houtcome (by rw [hoctets, hrest])
  have hdecode := decode_eq_ok_iff_reads.mpr
    (hreads.at_position (isLocal_decodeOne _ _ _) (fun c => agrees_decodeOne c _ _ _) 0)
  exact ⟨delimits_of_decode hdecode, hdecode⟩

theorem decodeOne_delimits_defaultedSequence :
    let octets : Octets := [0x30, 0x80, 0x02, 0x01, 0x05, 0x00, 0x00]
    let value : Value := .collection [("x", .integer ⟨5, by decide, by decide⟩)]
    let operation := defaultedSequence.decodeOne ⟨2⟩ ⟨.cer, 2⟩
    operation.outcome (ofOctets (octets ++ [0xFF]) 0) = (.ok value, ofOctets [0xFF] 7) ∧
      operation.Delimits octets value ∧
        ([(), ()].mapM fun _ => operation).Delimits (octets ++ octets) [value, value] := by
  intro octets value operation
  have houtcome : operation.outcome (ofOctets (octets ++ [0xFF]) 0) =
      (.ok value, ofOctets [0xFF] 7) := by decide +kernel
  obtain ⟨hone, hall⟩ := decodeOne_delimits defaultedSequence
  obtain ⟨hdelimits, hdecode⟩ := hone ⟨2⟩ ⟨.cer, 2⟩ _ _ octets [0xFF] value
    (isBounded_ofOctets _ _) (octets_ofOctets _ _) houtcome (octets_ofOctets _ _)
  let item : EncodedValue := ⟨⟨2⟩, ⟨.cer, 2⟩, octets, value⟩
  exact ⟨houtcome, hdelimits, hall [item, item] (by simp [item, hdecode])⟩

end Schema

end Asn1

import Asn1.Proofs.AcceptanceAgreement
import Asn1.Proofs.DecodingErrors
import Asn1.Proofs.EncodingErrors
import Asn1.Proofs.Lookups

namespace Asn1.Schema

open Results Read

variable {schema : Schema} {handle : Handle} {type : CompiledType}

theorem Reachable.isSafe_encode (hschema : schema.Reachable)
    (hcompiled : schema.compiled handle = .ok type) (hranges : type.HasRangesOnly)
    (encoder : Encoder) (value : Value) : (schema.encode handle encoder value).IsSafe := by
  have hagree := hschema.agree_accept_canonicalize hcompiled hranges value
  rw [encode, hcompiled]
  cases hform : schema.canonicalize handle value with
  | error error =>
      exact Written.isSafe_fail (hagree.failsWith error ((hagree.error_iff _).mpr hform))
  | ok form =>
      rw [canonicalize_eq hcompiled] at hform
      exact CompiledType.isSafelyWritten (hschema.consistent.isRegular hcompiled)
        (hschema.consistent.isSound hcompiled) form encoder none hform (absurd rfl)

theorem Reachable.isSafe_decodeOne (hschema : schema.Reachable)
    (hcompiled : schema.compiled handle = .ok type) (hranges : type.HasRangesOnly)
    (decoder : Decoder) : (schema.decodeOne handle decoder).IsSafe := by
  have hsound := hschema.consistent.isSound hcompiled
  have htype (start : Nat) : (checked ((schema.compiled handle).mapError .schema)
      start : Read CompiledType).Yields (· = type) := by
    rw [hcompiled]
    exact yields_pure rfl
  have haccept (value : Value) (start : Nat) :
      (checked ((schema.accept handle value).mapError .value) start : Read Unit).IsSafe := by
    have hfails := (hschema.agree_accept_canonicalize hcompiled hranges value).failsWith
    refine yields_checked ?_ (fun _ _ => trivial) start
    cases hresult : schema.accept handle value with
    | error error => exact failsWith_error (hfails error hresult)
    | ok => exact failsWith_ok ()
  refine isSafe_position.bind fun start _ => (htype start).bind ?_
  rintro _ rfl
  refine (Header.isSafe_read decoder.rules).bind fun header _ => ?_
  have hread := CompiledType.isSafe_read hsound (absurd rfl) decoder.rules header
  refine (hread _).bind fun value _ => ?_
  exact (haccept value start).bind fun _ _ => yields_pure trivial

theorem Reachable.isSafe_decodeAll (hschema : schema.Reachable)
    (hcompiled : schema.compiled handle = .ok type) (hranges : type.HasRangesOnly)
    (decoder : Decoder) : (schema.decodeAll handle decoder).IsSafe := by
  refine (hschema.isSafe_decodeOne hcompiled hranges decoder).bind fun value _ => ?_
  refine isSafe_position.bind fun stop _ => isSafe_isExhausted.bind fun exhausted _ => ?_
  simp only [failAt_bind]
  exact yields_ite (yields_pure trivial) (yields_failAt rfl stop)

/-- Operations on the values of a compiled type find each type they come to when they look it up,
and fail for reasons that lie in the value, the octets, the rules or the limits only. -/
theorem Reachable.never_fails_internally (hschema : schema.Reachable)
    (hcompiled : schema.compiled handle = .ok type) (hranges : type.HasRangesOnly) :
    (∃ limit, ∀ count, limit ≤ count → ∀ {α β : Type}
        (step : TypeInfo → TypeForm (α → β) → α → β) (failed : SchemaError → α → β),
      schema.interpretWithin step failed count handle = type.interpret step) ∧
    (∀ value, FailsWith (·.isInternal = false) (schema.accept handle value) ∧
      FailsWith (·.isInternal = false) (schema.canonicalize handle value)) ∧
    (∀ encoder value,
      FailsWith (·.isInternal = false) (schema.encode handle encoder value).toExcept) ∧
    ∀ decoder source,
      FailsWith (·.isInternal = false) ((schema.decodeOne handle decoder).outcome source).1 ∧
        FailsWith (·.isInternal = false) ((schema.decodeAll handle decoder).outcome source).1 := by
  refine ⟨?_, fun value => ?_, fun encoder value => ?_, fun decoder source => ⟨?_, ?_⟩⟩
  · obtain ⟨limit, hnests⟩ := type.exists_nestsWithin
    refine ⟨limit, fun count hle α β step failed => ?_⟩
    exact hschema.consistent.interpretWithin_eq step failed hcompiled (hnests.mono hle)
  · have hagree := hschema.agree_accept_canonicalize hcompiled hranges value
    exact ⟨hagree.failsWith, fun error herror => hagree.failsWith error
      ((hagree.error_iff error).mpr herror)⟩
  · exact (hschema.isSafe_encode hcompiled hranges encoder value).failsWith
  · exact (hschema.isSafe_decodeOne hcompiled hranges decoder).failsWith source
  · exact (hschema.isSafe_decodeAll hcompiled hranges decoder).failsWith source

/-- An element that is no component of a sequence, and that follows no addition. -/
theorem never_fails_internally_defaultedSequence :
    let error : DecodeError := .format (.unknownTag .octetString) 2
    defaultedSequence.decode ⟨2⟩ ⟨.der, 2⟩ [0x30, 0x03, 0x04, 0x01, 0x05] = .error error ∧
      error.isInternal = false := by
  have hdecode : defaultedSequence.decode ⟨2⟩ ⟨.der, 2⟩ [0x30, 0x03, 0x04, 0x01, 0x05] =
      .error (.format (.unknownTag .octetString) 2) := by decide +kernel
  obtain ⟨-, -, -, hfails⟩ := Reachable.never_fails_internally (reachable_extendedSequence _ _ _)
    compiled_defaultedSequence hasRangesOnly_defaultedLayout
  exact ⟨hdecode, (hfails _ _).2 _ hdecode⟩

end Asn1.Schema

import Asn1.Proofs.CanonicalValues
import Asn1.Proofs.CompilationSteps

namespace Asn1

open Results

namespace Schema

variable {schema : Schema} {handle : Handle} {type : CompiledType} {value : Value}
  {form : CanonicalForm}

/-- A canonical form is its own canonical form if it is stable, and has none otherwise. -/
theorem Reachable.canonicalize_canonical (hschema : schema.Reachable)
    (hcompiled : schema.compiled handle = .ok type) (hranges : type.HasRangesOnly)
    (hform : schema.canonicalize handle value = .ok form) :
    (schema.canonicalize handle form.value = .ok ⟨form.value, false⟩ ↔
        type.IsStable form.value) ∧
      ∀ again, schema.canonicalize handle form.value = .ok again →
        again = ⟨form.value, false⟩ := by
  have hregular := hschema.consistent.isRegular hcompiled
  obtain ⟨-, htype⟩ := (canonicalize_eq_ok_iff hcompiled).mp hform
  have hcanonical := CompiledType.isCanonical_of_canonicalize hregular htype
  have hresolve : schema.values.resolve form.value = .ok form.value :=
    NamedValues.resolve_of_not_isReference hcanonical.isReference
  have haccept : type.accept schema.values (.top schema.view) form.value = .ok () ↔
      type.IsStable form.value :=
    CompiledType.accept_canonical_iff_isStable hregular hranges htype
  have hunchanged {again : CanonicalForm}
      (hagain : type.canonicalize schema.values (.top schema.view) form.value = .ok again) :
      again = ⟨form.value, false⟩ :=
    CompiledType.eq_of_canonicalize_of_isCanonical hregular hcanonical hagain
  refine ⟨?_, ?_⟩
  · rw [canonicalize_eq_ok_iff hcompiled, ← haccept,
      CompiledType.accept_eq_ok_iff_exists_canonical hregular hranges]
    constructor
    · rintro ⟨-, h⟩
      exact ⟨_, h⟩
    · rintro ⟨again, hagain⟩
      exact ⟨⟨_, hresolve⟩, hunchanged hagain ▸ hagain⟩
  · intro again hagain
    exact hunchanged ((canonicalize_eq_ok_iff hcompiled).mp hagain).2

/-- The sequence can do without what its root holds. -/
theorem canonicalize_canonical_defaultedSequence :
    defaultedSequence.canonicalize ⟨2⟩ (.collection [("b", .boolean false)]) =
        .ok ⟨.collection [], true⟩ ∧
      defaultedSequence.canonicalize ⟨2⟩ (.collection []) = .ok ⟨.collection [], false⟩ := by
  have hform : defaultedSequence.canonicalize ⟨2⟩ (.collection [("b", .boolean false)]) =
      .ok ⟨.collection [], true⟩ := rfl
  refine ⟨hform, (Reachable.canonicalize_canonical (reachable_extendedSequence _ _ _)
    compiled_defaultedSequence hasRangesOnly_defaultedLayout hform).1.mpr ?_⟩
  rw [CompiledType.isStable_entries_iff]
  simp [Layout.IsStable, defaultedLayout, Layout.isAllOptional, Component.isRequired]

/-- If the addition `x` is required, then without the component that has a default the value is no
longer one of the version that lacks the addition. -/
theorem canonicalize_canonical_fails_of_required_addition :
    let schema := extendedSequence [⟨"b", .handle ⟨1⟩, false, some (.boolean false)⟩]
      [⟨"x", .handle ⟨0⟩, false, none⟩] []
    schema.Reachable ∧
      (∃ type, schema.compiled ⟨2⟩ = .ok type ∧ type.HasRangesOnly) ∧
        schema.canonicalize ⟨2⟩ (.collection [("b", .boolean false)]) =
            .ok ⟨.collection [], true⟩ ∧
          ∀ form, schema.canonicalize ⟨2⟩ (.collection []) ≠ .ok form := by
  refine ⟨reachable_extendedSequence _ _ _, ⟨⟨⟨⟨2⟩, none, []⟩, .collection ⟨.sequence, true,
    [⟨"b", 0, 1, false, some (.boolean false), .handle ⟨1⟩,
        ⟨⟨⟨1⟩, none, []⟩, .builtin .boolean⟩, false, [.boolean]⟩,
      ⟨"x", 1, 2, false, none, .handle ⟨0⟩,
        ⟨⟨⟨0⟩, none, []⟩, .builtin .integer⟩, false, [.integer]⟩]⟩⟩, rfl, ?_⟩, rfl, ?_⟩
  · rw [CompiledType.HasRangesOnly]
    simp [CompiledType.forall_reaches_mk_iff, TypeForm.types, CompiledType.info]
  · intro form hform
    cases hform

end Schema

end Asn1

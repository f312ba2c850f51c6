import Asn1.Builtin.Content
import Asn1.Constraint
import Asn1.NamedValues
import Asn1.Proofs.Conforming

/-!
Internal errors: those of branches that no use of a compiled type is meant to get to. They are about
types that are not ready for use and about values that do not have the shape their type gives them
although that has been checked before.
-/

namespace Asn1

def SchemaError.isInternal : SchemaError → Bool
  | cyclicDefinition _ | unresolvedType _ | failed _ | notCompiled _ => true
  | duplicateName _ | versionOrder _ _ | prohibitedVersion _ | tagAmbiguity _ _ _
  | illegalComponentsOf _ | invalidDefault _ _ => false

def IllegalValue.isInternal : IllegalValue → Bool
  | listWithoutElementType | listWithoutElement | listWalkedAsCollection | implicitlyTaggedChoice
  | listExpected _ | collectionExpected _ | notEncodable _ _ => true
  | wrongKind _ _ | content _ _ | severalAlternatives | sizeNotApplicable _ | sizeOutside _ _
  | rangeNotApplicable _ | integerOutside _ _ | custom _ | unknownNotEncodable _ => false

def ValueError.isInternal : ValueError → Bool
  | illegal cause => cause.isInternal
  | schema error => error.isInternal
  | unknownComponent _ | order _ | missingRequired _ _ | emptyValue | unresolvedValue _ => false

def TagFault.isInternal : TagFault → Bool
  | invalidSegment => true
  | leadingZero | longForm | excessive | unexpectedEndOfContents => false

def FormatError.isInternal : FormatError → Bool
  | value error => error.isInternal
  | schema error => error.isInternal
  | illegalTag fault => fault.isInternal
  | _ => false

def EncodeError.isInternal : EncodeError → Bool
  | value error => error.isInternal
  | format error => error.isInternal
  | target _ => false

def DecodeError.isInternal : DecodeError → Bool
  | format error _ => error.isInternal
  | source _ => false

namespace Results

variable {ε ε' α : Type}

/-- Whether a computation fails, if at all, with an error that is allowed. -/
def FailsWith (allowed : ε → Prop) (result : Except ε α) : Prop :=
  ∀ error, result = .error error → allowed error

theorem failsWith_ok {allowed : ε → Prop} (a : α) : FailsWith allowed (.ok a) := by
  rintro _ ⟨⟩

theorem failsWith_error {allowed : ε → Prop} {error : ε} (h : allowed error) :
    FailsWith allowed (.error error : Except ε α) := by
  rintro _ ⟨⟩
  exact h

theorem failsWith_mapError {allowed : ε' → Prop} {f : ε → ε'} (h : ∀ error, allowed (f error))
    (result : Except ε α) : FailsWith allowed (result.mapError f) := by
  cases result with
  | error error => exact failsWith_error (h error)
  | ok a => exact failsWith_ok a

end Results

open Results

/-- The values that references lead to are there or not, whatever their types. -/
theorem NamedValues.resolve_failsWith (values : NamedValues) (value : Value) :
    FailsWith (·.isInternal = false) (values.resolve value) := by
  have hfollow (origin : String) (count : Nat) (value : Value) :
      FailsWith (·.isInternal = false) (values.follow origin count value) := by
    induction count generalizing value with
    | zero => exact failsWith_error rfl
    | succ count ih =>
        cases value with
        | reference name =>
            rw [follow.eq_def]
            simp only
            cases values.lookup name with
            | none => exact failsWith_error rfl
            | some target => exact ih target
        | _ => exact failsWith_ok _
  cases value with
  | reference name => exact hfollow _ _ _
  | _ => exact failsWith_ok _

theorem Builtin.accept_failsWith (builtin : Builtin) (value : Value) :
    FailsWith (·.isInternal = false) (builtin.accept value) := by
  rw [accept.eq_def]
  split
  any_goals exact failsWith_ok _
  · split
    · refine failsWith_mapError (fun _ => ?_) _
      rfl
    · exact failsWith_error rfl
  · exact failsWith_error rfl

theorem Constraint.check_failsWith {constraint : Constraint} (hrange : constraint.isRange = true)
    (scope : Scope) (value : Value) :
    FailsWith (·.isInternal = false) (constraint.check scope value) := by
  cases constraint with
  | size range =>
      change FailsWith _ (range.check value)
      rw [SizeRange.check]
      cases value.size? with
      | none => exact failsWith_error rfl
      | some size =>
          simp only
          split
          · exact failsWith_ok _
          · exact failsWith_error rfl
  | value range =>
      cases value with
      | integer i =>
          change FailsWith _ (range.check (.integer i))
          rw [ValueRange.check]
          split
          · exact failsWith_ok _
          · exact failsWith_error rfl
      | _ => exact failsWith_error rfl
  | custom check => simp [isRange] at hrange

end Asn1

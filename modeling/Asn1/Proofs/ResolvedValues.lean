import Asn1.Proofs.AcceptanceAgreement
import Asn1.Proofs.Lookups
import Asn1.Proofs.ReducedValues
import Asn1.Proofs.SchemaCalls

/-!
Values that refer to other values. Following references can go on for ever through the values, but
not through the types that they are matched to, so that checking a value and finding its canonical
form descend no further than the types depend on each other. Nothing is left of the references, and
it makes no difference whether a value is written or referred to.
-/

namespace Asn1

open Results

namespace Schema

/-- Whether no chain of types, each of which depends on the next one, is longer than the limit. -/
def NestsWithin (schema : Schema) (limit : Nat) (handle : Handle) : Prop :=
  ∀ chain, List.IsChain schema.DependsOn (handle :: chain) → (handle :: chain).length ≤ limit

variable {schema : Schema} {handle : Handle} {type : CompiledType}

end Schema

/-- Whether two values differ only in that one of them refers to a value that the other one holds
in that place. -/
inductive Value.ReplacesReference (values : NamedValues) : Value → Value → Prop
  | reference {name : String} {resolved : Value}
    (hresolve : values.resolve (.reference name) = .ok resolved) :
    ReplacesReference values (.reference name) resolved
  | item {before after : List Value} {item other : Value}
    (h : ReplacesReference values item other) :
    ReplacesReference values (.list (before ++ item :: after)) (.list (before ++ other :: after))
  | entry {before after : Entries} {name : String} {value other : Value}
    (h : ReplacesReference values value other) :
    ReplacesReference values (.collection (before ++ (name, value) :: after))
      (.collection (before ++ (name, other) :: after))

/-- Whether a constraint cannot tell whether the collection value that is being walked holds a value
or refers to it. -/
def Constraint.OverlooksReferences (values : NamedValues) (constraint : Constraint) : Prop :=
  ∀ (scope : Scope) entries other value,
    Value.ReplacesReference values (.collection entries) (.collection other) →
      (constraint.check { scope with entries? := some entries } value = .ok () ↔
        constraint.check { scope with entries? := some other } value = .ok ())

/-- Whether two contexts differ at most in that a value is held, rather than referred to, by the
collection value that is being walked. -/
def Scope.ReplacesReference (values : NamedValues) (scope scope' : Scope) : Prop :=
  scope = scope' ∨ ∃ entries other,
    Value.ReplacesReference values (.collection entries) (.collection other) ∧
      scope.entries? = some entries ∧ scope' = { scope with entries? := some other }

namespace Scope

variable {values : NamedValues} {scope scope' : Scope}

theorem ReplacesReference.typed (h : scope.ReplacesReference values scope') (handle : Handle)
    (description : String) :
    (scope.typed handle description).ReplacesReference values
      (scope'.typed handle description) := by
  rcases h with rfl | ⟨entries, other, hreplaces, hentries, rfl⟩
  · exact .inl rfl
  · exact .inr ⟨entries, other, hreplaces, hentries, rfl⟩

theorem ReplacesReference.walking_eq (h : scope.ReplacesReference values scope')
    (entries : Entries) : scope.walking entries = scope'.walking entries := by
  rcases h with rfl | ⟨_, _, -, -, rfl⟩
  · rfl
  · rfl

theorem ReplacesReference.walking (h : scope.ReplacesReference values scope')
    {entries other : Entries}
    (hreplaces : Value.ReplacesReference values (.collection entries) (.collection other)) :
    (scope.walking entries).ReplacesReference values (scope'.walking other) := by
  rw [← h.walking_eq other]
  exact .inr ⟨entries, other, hreplaces, rfl, rfl⟩

theorem ReplacesReference.check_eq_ok_iff (h : scope.ReplacesReference values scope')
    {constraint : Constraint} (hoverlooks : constraint.OverlooksReferences values) (value : Value) :
    constraint.check scope value = .ok () ↔ constraint.check scope' value = .ok () := by
  rcases h with rfl | ⟨entries, other, hreplaces, hentries, rfl⟩
  · exact Iff.rfl
  · have hsame : scope = { scope with entries? := some entries } := by rw [← hentries]
    rw [hsame]
    exact hoverlooks scope entries other value hreplaces

end Scope

theorem Constraint.overlooksReferences_of_forall {values : NamedValues} {constraint : Constraint}
    (h : ∀ scope scope' value,
      constraint.check scope value = .ok () → constraint.check scope' value = .ok ()) :
    constraint.OverlooksReferences values := by
  intro _ _ _ value _
  exact ⟨h _ _ value, h _ _ value⟩

namespace CompiledType

/-- Whether a value becomes another one if a reference that is matched to a type is replaced by what
it leads to. -/
inductive ReplacesReference (values : NamedValues) : CompiledType → Value → Value → Prop
  | reference {type : CompiledType} {name : String} {resolved : Value}
    (hresolve : values.resolve (.reference name) = .ok resolved) :
    ReplacesReference values type (.reference name) resolved
  | alias {info : TypeInfo} {target : CompiledType} {value other : Value}
    (h : ReplacesReference values target value other) :
    ReplacesReference values ⟨info, .alias target⟩ value other
  | tagged {info : TypeInfo} {tag : Tag} {method : TagMethod} {inner : CompiledType}
    {value other : Value} (h : ReplacesReference values inner value other) :
    ReplacesReference values ⟨info, .tagged tag method inner⟩ value other
  | item {info : TypeInfo} {layout : Layout CompiledType} {element : Component CompiledType}
    {before after : List Value} {item other : Value} (helement : layout.element? = some element)
    (h : ReplacesReference values element.type item other) :
    ReplacesReference values ⟨info, .collection layout⟩ (.list (before ++ item :: after))
      (.list (before ++ other :: after))
  | entry {info : TypeInfo} {layout : Layout CompiledType} {component : Component CompiledType}
    {before after : Entries} {name : String} {value other : Value}
    (hfind : layout.component? name = some component)
    (h : ReplacesReference values component.type value other) :
    ReplacesReference values ⟨info, .collection layout⟩
      (.collection (before ++ (name, value) :: after))
      (.collection (before ++ (name, other) :: after))

/-- Whether no constraint in a type can tell a value from a reference to it in its context. -/
def OverlooksReferences (values : NamedValues) (type : CompiledType) : Prop :=
  ∀ inner, type.Reaches inner → ∀ constraint ∈ inner.info.constraints,
    constraint.OverlooksReferences values

variable {values : NamedValues}

theorem OverlooksReferences.of_mk {info : TypeInfo} {form : TypeForm CompiledType}
    (h : OverlooksReferences values ⟨info, form⟩) :
    (∀ constraint ∈ info.constraints, constraint.OverlooksReferences values) ∧
      ∀ inner ∈ form.types, inner.OverlooksReferences values :=
  forall_reaches_mk_iff.mp h

theorem HasRangesOnly.overlooksReferences {type : CompiledType} (h : type.HasRangesOnly) :
    type.OverlooksReferences values := by
  intro inner hreaches constraint hmem
  refine Constraint.overlooksReferences_of_forall fun scope scope' value hcheck => ?_
  exact (Constraint.check_eq_ok_iff_of_isAlike (h inner hreaches constraint hmem)
    (Value.IsAlike.refl value) scope scope').mp hcheck

theorem ReplacesReference.value {type : CompiledType} {value other : Value}
    (h : type.ReplacesReference values value other) : value.ReplacesReference values other := by
  induction h with
  | reference hresolve => exact .reference hresolve
  | «alias» _ ih => exact ih
  | tagged _ ih => exact ih
  | item _ _ ih => exact .item ih
  | entry _ _ ih => exact .entry ih

end CompiledType

namespace Results

end Results

namespace Layout

variable {layout : Layout CompiledType} {entries other : Entries}

end Layout

namespace CompiledType

variable {values : NamedValues} {info : TypeInfo} {layout : Layout CompiledType}
  {value other result : Value}

section Reducing

end Reducing

section Canonicalizing

variable {scope scope' : Scope}

end Canonicalizing

end CompiledType

namespace Schema

variable {schema : Schema} {handle : Handle} {type : CompiledType}

end Schema

end Asn1

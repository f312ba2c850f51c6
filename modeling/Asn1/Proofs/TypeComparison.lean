import Asn1.Proofs.CompiledTypes
import Asn1.Schema
import Mathlib.Data.List.Forall2

namespace Asn1

theorem Component.eq_of_map_unit {τ : Type} {component other : Component τ}
    (hrest : component.map (fun _ => ()) = other.map (fun _ => ()))
    (htype : component.type = other.type) : component = other := by
  cases component
  cases other
  simp_all [map]

theorem Layout.eq_of_map_unit {τ : Type} {layout other : Layout τ}
    (hrest : layout.map (fun _ => ()) = other.map (fun _ => ()))
    (htypes : layout.components.map Component.type = other.components.map Component.type) :
    layout = other := by
  obtain ⟨kind, extensible, components⟩ := layout
  obtain ⟨kind', extensible', others⟩ := other
  simp only [map, mk.injEq] at hrest ⊢
  obtain ⟨rfl, rfl, hrest⟩ := hrest
  refine ⟨rfl, rfl, ?_⟩
  have hinjective : Function.Injective fun component : Component τ =>
      (component.map (fun _ => ()), component.type) := by
    intro component other heq
    exact Component.eq_of_map_unit (Prod.mk.inj heq).1 (Prod.mk.inj heq).2
  apply hinjective.list_map
  rw [← List.zip_map', ← List.zip_map']
  exact congrArg₂ List.zip hrest htypes

namespace TypeForm

theorem eq_of_map_unit {τ : Type} {form other : TypeForm τ}
    (hrest : form.map (fun _ => ()) = other.map (fun _ => ()))
    (htypes : form.types = other.types) : form = other := by
  cases form with
  | collection layout =>
      cases other with
      | collection other =>
          rw [map, map, collection.injEq] at hrest
          rw [Layout.eq_of_map_unit hrest htypes]
      | _ => simp [map] at hrest
  | _ => cases other <;> simp_all [map, types]

/-- Whether two forms are the same, where comparing the types has been left to the first one. -/
def isSame (form : TypeForm (CompiledType → Bool)) (other : TypeForm CompiledType) : Bool :=
  form.map (fun _ => ()) = other.map (fun _ => ()) &&
    (form.types.zip other.types).all fun (isSame, type) => isSame type

end TypeForm

namespace CompiledType

def isSameStep (info : TypeInfo) (form : TypeForm (CompiledType → Bool)) :
    CompiledType → Bool
  | ⟨info', other⟩ =>
    (info.handle = info'.handle && info.name? = info'.name? &&
      info.constraints.isEmpty && info'.constraints.isEmpty) && form.isSame other

/-- Whether two types are the same and have no constraints. In general types cannot be compared, as
constraints are functions. -/
def isSame (type : CompiledType) : CompiledType → Bool :=
  type.interpret isSameStep

theorem eq_of_isSame {type other : CompiledType} (h : type.isSame other = true) :
    type = other := by
  induction type using CompiledType.induct generalizing other with
  | mk info form ih =>
      obtain ⟨info', form'⟩ := other
      rw [isSame, interpret_mk, isSameStep, TypeForm.isSame] at h
      simp only [Bool.and_eq_true, decide_eq_true_eq, List.isEmpty_iff] at h
      obtain ⟨⟨⟨⟨hhandle, hname⟩, hconstraints⟩, hconstraints'⟩, hrest, htypes⟩ := h
      have hinfo : info = info' := by
        cases info
        cases info'
        simp_all
      rw [TypeForm.map_map] at hrest
      rw [TypeForm.types_map, List.all_eq_true] at htypes
      rw [hinfo, TypeForm.eq_of_map_unit hrest]
      rw [← List.forall₂_eq_eq_eq, List.forall₂_iff_zip]
      constructor
      · simpa [TypeForm.types_map] using congrArg (fun form => form.types.length) hrest
      · intro inner inner' hmem
        have hsame : inner.isSame inner' = true := by
          refine htypes (inner.isSame, inner') ?_
          rw [List.zip_map_left]
          exact List.mem_map_of_mem (f := Prod.map isSame id) hmem
        exact ih inner (List.of_mem_zip hmem).1 hsame

end CompiledType

namespace Schema

/-- Whether a type has been compiled to one that is the same and has no constraints. -/
def hasCompiled (schema : Schema) (handle : Handle) (type : CompiledType) : Bool :=
  match schema.compiled handle with
  | .ok compiled => compiled.isSame type
  | .error _ => false

theorem compiled_of_hasCompiled {schema : Schema} {handle : Handle} {type : CompiledType}
    (h : schema.hasCompiled handle type = true) : schema.compiled handle = .ok type := by
  rw [hasCompiled] at h
  cases hcompiled : schema.compiled handle with
  | ok compiled =>
      rw [hcompiled] at h
      rw [CompiledType.eq_of_isSame h]
  | error error =>
      rw [hcompiled] at h
      contradiction

end Schema

end Asn1

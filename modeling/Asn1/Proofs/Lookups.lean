import Asn1.Proofs.CompilationSteps

/-!
Looking types up. A compiled type holds the types it depends on, so that operations on its values do
without the schema. An operation that instead looks up each type it comes to, by the references of
its declaration, does the same: no lookup fails, and there are only so many below one another.
-/

namespace Asn1

namespace TypeForm

variable {σ τ : Type}

theorem map_congr {f g : σ → τ} {form : TypeForm σ} (h : ∀ type ∈ form.types, f type = g type) :
    form.map f = form.map g := by
  cases form with
  | builtin builtin => rfl
  | «alias» target => rw [map, map, h target target_mem_types]
  | tagged tag method inner => rw [map, map, h inner inner_mem_types]
  | collection layout =>
      have hcomponents : layout.components.map (Component.map f) =
          layout.components.map (Component.map g) := by
        refine List.map_congr_left ?_
        intro component hmem
        rw [Component.map, Component.map, h _ (type_mem_types hmem)]
      rw [map, map, Layout.map, Layout.map, hcomponents]

end TypeForm

namespace CompiledType

theorem NestsWithin.mono {limit more : Nat} {type : CompiledType} (h : type.NestsWithin limit)
    (hle : limit ≤ more) : type.NestsWithin more := by
  intro chain hchain
  exact (h chain hchain).trans hle

theorem exists_nestsWithin (type : CompiledType) : ∃ limit, type.NestsWithin limit := by
  have hall (types : List CompiledType) (h : ∀ type ∈ types, ∃ limit, type.NestsWithin limit) :
      ∃ limit, ∀ type ∈ types, type.NestsWithin limit := by
    induction types with
    | nil => exact ⟨0, by simp⟩
    | cons first rest ih =>
        obtain ⟨⟨limit, hfirst⟩, hrest⟩ := List.forall_mem_cons.mp h
        obtain ⟨more, hrest⟩ := ih hrest
        refine ⟨max limit more, List.forall_mem_cons.mpr ⟨hfirst.mono (le_max_left _ _), ?_⟩⟩
        exact fun type hmem => (hrest type hmem).mono (le_max_right _ _)
  induction type using CompiledType.induct with
  | mk info form ih =>
      obtain ⟨limit, h⟩ := hall form.types ih
      exact ⟨limit + 1, nestsWithin_mk_iff.mpr ⟨limit, rfl, h⟩⟩

end CompiledType

namespace Schema

/-- What a type is, with the handles of the types it depends on. It has to be compiled, its
references have to lead somewhere, and a collection has to have a layout. -/
def form (schema : Schema) (handle : Handle) : Except SchemaError (TypeInfo × TypeForm Handle) := do
  let type ← schema.compiled handle
  match schema.definition? handle with
  | none => throw (.unresolvedType handle.text)
  | some (.builtin builtin) => return (type.info, .builtin builtin)
  | some (.alias target) => return (type.info, .alias (← schema.resolve target))
  | some (.tagged tag method inner) =>
    return (type.info, .tagged tag method (← schema.resolve inner))
  | some (.collection _) =>
    match type.layout? with
    | some layout => return (type.info, .collection (layout.map CompiledType.handle))
    | none => throw (.notCompiled (schema.describe handle))

section Interpretation

variable {α β : Type} (schema : Schema) (step : TypeInfo → TypeForm (α → β) → α → β)
  (failed : SchemaError → α → β)

/-- The meaning of a type for which each type is looked up by its handle, at most `count` of them
below one another. Where that is not possible the meaning is `failed`. -/
def interpretWithin : Nat → Handle → α → β
  | 0, handle => failed (.cyclicDefinition (schema.describe handle))
  | count + 1, handle =>
    match schema.form handle with
    | .error error => failed error
    | .ok (info, form) => step info (form.map (interpretWithin count))

end Interpretation

variable {schema : Schema} {handle : Handle} {type : CompiledType}

theorem Consistent.form_eq (h : schema.Consistent) (hcompiled : schema.compiled handle = .ok type) :
    schema.form handle = .ok (type.info, type.form.map CompiledType.handle) := by
  have hholds := h _ _ hcompiled
  have hresolve (inner : CompiledType) (hmem : inner ∈ type.form.types) :
      schema.resolve (.handle inner.handle) = .ok inner.handle :=
    resolve_handle_of_has (hholds.types inner hmem)
  obtain ⟨info, form⟩ := type
  obtain ⟨definition, hdefinition, hdescribes : definition.Describes form⟩ :=
    definition?_of_holds hholds
  rw [Schema.form, hcompiled, hdefinition]
  cases hdescribes using Definition.Describes.induct with
  | builtin builtin => rfl
  | «alias» target =>
      have htarget := hresolve target TypeForm.target_mem_types
      simp only [htarget]
      rfl
  | tagged tag method inner =>
      have hinner := hresolve inner TypeForm.inner_mem_types
      simp only [hinner]
      rfl
  | collection collection layout => rfl

theorem Consistent.interpretWithin_eq (h : schema.Consistent) {α β : Type}
    (step : TypeInfo → TypeForm (α → β) → α → β) (failed : SchemaError → α → β) {count : Nat}
    (hcompiled : schema.compiled handle = .ok type) (hnests : type.NestsWithin count) :
    schema.interpretWithin step failed count handle = type.interpret step := by
  induction type using CompiledType.induct generalizing handle count with
  | mk info form ih =>
      obtain ⟨rest, rfl, hinner⟩ := CompiledType.nestsWithin_mk_iff.mp hnests
      have htypes := (h _ _ hcompiled).types
      funext a
      rw [interpretWithin, h.form_eq hcompiled, CompiledType.interpret_mk]
      change step info ((form.map CompiledType.handle).map _) a = _
      rw [TypeForm.map_map, TypeForm.map_congr fun inner hmem =>
        ih inner hmem (htypes inner hmem) (hinner inner hmem)]

end Schema

end Asn1

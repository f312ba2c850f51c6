import Asn1.Proofs.SchemaSteps

/-!
What constraints can see of a schema as it goes on. Values are checked in the same way at two times
if the constraints on their types check alike at both. What a constraint may look at for that is
what stays as it is: types that are settled, names and named values.
-/

namespace Asn1

open Results

/-- Whether a type has been compiled or cannot be. -/
def TypeView.IsSettled (type : TypeView) : Prop :=
  type.status = .failed ∨ ∃ layout?, type.status = .compiled layout?

namespace SchemaView

/-- The type that was defined under a name. -/
def lookup (view : SchemaView) (name : String) : Option Handle :=
  (view.types.findIdx? (·.name? = some name)).map Handle.mk

/-- Whether what one view shows is still there in another one, but for types that are not settled.
-/
structure IsWithin (view later : SchemaView) : Prop where
  settled : ∀ {handle type}, view.type? handle = some type → type.IsSettled →
    later.type? handle = some type
  lookup : ∀ {name handle}, view.lookup name = some handle → later.lookup name = some handle
  values : view.values.IsWithin later.values

/-- Whether one view shows what may have become of another one if no values have been defined. -/
structure MayCompileTo (view later : SchemaView) : Prop extends view.IsWithin later where
  values_le : later.values.IsWithin view.values

theorem MayCompileTo.refl (view : SchemaView) : view.MayCompileTo view :=
  ⟨⟨fun htype _ => htype, id, id⟩, id⟩

theorem MayCompileTo.trans {view later last : SchemaView} (h : view.MayCompileTo later)
    (hlast : later.MayCompileTo last) : view.MayCompileTo last := by
  exact ⟨⟨fun htype hsettled => hlast.settled (h.settled htype hsettled) hsettled,
    fun hlookup => hlast.lookup (h.lookup hlookup), fun hvalue => hlast.values (h.values hvalue)⟩,
    fun hvalue => h.values_le (hlast.values_le hvalue)⟩

end SchemaView

namespace Schema

variable {schema before after : Schema}

theorem type?_view (schema : Schema) (handle : Handle) :
    schema.view.type? handle = (schema.node? handle).map SchemaNode.view := by
  rw [SchemaView.type?, view, node?]
  exact Array.getElem?_map

theorem lookup_view (schema : Schema) (name : String) :
    schema.view.lookup name = schema.lookup name := by
  rw [SchemaView.lookup, view, lookup, Array.findIdx?_map]
  rfl

theorem isSettled_view_iff {node : SchemaNode} : node.view.IsSettled ↔ node.status.IsSettled := by
  change node.status.view = .failed ∨ (∃ layout?, node.status.view = .compiled layout?) ↔ _
  cases hstatus : node.status <;> simp [TypeStatus.view, TypeStatus.IsSettled]

theorem not_isSettled_of_type?_view {handle : Handle} {node : SchemaNode} {type : TypeView}
    (hnode : schema.node? handle = some node) (hopen : ¬node.status.IsSettled)
    (htype : schema.view.type? handle = some type) : ¬type.IsSettled := by
  rw [type?_view, hnode] at htype
  obtain rfl := Option.some.inj htype
  exact mt isSettled_view_iff.mp hopen

theorem Retains.view_isWithin (h : before.Retains after) : before.view.IsWithin after.view := by
  refine ⟨?_, ?_, h.values⟩
  · intro handle type htype hsettled
    rw [type?_view] at htype ⊢
    obtain ⟨node, hnode, rfl⟩ := Option.map_eq_some_iff.mp htype
    rw [h.settled hnode (isSettled_view_iff.mp hsettled)]
    rfl
  · intro name handle hlookup
    rw [lookup_view] at hlookup ⊢
    exact resolve_name_eq_ok_iff.mp (h.resolve (resolve_name_eq_ok_iff.mpr hlookup))

end Schema

namespace Constraint

/-- Whether a constraint gives the same results with one schema as with another one. -/
def ChecksAlike (view view' : SchemaView) (constraint : Constraint) : Prop :=
  ∀ (scope : Scope) value, constraint.check { scope with schema := view } value =
    constraint.check { scope with schema := view' } value

/-- Whether what passes a constraint with one schema passes it with another one. -/
def StillPasses (view view' : SchemaView) (constraint : Constraint) : Prop :=
  ∀ (scope : Scope) value, constraint.check { scope with schema := view } value = .ok () →
    constraint.check { scope with schema := view' } value = .ok ()

theorem ChecksAlike.stillPasses {view view' : SchemaView} {constraint : Constraint}
    (h : constraint.ChecksAlike view view') : constraint.StillPasses view view' := by
  intro scope value hcheck
  rwa [← h]

theorem checksAlike_of_isRange {constraint : Constraint} (h : constraint.isRange = true)
    (view view' : SchemaView) : constraint.ChecksAlike view view' := by
  intro scope value
  cases constraint with
  | custom check => simp [isRange] at h
  | _ => rfl

/-- Whether a constraint gives the same results whatever is compiled later. -/
def OverlooksCompiling (view : SchemaView) (constraint : Constraint) : Prop :=
  ∀ later, view.MayCompileTo later → constraint.ChecksAlike view later

theorem OverlooksCompiling.mono {view later : SchemaView} {constraint : Constraint}
    (h : constraint.OverlooksCompiling view) (hlater : view.MayCompileTo later) :
    constraint.OverlooksCompiling later := by
  intro last hlast scope value
  rw [← h later hlater, h last (hlater.trans hlast)]

theorem OverlooksCompiling.checksAlike {view later last : SchemaView} {constraint : Constraint}
    (h : constraint.OverlooksCompiling view) (hlater : view.MayCompileTo later)
    (hlast : view.MayCompileTo last) : constraint.ChecksAlike later last := by
  intro scope value
  rw [← h later hlater, h last hlast]

end Constraint

/-- Whether all constraints that are declared give the same results whatever is compiled later. -/
def Schema.OverlooksCompiling (schema : Schema) (view : SchemaView) : Prop :=
  ∀ handle node, schema.node? handle = some node →
    ∀ constraint ∈ node.declaration.constraints, constraint.OverlooksCompiling view

namespace CompiledType

variable {view view' : SchemaView}

/-- Whether all constraints in a type give the same results with one schema as with another one. -/
def ChecksAlike (view view' : SchemaView) (type : CompiledType) : Prop :=
  ∀ inner, type.Reaches inner → ∀ constraint ∈ inner.info.constraints,
    constraint.ChecksAlike view view'

theorem ChecksAlike.of_mk {info : TypeInfo} {form : TypeForm CompiledType}
    (h : ChecksAlike view view' ⟨info, form⟩) :
    (∀ constraint ∈ info.constraints, constraint.ChecksAlike view view') ∧
      ∀ inner ∈ form.types, inner.ChecksAlike view view' :=
  forall_reaches_mk_iff.mp h

/-- Whether what passes the constraints in a type with one schema passes them with another one. -/
def StillPasses (view view' : SchemaView) (type : CompiledType) : Prop :=
  ∀ inner, type.Reaches inner → ∀ constraint ∈ inner.info.constraints,
    constraint.StillPasses view view'

theorem StillPasses.of_mk {info : TypeInfo} {form : TypeForm CompiledType}
    (h : StillPasses view view' ⟨info, form⟩) :
    (∀ constraint ∈ info.constraints, constraint.StillPasses view view') ∧
      ∀ inner ∈ form.types, inner.StillPasses view view' :=
  forall_reaches_mk_iff.mp h

theorem ChecksAlike.stillPasses {type : CompiledType} (h : type.ChecksAlike view view') :
    type.StillPasses view view' := by
  intro inner hreaches constraint hmem
  exact (h inner hreaches constraint hmem).stillPasses

/-- Whether no constraint in a type looks at the schema. -/
def OverlooksSchema (type : CompiledType) : Prop :=
  ∀ view view', type.ChecksAlike view view'

theorem OverlooksSchema.of_mk {info : TypeInfo} {form : TypeForm CompiledType}
    (h : OverlooksSchema ⟨info, form⟩) : ∀ inner ∈ form.types, inner.OverlooksSchema := by
  intro inner hmem view view'
  exact (h view view').of_mk.2 inner hmem

theorem HasRangesOnly.overlooksSchema {type : CompiledType} (h : type.HasRangesOnly) :
    type.OverlooksSchema := by
  intro view view' inner hreaches constraint hmem
  exact Constraint.checksAlike_of_isRange (h inner hreaches constraint hmem) view view'

/-- Only its constraints look at the schema when a value is brought into canonical form. -/
theorem canonicalize_withSchema {type : CompiledType} (h : type.ChecksAlike view view')
    (values : NamedValues) (scope : Scope) (value : Value) :
    type.canonicalize values { scope with schema := view } value =
      type.canonicalize values { scope with schema := view' } value := by
  induction type using CompiledType.induct generalizing scope value with
  | mk info form ih =>
      obtain ⟨hchecks, htypes⟩ := h.of_mk
      have hinner (inner : CompiledType) (hmem : inner ∈ form.types) (scope : Scope)
          (value : Value) : inner.canonicalize values { scope with schema := view } value =
            inner.canonicalize values { scope with schema := view' } value :=
        ih inner hmem (htypes inner hmem) scope value
      rw [canonicalize, canonicalize, interpret_mk, interpret_mk, canonicalizeStep,
        canonicalizeStep]
      refine congrArg _ (funext fun resolved => ?_)
      have hconstraints (canonical : Value) :
          info.constraints.forM (·.check (Scope.typed { scope with schema := view } info.handle
            info.description) canonical) =
          info.constraints.forM (·.check (Scope.typed { scope with schema := view' } info.handle
            info.description) canonical) :=
        forM_congr fun constraint hmem =>
          hchecks constraint hmem (scope.typed info.handle info.description) canonical
      simp only [hconstraints]
      cases form with
      | builtin builtin => rfl
      | «alias» target =>
          exact congrArg (· >>= _) (hinner target TypeForm.target_mem_types
            (scope.typed info.handle info.description) resolved)
      | tagged tag method inner =>
          exact congrArg (· >>= _) (hinner inner TypeForm.inner_mem_types
            (scope.typed info.handle info.description) resolved)
      | collection layout =>
          refine congrArg (· >>= _) (Layout.canonicalize_congr (fun component hmem item => ?_)
            fun component hmem entries item => ?_)
          · exact hinner component.type (TypeForm.type_mem_types hmem)
              (scope.typed info.handle info.description) item
          · exact hinner component.type (TypeForm.type_mem_types hmem)
              ((scope.typed info.handle info.description).walking entries) item

end CompiledType

section Later

variable {values later : NamedValues}

theorem NamedValues.IsWithin.follow (h : values.IsWithin later) {origin : String} {count : Nat}
    {value resolved : Value} (hfollow : values.follow origin count value = .ok resolved) :
    later.follow origin count value = .ok resolved := by
  induction count generalizing value with
  | zero => simp [NamedValues.follow] at hfollow
  | succ count ih =>
      cases value with
      | reference name =>
          rw [NamedValues.follow] at hfollow ⊢
          cases hlookup : values.lookup name with
          | none => simp [hlookup] at hfollow
          | some found =>
              rw [hlookup] at hfollow
              rw [h hlookup]
              exact ih hfollow
      | _ => exact hfollow

theorem NamedValues.IsWithin.resolve (h : values.IsWithin later) {value resolved : Value}
    (hresolve : values.resolve value = .ok resolved) : later.resolve value = .ok resolved := by
  cases value with
  | reference name => exact h.follow hresolve
  | _ => exact hresolve

namespace CompiledType

variable {type : CompiledType} {view view' : SchemaView} {value : Value}

/-- What conforms to a type still does when more values are defined, and what was accepted by its
constraints is. -/
theorem accept_of_isWithin (hregular : type.IsRegular) (hwithin : values.IsWithin later)
    (hpasses : type.StillPasses view view') (scope : Scope)
    (h : type.accept values { scope with schema := view } value = .ok ()) :
    type.accept later { scope with schema := view' } value = .ok () := by
  induction type using CompiledType.induct generalizing scope value with
  | mk info form ih =>
      obtain ⟨hlayout, htypes⟩ := hregular.of_mk
      obtain ⟨hchecks, hinner⟩ := hpasses.of_mk
      have hsame (inner : CompiledType) (hmem : inner ∈ form.types) (scope : Scope)
          {value : Value} (h : inner.accept values { scope with schema := view } value = .ok ()) :
          inner.accept later { scope with schema := view' } value = .ok () :=
        ih inner hmem (htypes inner hmem) (hinner inner hmem) scope h
      obtain ⟨resolved, hresolve, hform, hpassed⟩ := (accept_mk_iff hlayout).mp h
      refine (accept_mk_iff hlayout).mpr ⟨resolved, hwithin.resolve hresolve, ?_, ?_⟩
      · refine hform.imp fun inner hmem => ⟨fun h => ?_, fun entries _ h => ?_⟩
        · exact hsame inner hmem (scope.typed info.handle info.description) h
        · exact hsame inner hmem ((scope.typed info.handle info.description).walking entries) h
      · intro constraint hmem
        exact hchecks constraint hmem (scope.typed info.handle info.description) resolved
          (hpassed constraint hmem)

theorem canonicalize_of_isWithin (hregular : type.IsRegular) (hwithin : values.IsWithin later)
    (hpasses : type.StillPasses view view') (scope : Scope) {result : CanonicalForm}
    (h : type.canonicalize values { scope with schema := view } value = .ok result) :
    type.canonicalize later { scope with schema := view' } value = .ok result := by
  induction type using CompiledType.induct generalizing scope value result with
  | mk info form ih =>
      obtain ⟨hlayout, htypes⟩ := hregular.of_mk
      obtain ⟨hchecks, hinner⟩ := hpasses.of_mk
      have hsame (inner : CompiledType) (hmem : inner ∈ form.types) (scope : Scope)
          {value : Value} {result : CanonicalForm}
          (h : inner.canonicalize values { scope with schema := view } value = .ok result) :
          inner.canonicalize later { scope with schema := view' } value = .ok result :=
        ih inner hmem (htypes inner hmem) (hinner inner hmem) scope h
      obtain ⟨resolved, canonical, hresolve, hform, hpassed, rfl⟩ :=
        (canonicalize_mk_iff hlayout).mp h
      refine (canonicalize_mk_iff hlayout).mpr
        ⟨resolved, canonical, hwithin.resolve hresolve, ?_, ?_, rfl⟩
      · refine hform.imp fun inner hmem => ⟨fun h => ?_, fun entries _ _ h => ?_⟩
        · exact hsame inner hmem (scope.typed info.handle info.description) h
        · exact hsame inner hmem ((scope.typed info.handle info.description).walking entries) h
      · intro constraint hmem
        exact hchecks constraint hmem (scope.typed info.handle info.description) canonical.value
          (hpassed constraint hmem)

end CompiledType

theorem CompiledType.canonicalize_unique {type : CompiledType} (hregular : type.IsRegular)
    {values' : NamedValues} (hwithin : values.IsWithin later) (hwithin' : values'.IsWithin later)
    {scope scope' : Scope} {value : Value} {result result' : CanonicalForm}
    (h : type.canonicalize values scope value = .ok result)
    (h' : type.canonicalize values' scope' value = .ok result') : result = result' := by
  induction type using CompiledType.induct generalizing scope scope' value result result' with
  | mk info form ih =>
      obtain ⟨hlayout, htypes⟩ := hregular.of_mk
      obtain ⟨resolved, canonical, hresolve, hform, -, rfl⟩ := (canonicalize_mk_iff hlayout).mp h
      obtain ⟨resolved', canonical', hresolve', hform', -, rfl⟩ :=
        (canonicalize_mk_iff hlayout).mp h'
      have hlater := hwithin.resolve hresolve
      rw [hwithin'.resolve hresolve'] at hlater
      obtain rfl := Except.ok.inj hlater
      rw [hform.unique hform' fun inner hmem _ _ _ _ _ => ih inner hmem (htypes inner hmem)]

theorem CompiledType.HasCanonical.unique {schema : Schema} {type : CompiledType}
    (hregular : type.IsRegular) {value canonical other : Value}
    (h : type.HasCanonical schema value canonical) (h' : type.HasCanonical schema value other) :
    canonical = other := by
  obtain ⟨values, scope, form, hwithin, hform, rfl⟩ := h
  obtain ⟨values', scope', form', hwithin', hform', rfl⟩ := h'
  rw [canonicalize_unique hregular hwithin hwithin' hform hform']

end Later

namespace Schema

variable {start schema earlier : Schema} {view later last : SchemaView} {type : CompiledType}

theorem OverlooksCompiling.mono (h : schema.OverlooksCompiling view)
    (hlater : view.MayCompileTo later) : schema.OverlooksCompiling later := by
  intro handle node hnode constraint hmem
  exact (h handle node hnode constraint hmem).mono hlater

theorem OverlooksCompiling.withNode {handle : Handle} {old new : SchemaNode}
    (h : schema.OverlooksCompiling view) (hold : schema.node? handle = some old)
    (hsame : new.declaration.constraints = old.declaration.constraints) :
    (schema.withNode handle new).OverlooksCompiling view := by
  intro other node hnode
  rw [node?_withNode hold] at hnode
  split at hnode
  · obtain rfl := Option.some.inj hnode
    exact hsame ▸ h handle old hold
  · exact h other node hnode

/-- Whether all constraints on compiled types have been declared in `start`. -/
def KeepsConstraints (start schema : Schema) : Prop :=
  ∀ handle type, schema.compiled handle = .ok type → ∀ constraint ∈ type.info.constraints,
    ∃ node, start.node? handle = some node ∧ constraint ∈ node.declaration.constraints

theorem KeepsConstraints.checksAlike (h : start.KeepsConstraints schema)
    (hconsistent : schema.Consistent) (hoverlooks : start.OverlooksCompiling view)
    (hhas : schema.Has type) (hlater : view.MayCompileTo later) (hlast : view.MayCompileTo last) :
    type.ChecksAlike later last := by
  intro inner hreaches constraint hmem
  obtain ⟨node, hnode, hdeclared⟩ :=
    h inner.handle inner (hconsistent.compiled_of_reaches hhas hreaches) constraint hmem
  exact (hoverlooks inner.handle node hnode constraint hdeclared).checksAlike hlater hlast

theorem mayCompileTo_view (hretains : start.Retains schema)
    (hvalues : schema.values.IsWithin start.values) : start.view.MayCompileTo schema.view :=
  ⟨hretains.view_isWithin, hvalues⟩

theorem mayCompileTo_withNode {handle : Handle} {old new : SchemaNode}
    (hold : schema.node? handle = some old) (hopen : ¬old.status.IsSettled)
    (hname : new.name? = old.name?) :
    schema.view.MayCompileTo (schema.withNode handle new).view :=
  mayCompileTo_view (retains_withNode hold hopen hname) id

theorem OverlooksCompiling.withNode_view {handle : Handle} {old new : SchemaNode}
    (h : schema.OverlooksCompiling schema.view) (hold : schema.node? handle = some old)
    (hopen : ¬old.status.IsSettled) (hname : new.name? = old.name?)
    (hsame : new.declaration.constraints = old.declaration.constraints) :
    (schema.withNode handle new).OverlooksCompiling (schema.withNode handle new).view := by
  apply (h.withNode hold hsame).mono
  exact mayCompileTo_withNode hold hopen hname

/-- Nothing is said about types that are not settled, so that any of them can be replaced. -/
theorem mayCompileTo_withNode_of_open {handle : Handle} {old new : SchemaNode}
    (h : view.MayCompileTo schema.view) (hold : schema.node? handle = some old)
    (hopen : ∀ type, view.type? handle = some type → ¬type.IsSettled)
    (hname : new.name? = old.name?) : view.MayCompileTo (schema.withNode handle new).view := by
  refine ⟨⟨?_, ?_, h.values⟩, h.values_le⟩
  · intro other type htype hsettled
    have hne : other ≠ handle := by
      rintro rfl
      exact hopen type htype hsettled
    rw [type?_view, node?_withNode hold, if_neg hne, ← type?_view]
    exact h.settled htype hsettled
  · intro name found hlookup
    rw [lookup_view, lookup_withNode hold hname, ← lookup_view]
    exact h.lookup hlookup

end Schema

end Asn1

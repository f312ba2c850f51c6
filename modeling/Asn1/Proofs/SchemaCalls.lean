import Asn1.Proofs.CompilationSteps

namespace Asn1

namespace Schema

/-- What a schema can be asked to do. -/
inductive Call
  | add (declaration : Declaration)
  | define (name : String) (declaration : Declaration)
  | defineValue (name : String) (value : Value)
  | copy (handle : Handle)
  | compile (handle : Handle)
  | compileAll

/-- The schema that a call leaves behind. One that is refused changes nothing, but compiling can
fail after other types have been compiled. -/
def perform (schema : Schema) : Call → Schema
  | .add declaration => (schema.add declaration).2
  | .define name declaration =>
    match schema.define name declaration with
    | .ok (_, next) => next
    | .error _ => schema
  | .defineValue name value =>
    match schema.defineValue name value with
    | .ok next => next
    | .error _ => schema
  | .copy handle =>
    match schema.node? handle with
    | some node => (schema.copy node).2
    | none => schema
  | .compile handle => ((Schema.compile handle).outcome schema).2
  | .compileAll => (Schema.compileAll.outcome schema).2

def run (schema : Schema) (calls : List Call) : Schema :=
  calls.foldl perform schema

/-- Whether a type is ready for use. -/
def IsDone (schema : Schema) (handle : Handle) : Prop :=
  ∃ type, schema.compiled handle = .ok type

/-- What a type is made of: what its declaration refers to or, if it is a collection, the types of
the components in its layout. -/
def dependencies (schema : Schema) (handle : Handle) : List TypeRef :=
  match schema.definition? handle with
  | some (.alias target) => [target]
  | some (.tagged _ _ inner) => [inner]
  | some (.collection _) =>
    match schema.layout? handle with
    | some layout => layout.components.map fun component => .handle component.type.handle
    | none => []
  | _ => []

def DependsOn (schema : Schema) (outer inner : Handle) : Prop :=
  .handle inner ∈ schema.dependencies outer

/-- What holds of the types of a schema between calls. -/
structure IsOrderly (schema : Schema) : Prop where
  atRest : ∀ handle node, schema.node? handle = some node → node.status ≠ .validating
  layout : ∀ handle collection, schema.definition? handle = some (.collection collection) →
    ((schema.layout? handle).isSome ↔ schema.IsDone handle)
  dependencies : ∀ outer, schema.IsDone outer → ∀ reference ∈ schema.dependencies outer,
    ∃ inner, reference = .handle inner ∧ schema.IsDone inner
  acyclic : ∀ handle, schema.IsDone handle → ¬Relation.TransGen schema.DependsOn handle handle

variable {schema before after : Schema} {handle : Handle} {type : CompiledType}

/-- The dependencies of a compiled type are the types in its compiled form. -/
theorem Consistent.dependencies_eq (h : schema.Consistent)
    (hcompiled : schema.compiled handle = .ok type) :
    schema.dependencies handle = type.form.types.map fun inner => .handle inner.handle := by
  obtain ⟨info, form⟩ := type
  obtain ⟨definition, hdefinition, hdescribes : definition.Describes form⟩ :=
    definition?_of_holds (h _ _ hcompiled)
  rw [dependencies, hdefinition]
  cases hdescribes using Definition.Describes.induct with
  | collection collection layout =>
      simp only [h.layout?_eq_some hcompiled]
      rw [CompiledType.form, TypeForm.types, List.map_map]
      rfl
  | _ => rfl

theorem Consistent.exists_of_dependsOn (h : schema.Consistent) {inner : Handle}
    (hcompiled : schema.compiled handle = .ok type) (hdepends : schema.DependsOn handle inner) :
    ∃ found ∈ type.form.types, schema.compiled inner = .ok found := by
  rw [DependsOn, h.dependencies_eq hcompiled, List.mem_map] at hdepends
  obtain ⟨found, hmem, heq⟩ := hdepends
  obtain rfl := TypeRef.handle.inj heq
  exact ⟨found, hmem, (h _ _ hcompiled).types found hmem⟩

/-- The compiled form of a type is a finite tree, so that what it depends on comes to an end. -/
theorem Consistent.acc_dependsOn (h : schema.Consistent)
    (hcompiled : schema.compiled handle = .ok type) :
    Acc (Function.swap schema.DependsOn) handle := by
  induction type using CompiledType.induct generalizing handle with
  | mk info form ih =>
      refine ⟨_, fun inner hdepends => ?_⟩
      obtain ⟨found, hmem, hfound⟩ := h.exists_of_dependsOn hcompiled hdepends
      exact ih found hmem hfound

theorem Consistent.isSome_layout?_iff (h : schema.Consistent) {collection : CollectionDeclaration}
    (hdefinition : schema.definition? handle = some (.collection collection)) :
    (schema.layout? handle).isSome ↔ schema.IsDone handle := by
  constructor
  · intro hsome
    rw [layout?_of_collection hdefinition] at hsome
    cases hcompiled : schema.compiled handle with
    | error error => simp [hcompiled, Except.toOption] at hsome
    | ok type => exact ⟨type, hcompiled⟩
  · rintro ⟨⟨info, form⟩, hcompiled⟩
    obtain ⟨found, hfound, hdescribes⟩ := definition?_of_holds (h _ _ hcompiled)
    obtain rfl := Option.some.inj (hdefinition.symm.trans hfound)
    cases form with
    | collection layout => simp [h.layout?_eq_some hcompiled]
    | _ => exact hdescribes.elim

theorem Consistent.isOrderly (h : schema.Consistent)
    (hrest : ∀ handle node, schema.node? handle = some node → node.status ≠ .validating) :
    schema.IsOrderly := by
  refine ⟨hrest, fun _ _ hdefinition => h.isSome_layout?_iff hdefinition, ?_, ?_⟩
  · rintro outer ⟨type, hcompiled⟩ reference hmem
    rw [h.dependencies_eq hcompiled, List.mem_map] at hmem
    obtain ⟨inner, hinner, rfl⟩ := hmem
    exact ⟨inner.handle, rfl, inner, (h _ _ hcompiled).types inner hinner⟩
  · rintro handle ⟨type, hcompiled⟩ hcycle
    exact not_transGen_self_of_acc (h.acc_dependsOn hcompiled) hcycle

section Calls

theorem Reachable.perform (h : schema.Reachable) (call : Call) :
    (schema.perform call).Reachable := by
  cases call with
  | add declaration => exact .add h declaration
  | define name declaration =>
      rw [Schema.perform]
      split
      · next hdefine => exact .define h hdefine
      · exact h
  | defineValue name value =>
      rw [Schema.perform]
      split
      · next hdefine => exact .defineValue h hdefine
      · exact h
  | copy handle =>
      rw [Schema.perform]
      split
      · next hnode => exact .copy h hnode
      · exact h
  | compile handle => exact .compile h handle
  | compileAll => exact .compileAll h

theorem Consistent.leadsTo_perform (h : schema.Consistent) (call : Call) :
    schema.LeadsTo (schema.perform call) := by
  have hpush (name? : Option String) (declaration : Declaration) :
      schema.LeadsTo (schema.push ⟨name?, declaration, .declared⟩).2 :=
    leadsTo_push schema (by simp)
  cases call with
  | add declaration => exact hpush none declaration
  | define name declaration =>
      rw [Schema.perform, define]
      cases schema.lookup name with
      | some _ => exact .refl schema
      | none => exact hpush (some name) declaration
  | defineValue name value =>
      rw [Schema.perform]
      split
      · next hdefine => exact leadsTo_defineValue hdefine
      · exact .refl schema
  | copy handle =>
      rw [Schema.perform]
      cases schema.node? handle with
      | none => exact .refl schema
      | some node => exact hpush none node.declaration
  | compile handle => exact (keeps_compile handle schema h trivial).1
  | compileAll => exact (keeps_compileAll schema h trivial).1

theorem Reachable.leadsTo (h : schema.Reachable) : Schema.empty.LeadsTo schema := by
  induction h with
  | empty => exact .refl _
  | add h declaration ih => exact ih.trans (h.consistent.leadsTo_perform (.add declaration))
  | @define before next name declaration _ h hdefine ih =>
      have hleads := h.consistent.leadsTo_perform (.define name declaration)
      rw [Schema.perform, hdefine] at hleads
      exact ih.trans hleads
  | defineValue _ hdefine ih => exact ih.trans (leadsTo_defineValue hdefine)
  | @copy before h handle node hnode ih =>
      have hleads := h.consistent.leadsTo_perform (.copy handle)
      rw [Schema.perform, hnode] at hleads
      exact ih.trans hleads
  | compile h handle ih => exact ih.trans (h.consistent.leadsTo_perform (.compile handle))
  | compileAll h ih => exact ih.trans (h.consistent.leadsTo_perform .compileAll)

theorem Reachable.ne_validating (h : schema.Reachable) {node : SchemaNode}
    (hnode : schema.node? handle = some node) : node.status ≠ .validating := by
  intro hstatus
  have hempty := (h.leadsTo.validating hstatus).mp hnode
  simp [Schema.empty, node?] at hempty

theorem Reachable.run (h : schema.Reachable) (calls : List Call) :
    (schema.run calls).Reachable ∧ schema.LeadsTo (schema.run calls) := by
  induction calls generalizing schema with
  | nil => exact ⟨h, .refl schema⟩
  | cons call rest ih =>
      obtain ⟨hreachable, hleads⟩ := ih (h.perform call)
      exact ⟨hreachable, (h.consistent.leadsTo_perform call).trans hleads⟩

theorem Consistent.not_isDone_of_cycle (h : schema.Consistent) {cyclic : Handle}
    (hreaches : Relation.ReflTransGen schema.Refers handle cyclic)
    (hcycle : Relation.TransGen schema.Refers cyclic cyclic) : ¬schema.IsDone handle := by
  rintro ⟨type, hcompiled⟩
  exact ((h _ _ hcompiled).grounded.of_refers hreaches).not_refers_self hcycle

/-- After any calls the types of the schema are in order, and no type that had been settled before
the last of them has changed. What refers to a cycle has never been compiled and never will be. -/
theorem isOrderly_run (earlier calls : List Call) :
    ((empty.run earlier).run calls).IsOrderly ∧
    (∀ handle node, (empty.run earlier).node? handle = some node → node.status.IsSettled →
      ((empty.run earlier).run calls).node? handle = some node) ∧
    ∀ handle cyclic,
      Relation.ReflTransGen ((empty.run earlier).run calls).Refers handle cyclic →
      Relation.TransGen ((empty.run earlier).run calls).Refers cyclic cyclic →
      ¬(empty.run earlier).IsDone handle ∧
        ∀ later, ¬(((empty.run earlier).run calls).run later).IsDone handle := by
  obtain ⟨hreachable, -⟩ := Reachable.empty.run earlier
  obtain ⟨hafter, hleads⟩ := hreachable.run calls
  refine ⟨hafter.consistent.isOrderly fun _ _ => hafter.ne_validating,
    fun _ _ => hleads.settled, ?_⟩
  · intro handle cyclic hreaches hcycle
    constructor
    · rintro ⟨type, hcompiled⟩
      exact hafter.consistent.not_isDone_of_cycle hreaches hcycle
        ⟨type, hleads.compiled hcompiled⟩
    · intro later
      obtain ⟨hlater, hmore⟩ := hafter.run later
      exact hlater.consistent.not_isDone_of_cycle
        (Relation.ReflTransGen.mono (fun _ _ => hmore.refers) _ _ hreaches)
        (Relation.TransGen.mono (fun _ _ => hmore.refers) _ _ hcycle)

/-- A SEQUENCE that is to include its own components refers to itself and fails to compile. -/
example : ((empty.run [.add ⟨.collection ((CollectionDeclaration.ofShape .sequence).withRoot
      (.componentsOf (.handle ⟨0⟩))), []⟩, .compile ⟨0⟩]).node? ⟨0⟩).map SchemaNode.status =
    some .failed :=
  rfl

end Calls

end Schema

end Asn1

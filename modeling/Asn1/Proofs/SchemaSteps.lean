import Asn1.Compilation
import Asn1.Proofs.SchemaConsistency

/-!
Steps that change a schema. Whether or not a step succeeds, the schema stays consistent, types that
have been compiled stay as they are, and the types that are just being compiled are not touched.
Steps are described by what holds before them and by what holds of their results.
-/

namespace Asn1

open Results

namespace Schema

/-- Whether a step can lead from one schema to the other. The types that are just being compiled are
not touched, and no others are left behind in that state. -/
structure LeadsTo (before after : Schema) : Prop extends before.Extends after where
  validating : ∀ {handle node}, node.status = .validating →
    (after.node? handle = some node ↔ before.node? handle = some node)

variable {before after last schema : Schema} {handle : Handle} {old node : SchemaNode}

theorem LeadsTo.refl (schema : Schema) : schema.LeadsTo schema :=
  ⟨.refl schema, fun _ => Iff.rfl⟩

theorem LeadsTo.trans (h : before.LeadsTo after) (hlast : after.LeadsTo last) :
    before.LeadsTo last := by
  exact ⟨h.toExtends.trans hlast.toExtends,
    fun hstatus => (hlast.validating hstatus).trans (h.validating hstatus)⟩

/-- Whether a schema records a compiled type under its handle. -/
def Has (schema : Schema) (type : CompiledType) : Prop :=
  schema.compiled type.handle = .ok type

/-- Whether a property is not lost when a schema grows or its types are compiled. -/
def Persists (property : Schema → Prop) : Prop :=
  ∀ before after, Extends before after → property before → property after

theorem persists_const (condition : Prop) : Persists fun _ => condition := by
  intro _ _ _
  exact id

theorem Persists.and {property other : Schema → Prop} (h : Persists property)
    (hother : Persists other) : Persists fun schema => property schema ∧ other schema := by
  intro before after hextends hboth
  exact ⟨h before after hextends hboth.1, hother before after hextends hboth.2⟩

theorem persists_has (type : CompiledType) : Persists (·.Has type) := by
  intro _ _ h hhas
  exact h.compiled hhas

theorem persists_resolve (reference : TypeRef) (target : Handle) :
    Persists fun schema => schema.resolve reference = .ok target := by
  intro _ _ h hresolve
  exact h.resolve hresolve

theorem Persists.forall {α : Type} {property : α → Schema → Prop}
    (h : ∀ a, Persists (property a)) : Persists fun schema => ∀ a, property a schema := by
  intro before after hextends hall a
  exact h a before after hextends (hall a)

theorem Persists.imp {condition : Prop} {property : Schema → Prop} (h : Persists property) :
    Persists fun schema => condition → property schema := by
  intro before after hextends himp hcondition
  exact h before after hextends (himp hcondition)

theorem persists_forall_has (components : List (Component CompiledType)) :
    Persists fun schema => ∀ component ∈ components, schema.Has component.type := by
  apply Persists.forall
  intro component
  exact (persists_has component.type).imp

theorem resolve_handle_of_has {type : CompiledType} (h : schema.Has type) :
    schema.resolve (.handle type.handle) = .ok type.handle := by
  obtain ⟨node, hnode, -⟩ := compiled_eq_ok_iff.mp h
  exact resolve_handle_eq_ok_iff.mpr ⟨rfl, by simp [hnode]⟩

theorem Has.offers {type : CompiledType} (h : schema.Has type) :
    schema.Offers (.handle type.handle) :=
  ⟨type.handle, type, resolve_handle_of_has h, h⟩

/-- In a consistent schema, a compiled type is grounded if it refers to compiled types only. -/
theorem Consistent.grounded_of_offers (h : schema.Consistent) {type : CompiledType}
    {definition : Definition} (hextends : schema.Extends after)
    (hcompiled : after.compiled handle = .ok type)
    (hdefinition : after.definition? handle = some definition)
    (hoffers : ∀ reference ∈ definition.references, schema.Offers reference) :
    after.Grounded handle := by
  refine .intro hcompiled hdefinition ?_ ?_
  · intro reference hmem
    obtain ⟨target, _, hresolve, -⟩ := hoffers reference hmem
    exact ⟨target, hextends.resolve hresolve⟩
  · rintro inner ⟨found, hfound, reference, hmem, hinner⟩
    obtain rfl : definition = found := Option.some.inj (hdefinition.symm.trans hfound)
    obtain ⟨target, inner, hresolve, htarget⟩ := hoffers reference hmem
    obtain rfl := Except.ok.inj ((hextends.resolve hresolve).symm.trans hinner)
    exact hextends.retains.grounded (h _ _ htarget).grounded

theorem leadsTo_push (schema : Schema) (hnode : node.status ≠ .validating) :
    schema.LeadsTo (schema.push node).2 := by
  refine ⟨extends_push schema node, ?_⟩
  intro handle found hstatus
  rw [node?_push]
  split
  · next hindex =>
    constructor
    · intro heq
      exact absurd (Option.some.inj heq ▸ hstatus) hnode
    · intro hfound
      exact absurd hindex (Nat.ne_of_lt (index_lt_of_node? hfound))
  · rfl

theorem leadsTo_defineValue {next : Schema} {name : String} {value : Value}
    (h : schema.defineValue name value = .ok next) : schema.LeadsTo next := by
  have hextends := extends_defineValue h
  rw [defineValue] at h
  split at h
  · contradiction
  · obtain rfl := Except.ok.inj h
    exact ⟨hextends, fun _ => Iff.rfl⟩

theorem Holds.mono {type : CompiledType} (h : before.Holds handle type)
    (hretains : before.Retains after)
    (hnode : after.node? handle = before.node? handle) : after.Holds handle type := by
  refine ⟨hnode ▸ h.node, fun inner hmem => hretains.compiled (h.types inner hmem), h.regular,
    h.firstTags, h.sound, hretains.grounded h.grounded, ?_, ?_⟩
  · intro layout hform component hmem
    exact hretains.offersBase (h.declared layout hform component hmem)
  · intro layout hform
    obtain ⟨collection, hdefinition, harranges, hlaid⟩ := h.laidOut layout hform
    exact ⟨collection, by rw [definition?, hnode, ← hdefinition, definition?],
      hretains.arranges harranges, hretains.laysOut hlaid⟩

/-- Adding a type keeps a schema consistent if what it is compiled to, if anything, fits it. -/
theorem Consistent.push (h : schema.Consistent)
    (hnode : ∀ type, node.status = .compiled type →
      (schema.push node).2.Holds ⟨schema.nodes.size⟩ type) : (schema.push node).2.Consistent := by
  intro handle type hcompiled
  obtain ⟨found, hfound, hstatus⟩ := compiled_eq_ok_iff.mp hcompiled
  rw [node?_push] at hfound
  split at hfound
  · next hindex =>
    obtain rfl := Option.some.inj hfound
    have heq : handle = ⟨schema.nodes.size⟩ := by
      cases handle
      simpa using hindex
    exact heq ▸ hnode type hstatus
  · next hindex =>
    refine (h handle type (compiled_eq_ok_iff.mpr ⟨found, hfound, hstatus⟩)).mono
      (extends_push schema node).retains ?_
    rw [node?_push, if_neg hindex]

/-- Recording what has become of a type that was not settled keeps a schema consistent if it fits.
-/
theorem Consistent.withNode (hconsistent : schema.Consistent) (h : schema.node? handle = some old)
    (hretains : schema.Retains (schema.withNode handle node))
    (hnode : ∀ type, node.status = .compiled type →
      (schema.withNode handle node).Holds handle type) :
    (schema.withNode handle node).Consistent := by
  intro other type hcompiled
  obtain ⟨found, hfound, hstatus⟩ := compiled_eq_ok_iff.mp hcompiled
  rw [node?_withNode h] at hfound
  split at hfound
  · next heq =>
    obtain rfl := Option.some.inj hfound
    exact heq ▸ hnode type hstatus
  · next hne =>
    refine (hconsistent other type (compiled_eq_ok_iff.mpr ⟨found, hfound, hstatus⟩)).mono
      hretains ?_
    rw [node?_withNode h, if_neg hne]

end Schema

namespace Compile

open Schema

variable {α β : Type}

/-- What a step gives, together with the schema that it leaves behind. -/
def outcome (step : Compile α) (schema : Schema) : Except SchemaError α × Schema :=
  step.run schema

theorem outcome_bind (step : Compile α) (next : α → Compile β) (schema : Schema) :
    (step >>= next).outcome schema =
      match step.outcome schema with
      | (.ok a, after) => (next a).outcome after
      | (.error error, after) => (.error error, after) := by
  change (ExceptT.bindCont next (step.outcome schema).1).run (step.outcome schema).2 = _
  rcases step.outcome schema with ⟨_ | _, after⟩ <;> rfl

theorem outcome_tryCatch (step : Compile α) (handler : SchemaError → Compile α) (schema : Schema) :
    (tryCatch step handler).outcome schema =
      match step.outcome schema with
      | (.ok a, after) => (.ok a, after)
      | (.error error, after) => (handler error).outcome after := by
  simp only [outcome, tryCatch, tryCatchThe, MonadExceptOf.tryCatch, ExceptT.tryCatch, ExceptT.run,
    ExceptT.mk, bind, StateT.bind]
  rcases step schema with ⟨_ | _, after⟩ <;> rfl

theorem outcome_ask (question : Schema → Except SchemaError α) (schema : Schema) :
    (ask question).outcome schema = (question schema, schema) := by
  rw [ask, outcome_bind]
  show Compile.outcome _ schema = _
  cases question schema <;> rfl

theorem discard_eq_bind (step : Compile α) : discard step = (step >>= fun _ => pure ()) :=
  rfl

/-- Whether a step that starts out from a consistent schema with a property leads to a consistent
schema, where its result, if there is one, has another property. -/
def Keeps (pre : Schema → Prop) (step : Compile α)
    (post : α → Schema → Prop) : Prop :=
  ∀ before, before.Consistent → pre before →
    before.LeadsTo (step.outcome before).2 ∧ (step.outcome before).2.Consistent ∧
      ∀ a, (step.outcome before).1 = .ok a → post a (step.outcome before).2

namespace Keeps

variable {pre pre' : Schema → Prop} {step : Compile α}
  {post post' : α → Schema → Prop} {next : α → Compile β} {last : β → Schema → Prop}

theorem pure (a : α) : Keeps pre (pure a) fun b schema => b = a ∧ pre schema := by
  intro before hconsistent hpre
  refine ⟨.refl _, hconsistent, ?_⟩
  intro b hb
  obtain rfl : a = b := Except.ok.inj hb
  exact ⟨rfl, hpre⟩

theorem throw (error : SchemaError) : Keeps pre (throw error : Compile α) post := by
  intro before hconsistent _
  refine ⟨.refl _, hconsistent, ?_⟩
  rintro a ⟨⟩

theorem imp (h : Keeps pre step post) (hpre : ∀ schema, pre' schema → pre schema)
    (hpost : ∀ a schema, schema.Consistent → post a schema → post' a schema) :
    Keeps pre' step post' := by
  intro before hconsistent hbefore
  obtain ⟨hleads, hafter, hresult⟩ := h before hconsistent (hpre before hbefore)
  exact ⟨hleads, hafter, fun a ha => hpost a _ hafter (hresult a ha)⟩

theorem anywhere (h : Keeps (fun _ => True) step post) : Keeps pre step post := by
  apply h.imp (fun _ _ => trivial)
  intro _ _ _
  exact id

theorem bind (h : Keeps pre step post) (hnext : ∀ a, Keeps (post a) (next a) last) :
    Keeps pre (step >>= next) last := by
  intro before hconsistent hpre
  obtain ⟨hleads, hafter, hresult⟩ := h before hconsistent hpre
  rw [outcome_bind]
  rcases hstep : step.outcome before with ⟨error | a, after⟩
  · rw [hstep] at hleads hafter
    refine ⟨hleads, hafter, ?_⟩
    rintro b ⟨⟩
  · rw [hstep] at hleads hafter hresult
    obtain ⟨hleads', hlast⟩ := hnext a after hafter (hresult a rfl)
    exact ⟨hleads.trans hleads', hlast⟩

theorem assume {condition : Prop} (h : condition → Keeps pre step post) :
    Keeps (fun schema => condition ∧ pre schema) step post := by
  intro before hconsistent hbefore
  exact h hbefore.1 before hconsistent hbefore.2

/-- What compiling cannot make false still holds after a step. -/
theorem frame {property : Schema → Prop} (hproperty : Persists property)
    (h : Keeps pre step post) :
    Keeps (fun schema => pre schema ∧ property schema) step
      fun a schema => post a schema ∧ property schema := by
  rintro before hconsistent ⟨hpre, hholds⟩
  obtain ⟨hleads, hafter, hresult⟩ := h before hconsistent hpre
  exact ⟨hleads, hafter, fun a ha => ⟨hresult a ha, hproperty _ _ hleads.toExtends hholds⟩⟩

theorem and (h : Keeps pre step post) (h' : Keeps pre' step post') :
    Keeps (fun schema => pre schema ∧ pre' schema) step
      fun a schema => post a schema ∧ post' a schema := by
  rintro before hconsistent ⟨hpre, hpre'⟩
  obtain ⟨hleads, hafter, hresult⟩ := h before hconsistent hpre
  obtain ⟨-, -, hresult'⟩ := h' before hconsistent hpre'
  exact ⟨hleads, hafter, fun a ha => ⟨hresult a ha, hresult' a ha⟩⟩

theorem ask (question : Schema → Except SchemaError α) :
    Keeps pre (ask question) fun a schema => question schema = .ok a ∧ pre schema := by
  intro before hconsistent hpre
  rw [outcome_ask]
  exact ⟨.refl _, hconsistent, fun a ha => ⟨ha, hpre⟩⟩

theorem get : Keeps pre get fun schema after => schema = after ∧ pre after := by
  intro before hconsistent hpre
  refine ⟨.refl _, hconsistent, ?_⟩
  intro schema hschema
  obtain rfl : before = schema := Except.ok.inj hschema
  exact ⟨rfl, hpre⟩

theorem set {new : Schema} {post : Unit → Schema → Prop} (h : ∀ schema, schema.Consistent →
    pre schema → schema.LeadsTo new ∧ new.Consistent ∧ post () new) :
    Keeps pre (set new) post := by
  intro before hconsistent hpre
  obtain ⟨hleads, hnew, hpost⟩ := h before hconsistent hpre
  exact ⟨hleads, hnew, fun _ _ => hpost⟩

theorem refuse (fault? : Option SchemaError) :
    Keeps pre (refuse fault?) fun _ schema => fault? = none ∧ pre schema := by
  cases fault? with
  | some error => exact throw error
  | none => exact (pure ()).imp (fun _ => id) fun _ _ _ h => ⟨rfl, h.2⟩

theorem discard (h : Keeps pre step post) :
    Keeps pre (discard step) fun _ schema => ∃ a, post a schema := by
  rw [discard_eq_bind]
  exact h.bind fun a => (pure ()).imp (fun _ => id) fun _ _ _ hpost => ⟨a, hpost.2⟩

theorem mapM {f : α → Compile β} {relation : α → β → Prop} {as : List α}
    (hpre : Persists pre) (h : ∀ a ∈ as, Keeps pre (f a) fun b _ => relation a b) :
    Keeps pre (as.mapM f) fun bs schema => List.Forall₂ relation as bs ∧ pre schema := by
  induction as with
  | nil =>
      rw [List.mapM_nil]
      refine (pure []).imp (fun _ => id) ?_
      rintro _ _ - ⟨rfl, hbefore⟩
      exact ⟨.nil, hbefore⟩
  | cons a rest ih =>
      obtain ⟨ha, hrest⟩ := List.forall_mem_cons.mp h
      rw [List.mapM_cons]
      have hfirst := (ha.frame hpre).imp (fun _ hbefore => ⟨hbefore, hbefore⟩) fun _ _ _ => id
      refine hfirst.bind fun b => ?_
      have hmore := ((ih hrest).frame (persists_const (relation a b))).imp
        (fun _ hbefore => And.symm hbefore) fun _ _ _ => id
      refine hmore.bind fun bs => (pure (b :: bs)).imp (fun _ => id) ?_
      rintro _ _ - ⟨rfl, ⟨hbs, hbefore⟩, hb⟩
      exact ⟨.cons hb hbs, hbefore⟩

theorem forM {f : α → Compile Unit} {as : List α}
    (h : ∀ a ∈ as, Keeps (fun _ => True) (f a) fun _ _ => True) :
    Keeps (fun _ => True) (as.forM f) fun _ _ => True := by
  induction as with
  | nil => exact (pure ()).imp (fun _ => id) fun _ _ _ _ => trivial
  | cons a rest ih =>
      obtain ⟨ha, hrest⟩ := List.forall_mem_cons.mp h
      exact ha.bind fun _ => ih hrest

end Keeps

end Compile

end Asn1

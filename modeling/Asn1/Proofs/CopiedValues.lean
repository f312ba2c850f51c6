import Asn1.Proofs.AcceptanceAgreement
import Asn1.Proofs.CopiedTypes

/-!
The values of copied types. Operations on values look at the handle and the name of a type only
where they show them to its constraints, and those on sizes and integers do not look at them. So a
copy accepts, brings into canonical form, writes and reads what the type that it was made from does.
-/

namespace Asn1

open Results Schema Compile

/-- Whether scopes show the same but for the closest type. -/
structure Scope.IsLike (scope scope' : Scope) : Prop where
  schema : scope.schema = scope'.schema
  depth : scope.depth = scope'.depth
  entries? : scope.entries? = scope'.entries?

theorem Scope.isLike_typed (scope : Scope) (info info' : TypeInfo) :
    (scope.typed info.handle info.description).IsLike
      (scope.typed info'.handle info'.description) :=
  ⟨rfl, rfl, rfl⟩

theorem Scope.IsLike.walking {scope scope' : Scope} (h : scope.IsLike scope') (entries : Entries) :
    (scope.walking entries).IsLike (scope'.walking entries) :=
  ⟨h.schema, congrArg (· + 1) h.depth, rfl⟩

theorem Scope.IsLike.eq_withType {scope scope' : Scope} (h : scope.IsLike scope') :
    scope = { scope' with type? := scope.type? } := by
  obtain ⟨schema, depth, type?, entries?⟩ := scope
  obtain ⟨rfl, rfl, rfl⟩ := h
  rfl

section Scopes

variable (values : NamedValues) {scope scope' : Scope} (h : scope.IsLike scope') (value : Value)

include h

theorem CompiledType.accept_of_isLike (type : CompiledType) :
    type.accept values scope value = type.accept values scope' value := by
  rw [h.eq_withType]
  obtain ⟨info, form⟩ := type
  rw [accept, accept, interpret_mk, interpret_mk]
  rfl

theorem CompiledType.canonicalize_of_isLike (type : CompiledType) :
    type.canonicalize values scope value = type.canonicalize values scope' value := by
  rw [h.eq_withType]
  exact type.canonicalize_withType values scope' scope.type? value

/-- The components of a collection do not see which type they are entered from. -/
theorem Layout.accept_of_isLike (layout : Layout CompiledType) :
    (layout.map (CompiledType.interpret (acceptStep values))).accept scope value =
      (layout.map (CompiledType.interpret (acceptStep values))).accept scope' value := by
  apply Layout.accept_congr
    (fun component _ _ _ item _ => component.type.accept_of_isLike values h item)
  intro component _ entries _ entry _
  exact component.type.accept_of_isLike values (h.walking entries) entry.2

theorem Layout.canonicalize_of_isLike (layout : Layout CompiledType) :
    (layout.map (CompiledType.interpret (canonicalizeStep values))).canonicalize scope value =
      (layout.map (CompiledType.interpret (canonicalizeStep values))).canonicalize scope'
        value := by
  apply Layout.canonicalize_congr
    (fun component _ item => component.type.canonicalize_of_isLike values h item)
  intro component _ entries item
  exact component.type.canonicalize_of_isLike values (h.walking entries) item

end Scopes

/-- What is put in the place of the types has to be the same for automatic tags with different
handles. -/
theorem TypeForm.IsCopyOf.map_eq {τ : Type} {copy original : TypeForm CompiledType}
    (h : copy.IsCopyOf original) {f : CompiledType → τ}
    (hf : ∀ {number : Nat} {inner type other : CompiledType}, type.IsContextTag number inner →
      other.IsContextTag number inner → f type = f other) : copy.map f = original.map f := by
  cases h with
  | same => rfl
  | @collection copy original hcopy =>
      obtain ⟨kind, extensible, components⟩ := copy
      obtain ⟨_, _, originals⟩ := original
      obtain ⟨rfl, rfl, hcomponents⟩ := hcopy
      rw [TypeForm.map, TypeForm.map, Layout.map, Layout.map]
      refine congrArg _ (congrArg _ (map_eq_map_of_forall₂ hcomponents ?_).symm)
      rintro copy - original - (rfl | ⟨number, inner, type, htag, htag', rfl⟩)
      · rfl
      · simp only [Component.map, hf htag htag']

namespace CompiledType

variable {α β : Type}

/-- A copy means the same as the original if the meaning of a type does not depend on its handle and
its name, as long as its constraints do not either. -/
theorem IsCopyOf.interpret_eq {copy original : CompiledType} (h : copy.IsCopyOf original)
    (hranges : ∀ constraint ∈ original.info.constraints, constraint.isRange = true)
    {step : TypeInfo → TypeForm (α → β) → α → β}
    (hstep : ∀ (info info' : TypeInfo) (form : TypeForm CompiledType) (a : α),
      info.constraints = info'.constraints →
      (∀ constraint ∈ info'.constraints, constraint.isRange = true) →
        step info (form.map (interpret step)) a = step info' (form.map (interpret step)) a) :
    copy.interpret step = original.interpret step := by
  have htags {number : Nat} {inner type other : CompiledType} (h : type.IsContextTag number inner)
      (hother : other.IsContextTag number inner) : type.interpret step = other.interpret step := by
    obtain ⟨handle, rfl⟩ := h
    obtain ⟨handle', rfl⟩ := hother
    funext a
    rw [interpret_mk, interpret_mk]
    exact hstep _ _ _ a rfl (by simp)
  obtain ⟨info, form⟩ := copy
  obtain ⟨info', form'⟩ := original
  obtain ⟨hconstraints, hform⟩ := h
  have hmap : form.map (interpret step) = form'.map (interpret step) := hform.map_eq htags
  funext a
  rw [interpret_mk, interpret_mk, hmap]
  exact hstep info info' form' a hconstraints hranges

theorem forM_check_eq {constraints : List Constraint}
    (hranges : ∀ constraint ∈ constraints, constraint.isRange = true) (scope scope' : Scope)
    (value : Value) :
    constraints.forM (·.check scope value) = constraints.forM (·.check scope' value) := by
  refine forM_congr fun constraint hmem => ?_
  have hrange := hranges constraint hmem
  cases constraint with
  | custom check => simp [Constraint.isRange] at hrange
  | _ => rfl

theorem IsCopyOf.accept_eq {copy original : CompiledType} (h : copy.IsCopyOf original)
    (hranges : ∀ constraint ∈ original.info.constraints, constraint.isRange = true) :
    copy.accept = original.accept := by
  funext values scope value
  refine congrFun (h.interpret_eq hranges ?_) (scope, value)
  rintro ⟨handle, name?, constraints⟩ info' form ⟨scope, value⟩ rfl hranges
  have hscope := scope.isLike_typed ⟨handle, name?, info'.constraints⟩ info'
  rw [acceptStep, acceptStep]
  refine congrArg _ (funext fun resolved => ?_)
  simp only [forM_check_eq hranges _ (scope.typed info'.handle info'.description) resolved]
  cases form with
  | builtin builtin => rfl
  | «alias» target =>
      exact congrArg (· >>= _) (target.accept_of_isLike values hscope resolved)
  | tagged tag method inner =>
      exact congrArg (· >>= _) (inner.accept_of_isLike values hscope resolved)
  | collection layout =>
      exact congrArg (· >>= _) (layout.accept_of_isLike values hscope resolved)

theorem IsCopyOf.canonicalize_eq {copy original : CompiledType} (h : copy.IsCopyOf original)
    (hranges : ∀ constraint ∈ original.info.constraints, constraint.isRange = true) :
    copy.canonicalize = original.canonicalize := by
  funext values scope value
  refine congrFun (h.interpret_eq hranges ?_) (scope, value)
  rintro ⟨handle, name?, constraints⟩ info' form ⟨scope, value⟩ rfl hranges
  have hscope := scope.isLike_typed ⟨handle, name?, info'.constraints⟩ info'
  rw [canonicalizeStep, canonicalizeStep]
  refine congrArg _ (funext fun resolved => ?_)
  simp only [fun canonical => forM_check_eq hranges
    (scope.typed handle (TypeInfo.description ⟨handle, name?, info'.constraints⟩))
      (scope.typed info'.handle info'.description) canonical]
  cases form with
  | builtin builtin => rfl
  | «alias» target =>
      exact congrArg (· >>= _) (target.canonicalize_of_isLike values hscope resolved)
  | tagged tag method inner =>
      exact congrArg (· >>= _) (inner.canonicalize_of_isLike values hscope resolved)
  | collection layout =>
      exact congrArg (· >>= _) (layout.canonicalize_of_isLike values hscope resolved)

theorem IsCopyOf.write_eq {copy original : CompiledType} (h : copy.IsCopyOf original)
    (hranges : ∀ constraint ∈ original.info.constraints, constraint.isRange = true) :
    copy.write = original.write := by
  funext encoder value
  exact congrFun (h.interpret_eq hranges fun _ _ _ _ _ _ => rfl) (value, none)

theorem IsCopyOf.read_eq {copy original : CompiledType} (h : copy.IsCopyOf original)
    (hranges : ∀ constraint ∈ original.info.constraints, constraint.isRange = true) :
    copy.read = original.read := by
  funext rules
  refine h.interpret_eq hranges ?_
  rintro info info' form ⟨header, tag?, depth⟩ - -
  cases depth <;> rfl

end CompiledType

theorem CompiledType.IsCopyOf.rel_layout? {copy original : CompiledType}
    (h : copy.IsCopyOf original) (count : Nat) :
    Option.Rel Layout.IsCopyOf ((copy.aliasBase? count).bind layout?)
      ((original.aliasBase? count).bind layout?) := by
  have hrefl (layout? : Option (Layout CompiledType)) :
      Option.Rel Layout.IsCopyOf layout? layout? := by
    cases layout? with
    | none => exact .none
    | some layout => exact .some (.refl layout)
  cases count with
  | zero => exact .none
  | succ count =>
      obtain ⟨info, form⟩ := copy
      obtain ⟨info', form'⟩ := original
      obtain ⟨-, hform⟩ := h
      cases hform with
      | same =>
          cases form with
          | «alias» target => exact hrefl _
          | builtin builtin => exact .none
          | tagged tag method inner => exact .none
          | collection layout => exact hrefl (some layout)
      | collection hlayout => exact .some hlayout

namespace Schema

variable {schema : Schema} {handle copy : Handle} {node : SchemaNode} {type copied : CompiledType}

/-- The layout that a schema finds for a compiled type is that of the collection behind its aliases,
as long as there are not too many of them. -/
theorem Consistent.layout?_eq_bind (h : schema.Consistent)
    (hcompiled : schema.compiled handle = .ok type) :
    schema.layout? handle = (type.aliasBase? maxChain).bind CompiledType.layout? := by
  cases hbase : type.aliasBase? maxChain with
  | none =>
      rw [layout?]
      cases hskip : schema.skipAliases handle with
      | error error => rfl
      | ok base =>
          obtain ⟨_, hfound, -⟩ := (h.skipAliases_eq_ok_iff_of_compiled hcompiled).mp hskip
          cases hbase.symm.trans hfound
  | some base =>
      have hskip := (h.skipAliases_eq_ok_iff_of_compiled hcompiled).mpr ⟨base, hbase, rfl⟩
      have hstands := (CompiledType.standsFor_of_aliasBase? hbase).1
      rw [layout?, hskip]
      simp only [Except.toOption, Option.bind_some,
        h.compiled_of_reaches hcompiled hstands.reaches]

/-- Whether a schema makes no difference between the values of two types. -/
structure BehavesLike (schema : Schema) (copy handle : Handle) : Prop where
  accept_eq : schema.accept copy = schema.accept handle
  canonicalize_eq : schema.canonicalize copy = schema.canonicalize handle
  encode_eq : schema.encode copy = schema.encode handle
  decodeOne_eq : schema.decodeOne copy = schema.decodeOne handle
  decode_eq : schema.decode copy = schema.decode handle

theorem behavesLike_of_isCopyOf (hcopy : schema.compiled copy = .ok copied)
    (hcompiled : schema.compiled handle = .ok type) (h : copied.IsCopyOf type)
    (hranges : ∀ constraint ∈ type.info.constraints, constraint.isRange = true) :
    schema.BehavesLike copy handle := by
  have haccept : schema.accept copy = schema.accept handle := by
    funext value
    rw [Schema.accept_eq hcopy, Schema.accept_eq hcompiled, h.accept_eq hranges]
  have hcanonicalize : schema.canonicalize copy = schema.canonicalize handle := by
    funext value
    rw [Schema.canonicalize_eq hcopy, Schema.canonicalize_eq hcompiled, h.canonicalize_eq hranges]
  have hdecodeOne : schema.decodeOne copy = schema.decodeOne handle := by
    funext decoder
    rw [decodeOne, decodeOne, hcopy, hcompiled, haccept]
    refine congrArg _ (funext fun start => ?_)
    simp only [Except.mapError, Read.checked, pure_bind, h.read_eq hranges]
  refine ⟨haccept, hcanonicalize, ?_, hdecodeOne, ?_⟩
  · funext encoder value
    rw [encode, encode, hcanonicalize, hcopy, hcompiled]
    cases schema.canonicalize handle value with
    | error error => rfl
    | ok form => exact congrFun (congrFun (h.write_eq hranges) encoder) form.value
  · funext decoder octets
    rw [decode, decode, decodeAll, decodeAll, hdecodeOne]

/-- Compiling a copy of a compiled type succeeds and changes none of the types that are there. The
copy is compiled to the same, up to the handles of the types that are added for automatic tags. So
whatever is done with the schema later, it treats values of the copy as those of the original, if
the constraints of that are on sizes and integers only. Those of the types below it must not look at
the schema, as the defaults are checked once more. -/
theorem Reachable.copy_behavesLike (h : schema.Reachable) (hnode : schema.node? handle = some node)
    (hstatus : node.status = .compiled type)
    (hranges : ∀ constraint ∈ node.declaration.constraints, constraint.isRange = true)
    (hoverlooks : ∀ inner ∈ type.form.types, inner.OverlooksSchema) :
    ∃ after copied, (Schema.compile (schema.copy node).1).outcome (schema.copy node).2 =
        (.ok (), after) ∧
      schema.IsWithin after ∧ after.compiled (schema.copy node).1 = .ok copied ∧
      copied.IsCopyOf type ∧
      ∀ calls, Option.Rel Layout.IsCopyOf ((after.run calls).layout? (schema.copy node).1)
          ((after.run calls).layout? handle) ∧
        (after.run calls).BehavesLike (schema.copy node).1 handle := by
  have hcompiled := compiled_eq_ok_iff.mpr ⟨node, hnode, hstatus⟩
  obtain ⟨_, hfound, hinfo, -⟩ := (h.consistent _ _ hcompiled).node
  obtain rfl := Option.some.inj (hnode.symm.trans hfound)
  obtain ⟨form, after, hform, hwithin, houtcome, hcopied⟩ :=
    h.outcome_compile_copy hnode hstatus hoverlooks
  have hcopy : CompiledType.IsCopyOf
      ⟨⟨(schema.copy node).1, none, node.declaration.constraints⟩, form⟩ type :=
    ⟨(congrArg TypeInfo.constraints hinfo).symm, hform⟩
  have hafter : after.Reachable := by
    have hcompile := (h.copy hnode).compile (schema.copy node).1
    rwa [houtcome] at hcompile
  refine ⟨after, _, houtcome, hwithin, hcopied, hcopy, fun calls => ?_⟩
  obtain ⟨hlater, hleads⟩ := hafter.run calls
  have hcopied := hleads.compiled hcopied
  have hcompiled := hleads.compiled (compiled_eq_ok_iff.mpr ⟨node, hwithin.node?_eq hnode, hstatus⟩)
  constructor
  · rw [hlater.consistent.layout?_eq_bind hcopied, hlater.consistent.layout?_eq_bind hcompiled]
    exact hcopy.rel_layout? maxChain
  · exact behavesLike_of_isCopyOf hcopied hcompiled hcopy (by rw [hinfo]; exact hranges)

/-- The default of one component is true. -/
def taggedCollection : CollectionDeclaration :=
  ⟨.sequence, true, false, [.components [⟨"a", .handle ⟨0⟩, false, some (.boolean true)⟩,
    ⟨"b", .handle ⟨0⟩, false, none⟩]], [], []⟩

/-- The SEQUENCE with automatic tags, where the types that are added have the handles. -/
def taggedType (own first second : Handle) : CompiledType :=
  let boolean : CompiledType := ⟨⟨⟨0⟩, none, []⟩, .builtin .boolean⟩
  ⟨⟨own, none, []⟩, .collection ⟨.sequence, false,
    [⟨"a", 0, 1, false, some (.boolean true), .handle ⟨0⟩, .contextTag first 0 boolean, false,
        [.context 0]⟩,
      ⟨"b", 1, 1, false, none, .handle ⟨0⟩, .contextTag second 1 boolean, false,
        [.context 1]⟩]⟩⟩

/-- A BOOLEAN, and a compiled SEQUENCE with automatic tags. -/
def compiledSequence : Schema :=
  ((Schema.compile ⟨1⟩).outcome
    ((empty.add ⟨.builtin .boolean, []⟩).2.add ⟨.collection taggedCollection, []⟩).2).2

theorem hasRangesOnly_taggedType (own first second : Handle) :
    (taggedType own first second).HasRangesOnly := by
  rw [CompiledType.HasRangesOnly, taggedType, CompiledType.forall_reaches_mk_iff]
  simp [CompiledType.forall_reaches_mk_iff, TypeForm.types, CompiledType.contextTag,
    CompiledType.info]

/-- The types that are added for the copy have other handles than those of the original. -/
theorem copy_behavesLike_compiledSequence :
    let node : SchemaNode :=
      ⟨none, ⟨.collection taggedCollection, []⟩, .compiled (taggedType ⟨1⟩ ⟨2⟩ ⟨3⟩)⟩
    compiledSequence.node? ⟨1⟩ = some node ∧ ∃ after,
      (Schema.compile ⟨4⟩).outcome (compiledSequence.copy node).2 = (.ok (), after) ∧
        after.node? ⟨1⟩ = some node ∧ after.compiled ⟨4⟩ = .ok (taggedType ⟨4⟩ ⟨5⟩ ⟨6⟩) ∧
        (taggedType ⟨4⟩ ⟨5⟩ ⟨6⟩).IsCopyOf (taggedType ⟨1⟩ ⟨2⟩ ⟨3⟩) ∧ after.BehavesLike ⟨4⟩ ⟨1⟩ := by
  intro node
  have hnode : compiledSequence.node? ⟨1⟩ = some node := rfl
  have hschema : compiledSequence.Reachable := .compile (.add (.add .empty _) _) _
  obtain ⟨after, copied, houtcome, hwithin, hcopied, hcopy, hlater⟩ :=
    Reachable.copy_behavesLike hschema hnode rfl (by simp [node])
      (hasRangesOnly_taggedType ⟨1⟩ ⟨2⟩ ⟨3⟩).overlooksSchema.of_mk
  have hfound : after.compiled ⟨4⟩ = .ok (taggedType ⟨4⟩ ⟨5⟩ ⟨6⟩) := by
    obtain rfl : _ = after := congrArg Prod.snd houtcome
    rfl
  obtain rfl := Except.ok.inj (hcopied.symm.trans hfound)
  exact ⟨hnode, after, houtcome, hwithin.node?_eq hnode, hfound, hcopy, (hlater []).2⟩

end Schema

end Asn1

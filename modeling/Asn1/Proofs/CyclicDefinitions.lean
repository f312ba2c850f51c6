import Asn1.Proofs.CompilationProgress
import Asn1.Proofs.CompilationRuns
import Asn1.Proofs.SettlingCalls

/-!
Types that are defined in terms of themselves. Compiling a type only fails with a cyclic definition
if references from it lead to a cycle, or to an alias that starts a chain which is too long where
aliases are looked through: from a component, a collection that is included, or a type with an
implicit tag.
-/

namespace Asn1

open Results Schema Compile

def SchemaError.isCyclicDefinition : SchemaError → Bool
  | .cyclicDefinition _ => true
  | _ => false

/-- Whether compiling a type of this definition looks through aliases for what is behind them. -/
def Definition.LooksThrough : Definition → Prop
  | .tagged _ .implicit _ | .collection _ => True
  | _ => False

namespace Schema

/-- Whether a declaration mentions a type whose aliases are looked through when it is compiled. -/
def LooksThrough (schema : Schema) (outer inner : Handle) : Prop :=
  ∃ definition, schema.definition? outer = some definition ∧ definition.LooksThrough ∧
    ∃ reference ∈ definition.references, schema.resolve reference = .ok inner

end Schema

section Errors

theorem isCyclicDefinition_of_resolve {schema : Schema} {reference : TypeRef} {error : SchemaError}
    (h : schema.resolve reference = .error error) : error.isCyclicDefinition = false := by
  cases reference with
  | handle handle =>
      rw [resolve] at h
      split at h
      · cases h
      · exact Except.error.inj h ▸ rfl
  | name name =>
      rw [resolve] at h
      split at h
      · cases h
      · exact Except.error.inj h ▸ rfl

theorem isCyclicDefinition_of_versionFault? {collection : CollectionDeclaration}
    {error : SchemaError} (h : collection.versionFault? = some error) :
    error.isCyclicDefinition = false := by
  have hadditions (unversioned : Bool) (previous : Nat) (additions : List ExtensionAddition)
      (h : ExtensionAddition.versionFault? unversioned previous additions = some error) :
      error.isCyclicDefinition = false := by
    induction additions generalizing previous with
    | nil => cases h
    | cons addition rest ih =>
        rw [ExtensionAddition.versionFault?] at h
        split at h
        · exact ih previous h
        · next found _ =>
          split at h
          · exact Option.some.inj h ▸ rfl
          · split at h
            · exact Option.some.inj h ▸ rfl
            · exact ih found h
  exact hadditions _ _ _ h

theorem isCyclicDefinition_of_nameFault? {seen : List String} {flat : List FlatComponent}
    {error : SchemaError} (h : FlatComponent.nameFault? seen flat = some error) :
    error.isCyclicDefinition = false := by
  induction flat generalizing seen with
  | nil => cases h
  | cons component rest ih =>
      rw [FlatComponent.nameFault?] at h
      split at h
      · exact Option.some.inj h ▸ rfl
      · exact ih h

end Errors

section Compiling

variable {start : Schema} {marked : List Handle} {compileType : TypeCompiler}

/-- Whether a step fails with anything but a cyclic definition while types are being compiled. -/
def FailsOtherwise {α : Type} (start : Schema) (marked : List Handle) (pre : Schema → Prop)
    (step : Compile α) : Prop :=
  FailsOnly (IsCompiling start marked) pre (·.isCyclicDefinition = false) step

theorem fails_resolve {pre : Schema → Prop} (reference : TypeRef) :
    FailsOtherwise start marked pre (ask (·.resolve reference)) := by
  apply FailsOnly.ask
  intro _ _ _ _ _
  exact isCyclicDefinition_of_resolve

theorem fails_compileDefault? {pre : Schema → Prop} (type : CompiledType) (name : String)
    (value? : Option Value) :
    FailsOtherwise start marked pre (value?.mapM (compileDefault type name)) := by
  have hdefault (value : Value) :
      FailsOtherwise start marked pre (compileDefault type name value) := by
    refine FailsOnly.bind Keeps.get FailsOnly.get fun schema => ?_
    cases type.canonicalize schema.values (.top schema.view) value with
    | ok form => exact FailsOnly.pure _
    | error error => exact FailsOnly.throw fun _ _ _ _ => rfl
  cases value? with
  | none => exact FailsOnly.pure none
  | some value =>
      exact FailsOnly.bind (keeps_compileDefault type name value) (hdefault value)
        fun _ => FailsOnly.pure _

theorem fails_completeLayout {collection : CollectionDeclaration} (flat : List FlatComponent)
    {components : List (Component CompiledType)} (tagged : List (Component CompiledType))
    (hbases : ∀ component ∈ components, component.type.HasBase) :
    FailsOtherwise start marked (Assembly start · collection flat components tagged)
      (completeLayout collection tagged) := by
  refine FailsOnly.assume (∀ component ∈ tagged, component.type.HasBase)
    (fun _ _ _ hassembly => hassembly.hasBase_tagged hbases) fun htagged => ?_
  refine FailsOnly.bind ((keeps_findAllTags tagged).imp (fun _ hassembly => hassembly.types)
    fun _ _ _ => id) ((runs_findAllTags fun _ => htagged).failsOnly.imp
      fun _ _ _ hassembly => hassembly.types) fun found => ?_
  refine FailsOnly.bind (Keeps.refuse _) (FailsOnly.refuse ?_) fun _ => FailsOnly.pure _
  intro error herror
  obtain ⟨clash, -, rfl⟩ := Option.map_eq_some_iff.mp herror
  rfl

/-- Whether the types that a declaration mentions can be compiled without coming to a cycle. -/
structure CallsAhead (start : Schema) (marked : List Handle) (outer : Handle)
    (definition : Definition) (compileType : TypeCompiler) : Prop where
  definition?_eq : start.definition? outer = some definition
  chains : ∀ inner, start.LooksThrough outer inner →
    ¬start.StartsChain aliasTarget? maxChain inner
  compiles : compileType.Compiles
  call : ∀ target, FailsOtherwise start marked
    (fun schema => start.Refers outer target ∨ schema.IsDone target) (compileType target)

namespace CallsAhead

variable {outer : Handle} {definition : Definition}
  (h : CallsAhead start marked outer definition compileType)

include h

/-- A type that is mentioned is compiled, unless it has been added, so that it is compiled. -/
theorem fails_call {reference : TypeRef} {target : Handle} :
    FailsOtherwise start marked (fun schema => schema.resolve reference = .ok target ∧
      (reference ∈ definition.references ∨ schema.Offers reference)) (compileType target) := by
  refine (h.call target).imp ?_
  rintro schema - hcompiling ⟨hresolve, hmem | ⟨found, type, hfound, htype⟩⟩
  · rcases hcompiling.resolve_or_added hresolve with hstart | ⟨added, hadded, htag⟩
    · exact .inl ⟨definition, h.definition?_eq, reference, hmem, hstart⟩
    · exact .inr (isDone_of_isAddedTag hadded htag)
  · exact .inr ⟨type, Except.ok.inj (hfound.symm.trans hresolve) ▸ htype⟩

/-- Aliases can be followed from what has been compiled for a reference of the declaration. -/
theorem hasBase {schema : Schema} (hcompiling : IsCompiling start marked schema)
    (hconsistent : schema.Consistent) (hlooks : definition.LooksThrough) {reference : TypeRef}
    (hmem : reference ∈ definition.references) {type : CompiledType}
    (hresolve : schema.resolve reference = .ok type.handle) (hhas : schema.Has type) :
    type.HasBase := by
  rw [hconsistent.hasBase_iff hhas]
  rcases hcompiling.resolve_or_added hresolve with hstart | ⟨added, hadded, htag⟩
  · intro hstarts
    exact h.chains _ ⟨definition, h.definition?_eq, hlooks, reference, hmem, hstart⟩
      (hcompiling.startsChain hconsistent (isSome_node?_of_resolve hstart) hstarts)
  · exact hconsistent.not_startsChain_of_isAddedTag hadded htag _

theorem fails_rootComponentsOf (hlooks : definition.LooksThrough) (kind : CollectionKind)
    (version : Nat) {reference : TypeRef} (hmem : reference ∈ definition.references) :
    FailsOtherwise start marked (fun _ => True)
      (rootComponentsOf compileType kind version reference) := by
  refine FailsOnly.bind (Keeps.ask _) (fails_resolve reference) fun included => ?_
  refine FailsOnly.bind ((h.compiles.keeps_resolved reference included).discard.imp
    (fun _ hbefore => hbefore.1) fun _ _ _ => id)
      ((h.fails_call.imp fun _ _ _ hbefore => ⟨hbefore.1, .inl hmem⟩).discard) fun _ => ?_
  refine FailsOnly.bind (Keeps.ask _) (FailsOnly.ask ?_) fun base => ?_
  · rintro schema hconsistent hcompiling ⟨type, hhas, rfl, hresolve⟩ error herror
    obtain ⟨base, hbase⟩ := h.hasBase hcompiling hconsistent hlooks hmem hresolve hhas
    have hskip := (hconsistent.skipAliases_eq_ok_iff_of_compiled hhas).mpr ⟨base, hbase, rfl⟩
    cases hskip.symm.trans herror
  refine FailsOnly.bind Keeps.get FailsOnly.get fun schema => ?_
  cases schema.layout? base with
  | none => exact FailsOnly.throw fun _ _ _ _ => rfl
  | some layout =>
      simp only
      split
      · exact FailsOnly.pure _
      · exact FailsOnly.throw fun _ _ _ _ => rfl

theorem fails_flatten (hlooks : definition.LooksThrough) (kind : CollectionKind)
    {items : List (Nat × ComponentItem)}
    (hitems : ∀ item ∈ items, ∀ reference ∈ item.2.references,
      reference ∈ definition.references) :
    FailsOtherwise start marked (fun _ => True) (flatten compileType kind items) := by
  induction items with
  | nil => exact FailsOnly.pure []
  | cons item rest ih =>
      have hrest := ih (List.forall_mem_cons.mp hitems).2
      obtain ⟨version, written | reference⟩ := item
      · exact FailsOnly.bind (keeps_flatten h.compiles kind rest) hrest fun _ => FailsOnly.pure _
      · refine FailsOnly.bind (keeps_rootComponentsOf h.compiles kind version reference)
          (h.fails_rootComponentsOf hlooks kind version
            ((List.forall_mem_cons.mp hitems).1 reference (List.mem_singleton_self _)))
              fun part => ?_
        exact FailsOnly.bind ((keeps_flatten h.compiles kind rest).imp (fun _ _ => trivial)
          fun _ _ _ => id) (hrest.imp fun _ _ _ _ => trivial) fun _ => FailsOnly.pure _

theorem fails_compileComponent (index : Nat) (component : FlatComponent) :
    FailsOtherwise start marked (fun schema => component.type ∈ definition.references ∨
        schema.Offers component.type) (compileComponent compileType index component) := by
  refine FailsOnly.bind (Keeps.ask _) (fails_resolve component.type) fun handle => ?_
  refine FailsOnly.bind ((h.compiles.keeps_resolved component.type handle).imp
    (fun _ hbefore => hbefore.1) fun _ _ _ => id) h.fails_call fun type => ?_
  exact FailsOnly.bind (keeps_compileDefault? type component.name component.default?)
    (fails_compileDefault? type component.name component.default?) fun _ => FailsOnly.pure _

theorem fails_compileComponents (index : Nat) (flat : List FlatComponent) :
    FailsOtherwise start marked (fun schema => ∀ component ∈ flat,
        component.type ∈ definition.references ∨ schema.Offers component.type)
      (compileComponents compileType index flat) := by
  induction flat generalizing index with
  | nil => exact FailsOnly.pure []
  | cons component rest ih =>
      have hready : Persists fun schema => ∀ component ∈ rest,
          component.type ∈ definition.references ∨ schema.Offers component.type :=
        fun _ _ hextends hready component hmem =>
          (hready component hmem).imp_right hextends.offers
      have hkeeps := (keeps_compileComponent h.compiles index component).frame hready
      refine FailsOnly.bind (hkeeps.imp (fun _ hbefore =>
        ⟨trivial, (List.forall_mem_cons.mp hbefore).2⟩) fun _ _ _ => id)
          ((h.fails_compileComponent index component).imp fun _ _ _ hbefore =>
            (List.forall_mem_cons.mp hbefore).1) fun first => ?_
      exact FailsOnly.bind ((keeps_compileComponents h.compiles (index + 1) rest).imp
        (fun _ _ => trivial) fun _ _ _ => id) ((ih (index + 1)).imp fun _ _ _ hbefore => hbefore.2)
          fun _ => FailsOnly.pure _

end CallsAhead

namespace CallsAhead

variable {outer : Handle} {collection : CollectionDeclaration}
  (h : CallsAhead start marked outer (.collection collection) compileType)

include h

theorem hasBase_of_areCompiled {schema : Schema} (hcompiling : IsCompiling start marked schema)
    (hconsistent : schema.Consistent) {flat : List FlatComponent}
    {components : List (Component CompiledType)}
    (hcompiled : AreCompiled start schema collection flat components) :
    ∀ component ∈ components, component.type.HasBase := by
  intro component hmem
  obtain ⟨source, hsource, hfrom⟩ := forall₂_exists_of_mem hcompiled.compiled hmem
  rcases mentioned_or_offersBase hconsistent hcompiled.flattens.1 source hsource with
    hwritten | ⟨target, type, hresolve, hfound, hbase⟩
  · exact h.hasBase hcompiling hconsistent trivial hwritten hfrom.made.resolve hfrom.made.compiled
  · obtain rfl := Except.ok.inj (hresolve.symm.trans hfrom.made.resolve)
    obtain rfl := Except.ok.inj (hfound.symm.trans hfrom.made.compiled)
    exact hbase

theorem fails_declaredComponents :
    FailsOtherwise start marked start.Extends (declaredComponents compileType collection) := by
  have hflatten : FailsOtherwise start marked (fun _ => True)
      (flatten compileType collection.kind collection.items) := by
    apply h.fails_flatten trivial
    intro item hitem reference hmem
    exact collection.mem_references hitem hmem
  refine FailsOnly.bind (Keeps.refuse _)
    (FailsOnly.refuse fun _ => isCyclicDefinition_of_versionFault?) fun _ => ?_
  refine FailsOnly.bind ((keeps_flatten_extends h.compiles start collection).imp
    (fun _ hbefore => hbefore.2) fun _ _ _ => id) (hflatten.imp fun _ _ _ _ => trivial)
      fun flat => ?_
  refine FailsOnly.bind (Keeps.refuse _)
    (FailsOnly.refuse fun _ => isCyclicDefinition_of_nameFault?) fun _ => ?_
  exact FailsOnly.bind ((keeps_compileFlat h.compiles start collection flat).imp
    (fun _ hbefore => hbefore.2) fun _ _ _ => id)
      ((h.fails_compileComponents 0 flat).imp fun _ hconsistent _ hbefore component hmem =>
        (mentioned_or_offersBase hconsistent hbefore.2.1.1 component hmem).imp_right (·.offers))
          fun _ => FailsOnly.pure _

theorem fails_compileCollection :
    FailsOtherwise start marked start.Extends (compileCollection compileType collection) := by
  rw [compileCollection_eq]
  refine FailsOnly.bind (keeps_declaredComponents h.compiles start collection)
    h.fails_declaredComponents fun (flat, components) => ?_
  refine FailsOnly.assume (collection.versionFault? = none ∧
    FlatComponent.nameFault? [] flat = none ∧ ∀ component ∈ components, component.type.HasBase)
      ?_ ?_
  · rintro schema hconsistent hcompiling ⟨hversions, hnames, hcompiled⟩
    exact ⟨hversions, hnames, h.hasBase_of_areCompiled hcompiling hconsistent hcompiled⟩
  rintro ⟨hversions, hnames, hbases⟩
  simp only
  split
  · next hadds =>
    exact FailsOnly.bind ((keeps_tagCompiled start hversions hnames hadds).imp
      (fun _ hbefore => hbefore.2.2) fun _ _ _ => id)
        ((runs_tagAutomatically (fun _ _ => IsCompiling.push) fun _ => hbases).failsOnly.imp
          fun _ _ _ hbefore => ⟨hbefore.2.2.types, hbefore.2.2.grows⟩)
            fun tagged => fails_completeLayout flat tagged hbases
  · next hadds =>
    refine FailsOnly.bind (Keeps.pure components) (FailsOnly.pure components) fun found =>
      (fails_completeLayout flat found hbases).imp ?_
    rintro schema - - ⟨rfl, -, -, hcompiled⟩
    exact hcompiled.assembly hversions hnames (Bool.eq_false_iff.mpr hadds)

end CallsAhead

/-- Compiling a declaration fails with a cyclic definition only if compiling one of the types that
it mentions does. -/
theorem CallsAhead.fails_compileDefinition {outer : Handle} {definition : Definition}
    (h : CallsAhead start marked outer definition compileType) :
    FailsOtherwise start marked start.Extends (compileDefinition compileType definition) := by
  cases definition with
  | builtin builtin => exact FailsOnly.pure _
  | «alias» reference =>
      refine FailsOnly.bind (Keeps.ask _) (fails_resolve reference) fun target => ?_
      exact FailsOnly.bind ((h.compiles.keeps_resolved reference target).imp
        (fun _ hbefore => hbefore.1) fun _ _ _ => id) (h.fails_call.imp fun _ _ _ hbefore =>
          ⟨hbefore.1, .inl (List.mem_singleton_self reference)⟩) fun _ => FailsOnly.pure _
  | tagged tag method reference =>
      refine FailsOnly.bind (Keeps.ask _) (fails_resolve reference) fun inner => ?_
      refine FailsOnly.bind ((h.compiles.keeps_resolved reference inner).imp
        (fun _ hbefore => hbefore.1) fun _ _ _ => id) (h.fails_call.imp fun _ _ _ hbefore =>
          ⟨hbefore.1, .inl (List.mem_singleton_self reference)⟩) fun type => ?_
      cases method with
      | explicit => exact FailsOnly.pure _
      | implicit =>
          refine FailsOnly.bind (Keeps.ask _) (FailsOnly.ask ?_) fun isChoice => FailsOnly.pure _
          rintro schema hconsistent hcompiling ⟨hhas, rfl, hresolve⟩ error herror
          have hbase := h.hasBase hcompiling hconsistent trivial
            (List.mem_singleton_self reference) hresolve hhas
          cases (hconsistent.isUntaggedChoice_eq_ok hhas hbase).symm.trans herror
  | collection collection =>
      exact FailsOnly.bind (keeps_compileCollection h.compiles start collection)
        h.fails_compileCollection fun _ => FailsOnly.pure _

theorem fails_compileNode {handle : Handle} {node : SchemaNode}
    (hcalls : start.node? handle = some node →
      CallsAhead start (handle :: marked) handle node.declaration.definition compileType) :
    FailsOtherwise start marked
      (fun schema => schema.node? handle = some node ∧ node.status = .declared)
      (compileNode compileType handle node) := by
  rintro before hconsistent hcompiling ⟨hnode, hdeclared⟩
  have hstart := hcompiling.declared hnode hdeclared
  have hcalls := hcalls hstart
  obtain ⟨hkept, herrors⟩ := hcalls.fails_compileDefinition _ (hconsistent.mark hnode hdeclared)
    (hcompiling.mark hnode hdeclared)
    (hcompiling.toExtends.trans (extends_mark hnode hdeclared))
  have hcompiles := compilesNode hcalls.compiles hcompiling.toExtends hconsistent hnode hdeclared
  generalize (compileNode compileType handle node).outcome before = result at hcompiles ⊢
  cases hcompiles with
  | @fail error _ houtcome hleads hafter hsame =>
    rw [houtcome] at hkept herrors
    refine ⟨hkept.settle hstart hsame (extends_fail hsame) rfl (.same _) rfl trivial, ?_⟩
    rintro _ ⟨⟩
    exact herrors error rfl
  | complete houtcome hleads hafter hsame helaborates =>
    rw [houtcome] at hkept
    have hcomplete := extends_complete hsame helaborates
    refine ⟨hkept.settle hstart hsame hcomplete rfl (helaborates.resolvesTo.mono hcomplete)
      rfl trivial, ?_⟩
    rintro error ⟨⟩

/-- Every type that is compiled for another one is ahead of those that are being compiled, as long
as references do not lead to a cycle. Thus none of them is met again. -/
theorem fails_compileWithin {root handle : Handle}
    (hacyclic : ∀ inner, Relation.ReflTransGen start.Refers root inner →
      ¬Relation.TransGen start.Refers inner inner)
    (hchains : ∀ outer inner, Relation.ReflTransGen start.Refers root outer →
      start.LooksThrough outer inner → ¬start.StartsChain aliasTarget? maxChain inner)
    (steps : Nat) (hnodup : marked.Nodup)
    (hpresent : ∀ outer ∈ marked, ∃ node, start.node? outer = some node)
    (hsteps : start.nodes.size < steps + marked.length) :
    FailsOtherwise start marked
      (fun schema => (Relation.ReflTransGen start.Refers root handle ∧
        ∀ outer ∈ marked, Relation.TransGen start.Refers outer handle) ∨ schema.IsDone handle)
      (compileWithin steps handle) := by
  induction steps generalizing marked handle with
  | zero =>
      have hle := length_le_of_nodup hnodup hpresent
      omega
  | succ steps ih =>
      refine FailsOnly.bind Keeps.get FailsOnly.get fun schema => ?_
      cases hnode : schema.node? handle with
      | none => exact FailsOnly.throw fun _ _ _ _ => rfl
      | some node =>
          have hnot (hstatus : ∀ type, node.status ≠ .compiled type) : ¬schema.IsDone handle := by
            rintro ⟨type, hcompiled⟩
            obtain ⟨found, hfound, hdone⟩ := compiled_eq_ok_iff.mp hcompiled
            obtain rfl := Option.some.inj (hnode.symm.trans hfound)
            exact hstatus type hdone
          simp only
          cases hstatus : node.status with
          | compiled type => exact FailsOnly.pure type
          | failed => exact FailsOnly.throw fun _ _ _ _ => rfl
          | validating =>
              refine FailsOnly.throw ?_
              rintro _ - hcompiling ⟨rfl, hahead⟩
              obtain ⟨hreaches, hbefore⟩ := hahead.resolve_right (hnot (by simp [hstatus]))
              exact absurd (hbefore handle (hcompiling.mem_marked hnode hstatus))
                (hacyclic handle hreaches)
          | declared =>
              rintro before hconsistent hcompiling ⟨rfl, hahead⟩
              obtain ⟨hreaches, hbefore⟩ := hahead.resolve_right (hnot (by simp [hstatus]))
              have hnew : handle ∉ marked := fun hmem =>
                hacyclic handle hreaches (hbefore handle hmem)
              refine fails_compileNode (fun hstart => ?_) schema hconsistent hcompiling
                ⟨hnode, hstatus⟩
              refine ⟨definition?_eq_some_iff.mpr ⟨node, hstart, rfl⟩,
                fun inner => hchains handle inner hreaches, compiles_compileWithin steps,
                fun target => ?_⟩
              refine (ih (List.nodup_cons.mpr ⟨hnew, hnodup⟩)
                (List.forall_mem_cons.mpr ⟨⟨node, hstart⟩, hpresent⟩)
                  (by rw [List.length_cons]; omega)).imp ?_
              rintro _ - - (hrefers | hdone)
              · exact .inl ⟨hreaches.tail hrefers, List.forall_mem_cons.mpr ⟨.single hrefers,
                  fun outer hmem => (hbefore outer hmem).tail hrefers⟩⟩
              · exact .inr hdone

end Compiling

namespace Schema

variable {schema : Schema} {handle : Handle}

theorem isDone_of_compile (h : schema.Consistent)
    (hok : ((Schema.compile handle).outcome schema).1 = .ok ()) :
    ((Schema.compile handle).outcome schema).2.IsDone handle := by
  have hkeeps : Keeps (fun _ => True) (Schema.compile handle)
      fun _ after => ∃ type, after.Has type ∧ type.handle = handle :=
    Keeps.get.bind fun found => (compiles_compileWithin _ handle).discard.imp
      (fun _ _ => trivial) fun _ _ _ => id
  obtain ⟨-, -, hresult⟩ := hkeeps schema h trivial
  obtain ⟨type, hhas, rfl⟩ := hresult () hok
  exact ⟨type, hhas⟩

/-- Compiling a type does not come to a cyclic definition if references from it do not lead to a
cycle, nor aliases that are looked through on the way to too many others. Once a type is compiled,
the schema finds its first tags and whether it is an untagged CHOICE if there are not too many
aliases in a row, and its family if there are not too many aliases and tags. -/
theorem Reachable.compile_ne_cyclicDefinition (h : schema.Reachable) (handle : Handle)
    (hacyclic : ∀ inner, Relation.ReflTransGen schema.Refers handle inner →
      ¬Relation.TransGen schema.Refers inner inner)
    (hchains : ∀ outer inner, Relation.ReflTransGen schema.Refers handle outer →
      schema.LooksThrough outer inner → ¬schema.StartsChain aliasTarget? maxChain inner) :
    let after := ((Schema.compile handle).outcome schema).2
    (∀ type, ((Schema.compile handle).outcome schema).1 ≠ .error (.cyclicDefinition type)) ∧
    (((Schema.compile handle).outcome schema).1 = .ok () →
      ((∃ tags, after.firstTags handle = .ok tags) ↔
        ¬after.StartsChain aliasTarget? maxChain handle) ∧
      ((∃ isChoice, after.isUntaggedChoice handle = .ok isChoice) ↔
        ¬after.StartsChain aliasTarget? maxChain handle) ∧
      ((∃ family, after.family handle = .ok family) ↔
        ¬after.StartsChain innerTarget? maxChain handle)) := by
  have hconsistent := h.consistent
  have hfails : FailsOtherwise schema [] (· = schema) (Schema.compile handle) := by
    refine FailsOnly.bind Keeps.get FailsOnly.get fun found => ?_
    refine FailsOnly.assume (found = schema) (fun _ _ _ hbefore => hbefore.1.trans hbefore.2) ?_
    rintro rfl
    exact (fails_compileWithin hacyclic hchains _ .nil (by simp) (by simp)).discard.imp
      fun _ _ _ _ => .inl ⟨.refl, by simp⟩
  obtain ⟨-, herrors⟩ :=
    hfails schema hconsistent (.initial fun _ _ => h.ne_validating) rfl
  refine ⟨fun type hcyclic => ?_, fun hok => ?_⟩
  · cases herrors _ hcyclic
  · obtain ⟨-, hafter, -⟩ := keeps_compile handle schema hconsistent trivial
    have hdone := isDone_of_compile hconsistent hok
    exact ⟨hafter.exists_firstTags_iff hdone, hafter.exists_isUntaggedChoice_iff hdone,
      hafter.exists_family_iff hdone⟩

/-- Whether every declaration refers to types that have been added before it. -/
def RefersBack (schema : Schema) : Prop :=
  ∀ handle definition, schema.definition? handle = some definition →
    ∀ reference ∈ definition.references, ∃ target : Handle,
      reference = .handle target ∧ target.index < handle.index

theorem RefersBack.push {node : SchemaNode} (h : schema.RefersBack)
    (hnode : ∀ reference ∈ node.declaration.definition.references, ∃ target : Handle,
      reference = .handle target ∧ target.index < schema.nodes.size) :
    (schema.push node).2.RefersBack := by
  intro handle definition hdefinition
  obtain ⟨found, hfound, rfl⟩ := definition?_eq_some_iff.mp hdefinition
  rw [node?_push] at hfound
  split at hfound
  · next hindex =>
    obtain rfl := Option.some.inj hfound
    exact hindex ▸ hnode
  · exact h handle _ (definition?_eq_some_iff.mpr ⟨found, hfound, rfl⟩)

theorem RefersBack.index_lt (h : schema.RefersBack) {outer inner : Handle}
    (hrefers : schema.Refers outer inner) : inner.index < outer.index := by
  obtain ⟨definition, hdefinition, reference, hmem, hresolve⟩ := hrefers
  obtain ⟨target, rfl, hlt⟩ := h outer definition hdefinition reference hmem
  obtain ⟨rfl, -⟩ := resolve_handle_eq_ok_iff.mp hresolve
  exact hlt

theorem RefersBack.not_transGen_self (h : schema.RefersBack) (handle : Handle) :
    ¬Relation.TransGen schema.Refers handle handle := by
  have hlt {outer inner : Handle} (hrefers : Relation.TransGen schema.Refers outer inner) :
      inner.index < outer.index := by
    induction hrefers with
    | single hrefers => exact h.index_lt hrefers
    | tail _ hrefers ih => exact (h.index_lt hrefers).trans ih
  exact fun hcycle => Nat.lt_irrefl _ (hlt hcycle)

theorem RefersBack.le_index_of_startsChain (h : schema.RefersBack) {count : Nat}
    (hstarts : schema.StartsChain aliasTarget? count handle) : count ≤ handle.index := by
  induction count generalizing handle with
  | zero => exact Nat.zero_le _
  | succ count ih =>
      obtain ⟨reference, hreference, hrest⟩ := hstarts
      obtain ⟨definition, hdefinition, htarget⟩ := Option.bind_eq_some_iff.mp hreference
      have hmem := references_of_aliasTarget? htarget
      obtain ⟨target, rfl, hlt⟩ := h handle definition hdefinition reference hmem
      rcases hrest with rfl | ⟨found, hfound, hstarts⟩
      · omega
      · obtain ⟨rfl, -⟩ := resolve_handle_eq_ok_iff.mp hfound
        have hle := ih hstarts
        omega

/-- An INTEGER and as many aliases, each of the type before it. -/
def aliases : Nat → Schema
  | 0 => (empty.add ⟨.builtin .integer, []⟩).2
  | count + 1 => ((aliases count).add ⟨.alias (.handle ⟨count⟩), []⟩).2

/-- A SEQUENCE of the last one of many aliases. -/
def aliasedSequence (count : Nat) : Schema :=
  ((aliases count).add ⟨.collection ((CollectionDeclaration.ofShape .sequence).withRoot
    (.components [⟨"i", .handle ⟨count⟩, false, none⟩])), []⟩).2

theorem size_aliases (count : Nat) : (aliases count).nodes.size = count + 1 := by
  induction count with
  | zero => rfl
  | succ count ih =>
      change ((aliases count).nodes.push _).size = _
      rw [Array.size_push, ih]

theorem reachable_aliasedSequence (count : Nat) : (aliasedSequence count).Reachable := by
  have haliases : (aliases count).Reachable := by
    induction count with
    | zero => exact .add .empty _
    | succ count ih => exact .add ih _
  exact .add haliases _

theorem refersBack_aliasedSequence (count : Nat) : (aliasedSequence count).RefersBack := by
  have hempty : empty.RefersBack := by
    intro handle definition hdefinition
    obtain ⟨node, hnode, -⟩ := definition?_eq_some_iff.mp hdefinition
    simp [empty, node?] at hnode
  have hback (count : Nat) {definition : Definition}
      (hreferences : definition.references = [.handle ⟨count⟩]) :
      ∀ reference ∈ definition.references, ∃ target : Handle,
        reference = .handle target ∧ target.index < (aliases count).nodes.size := by
    rw [hreferences, size_aliases]
    exact List.forall_mem_singleton.mpr ⟨⟨count⟩, rfl, Nat.lt_succ_self count⟩
  have haliases : (aliases count).RefersBack := by
    induction count with
    | zero => exact hempty.push (List.forall_mem_nil _)
    | succ count ih => exact ih.push (hback count rfl)
  exact haliases.push (hback count rfl)

/-- A component that is two aliases away from an INTEGER. -/
theorem compile_ne_cyclicDefinition_aliasedSequence :
    let after := ((Schema.compile ⟨3⟩).outcome (aliasedSequence 2)).2
    (∀ type, ((Schema.compile ⟨3⟩).outcome (aliasedSequence 2)).1 ≠
      .error (.cyclicDefinition type)) ∧
    (∃ tags, after.firstTags ⟨3⟩ = .ok tags) ∧
    (∃ isChoice, after.isUntaggedChoice ⟨3⟩ = .ok isChoice) ∧
    ∃ family, after.family ⟨3⟩ = .ok family := by
  have hback := refersBack_aliasedSequence 2
  obtain ⟨hne, hdone⟩ := (reachable_aliasedSequence 2).compile_ne_cyclicDefinition ⟨3⟩
    (fun inner _ => hback.not_transGen_self inner) (by
      rintro outer inner - ⟨_, -, -, reference, -, hresolve⟩ hstarts
      obtain ⟨node, hnode⟩ := Option.isSome_iff_exists.mp (isSome_node?_of_resolve hresolve)
      have hlt : inner.index < 4 := index_lt_of_node? hnode
      have hle : 64 ≤ inner.index := hback.le_index_of_startsChain hstarts
      omega)
  obtain ⟨htags, hchoice, hfamily⟩ := hdone rfl
  refine ⟨hne, htags.mpr ?_, hchoice.mpr ?_, hfamily.mpr ?_⟩
  · rintro ⟨reference, ⟨⟩, -⟩
  · rintro ⟨reference, ⟨⟩, -⟩
  · rintro ⟨reference, ⟨⟩, -⟩

/-- A component that is too many aliases away from an INTEGER counts as a cyclic definition. -/
theorem exists_cyclicDefinition_without_cycle : ∃ schema : Schema, ∃ handle : Handle,
    schema.Reachable ∧
    (∀ inner, Relation.ReflTransGen schema.Refers handle inner →
      ¬Relation.TransGen schema.Refers inner inner) ∧
    ∃ type, ((Schema.compile handle).outcome schema).1 = .error (.cyclicDefinition type) := by
  refine ⟨aliasedSequence 64, ⟨65⟩, reachable_aliasedSequence 64, ?_,
    (aliasedSequence 64).describe ⟨64⟩, ?_⟩
  · intro inner _
    exact (refersBack_aliasedSequence 64).not_transGen_self inner
  · decide +kernel

end Schema

end Asn1

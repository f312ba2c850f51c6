import Asn1.Proofs.CompilationFailures
import Asn1.Proofs.ElaborationAgreement
import Asn1.Proofs.SchemaCalls

/-!
Compiling a declaration that has been compiled elsewhere. Whether or not a step succeeds, it keeps
an invariant if compiling the types that it comes to does. It succeeds if the declaration has been
compiled in another schema that has come from the same one, and if compiling the types that it comes
to succeeds.
-/

namespace Asn1

open Results Schema Compile

section Collections

variable {start final : Schema} {invariant : Schema → Prop} {condition : Prop}
  {callable : Handle → Prop} {compileType : TypeCompiler}

/-- Compiling a declaration while an invariant is kept. If the condition holds, then the declaration
has been compiled in the schema `final`, and the types that can be called are sure to compile. -/
structure RunsAlong (start final : Schema) (invariant : Schema → Prop) (condition : Prop)
    (callable : Handle → Prop) (compileType : TypeCompiler) : Prop where
  agree : ∀ {schema}, schema.Consistent → invariant schema → Concur start final schema
  overlooks : condition → start.OverlooksCompiling start.view
  push : ∀ {schema node}, invariant schema → node.IsAddedTag → invariant (schema.push node).2
  compiles : compileType.Compiles
  call : ∀ handle, Runs invariant
    (fun schema => condition → callable handle ∨ schema.IsDone handle) condition
      (compileType handle)

/-- Whether a reference is to a type that can be called. -/
def CanCall (final : Schema) (callable : Handle → Prop) (reference : TypeRef) : Prop :=
  ∃ target, final.resolve reference = .ok target ∧ callable target

theorem persists_isReady (final : Schema) (callable : Handle → Prop) (condition : Prop)
    (flat : List FlatComponent) : Persists fun schema => condition → ∀ component ∈ flat,
      CanCall final callable component.type ∨ schema.Offers component.type := by
  intro _ _ hextends hready hcondition component hmem
  exact (hready hcondition component hmem).imp_right hextends.offers

theorem Schema.Concur.resolve {left right : Schema} (h : Concur start left right)
    {reference : TypeRef} {target : Handle} (hknows : start.Knows reference)
    (hresolve : left.resolve reference = .ok target) : right.resolve reference = .ok target := by
  rw [h.grows_right.resolve_iff hknows]
  exact (h.grows.resolve_iff hknows).mp hresolve

theorem Schema.Concur.exists_layout {left right : Schema} (h : Concur start left right)
    {kind : CollectionKind} {reference : TypeRef} {included : Handle}
    (hknows : start.Knows reference) (hincludes : left.Includes kind reference)
    (hcompiled : ∃ type, right.Has type ∧ type.handle = included ∧
      right.resolve reference = .ok included) :
    ∃ base, right.skipAliases included = .ok base ∧ ∃ layout, right.layout? base = some layout ∧
      (kind = .sequence ∨ kind = .set) ∧ layout.kind = kind := by
  obtain ⟨type, hhas, rfl, hresolved⟩ := hcompiled
  obtain ⟨hlegal, target, other, base, layout, htarget, hother, hbase, hlayout, hkind⟩ := hincludes
  have hsame := h.upTo_eq_of_resolve hknows htarget hother hresolved hhas
  obtain ⟨found, hfound, heq⟩ := CompiledType.exists_aliasBase?_of_upTo_eq hsame hbase
  have hlayouts := congrArg CompiledType.layout? heq
  rw [CompiledType.layout?_upTo, CompiledType.layout?_upTo, hlayout] at hlayouts
  obtain ⟨layout', hlayout', hmap⟩ := Option.map_eq_some_iff.mp hlayouts.symm
  refine ⟨found.handle, ?_, layout', ?_, hlegal, ?_⟩
  · exact (h.consistent_right.skipAliases_eq_ok_iff_of_compiled hhas).mpr ⟨found, hfound, rfl⟩
  · exact (h.consistent_right.layout?_eq_of_aliasBase? hhas hfound).trans hlayout'
  · exact (congrArg Layout.kind hmap).trans hkind

/-- A declaration is flattened to the same components in both schemas. -/
theorem Schema.Concur.knows_and_exists_assembly {left right : Schema} (h : Concur start left right)
    {collection : CollectionDeclaration} {flat : List FlatComponent}
    (hknows : ∀ reference ∈ (Definition.collection collection).references, start.Knows reference)
    (hlayout : condition → ∃ layout, HasLayout start left collection layout)
    (hflat : right.Flattens collection.items flat) :
    (∀ component ∈ flat, start.Knows component.type) ∧ (condition →
      ∃ components tagged, Assembly start left collection flat components tagged) := by
  have hitems : ∀ item ∈ collection.items, ∀ reference ∈ item.2.references,
      start.Knows reference := fun item hitem reference hmem =>
    hknows reference (collection.mem_references hitem hmem)
  refine ⟨h.grows_right.knows_flat h.consistent_start h.consistent_right hflat hitems,
    fun hcondition => ?_⟩
  obtain ⟨_, _, components, tagged, hassembly, -⟩ := hlayout hcondition
  obtain rfl := h.flattens_eq hitems hassembly.flattens.1 hflat
  exact ⟨components, tagged, hassembly⟩

/-- What the components of a declaration mention is mentioned in the declaration, or it has been
compiled with a collection that is included. -/
theorem written_or_offersBase_of_flattens {schema : Schema} (hconsistent : schema.Consistent)
    {items : List (Nat × ComponentItem)} {flat : List FlatComponent}
    (hflat : schema.Flattens items flat) : ∀ component ∈ flat,
      (∃ item ∈ items, component.type ∈ item.2.references) ∨
        schema.OffersBase component.type := by
  induction hflat with
  | nil => simp
  | @cons version item items part flat hitem _ ih =>
      intro component hmem
      rcases List.mem_append.mp hmem with hmem | hmem
      · cases hitem with
        | components written =>
            obtain ⟨declared, hdeclared, rfl⟩ := List.mem_map.mp hmem
            exact .inl ⟨_, List.mem_cons_self, List.mem_map_of_mem hdeclared⟩
        | componentsOf _ hcompiled hlayout =>
            obtain ⟨included, hincluded, rfl⟩ := List.mem_map.mp hmem
            have hfound := hconsistent.compiled_of_reaches hcompiled hlayout.reaches
            exact .inr ((hconsistent _ _ hfound).declared _ rfl included
              (List.mem_filter.mp hincluded).1)
      · exact (ih component hmem).imp_left fun ⟨item, hin, hreference⟩ =>
          ⟨item, List.mem_cons_of_mem _ hin, hreference⟩

theorem mentioned_or_offersBase {schema : Schema} (hconsistent : schema.Consistent)
    {collection : CollectionDeclaration} {flat : List FlatComponent}
    (hflat : schema.Flattens collection.items flat) : ∀ component ∈ flat,
      component.type ∈ (Definition.collection collection).references ∨
        schema.OffersBase component.type := by
  intro component hmem
  refine (written_or_offersBase_of_flattens hconsistent hflat component hmem).imp_left ?_
  rintro ⟨item, hitem, hreference⟩
  exact collection.mem_references hitem hreference

theorem runs_findAllTags {components : List (Component CompiledType)}
    (hbases : condition → ∀ component ∈ components, component.type.HasBase) :
    Runs invariant (fun schema => ∀ component ∈ components, schema.Has component.type) condition
      (components.mapM findTags) := by
  refine Runs.mapM (persists_forall_has components) (fun component hmem =>
    (keeps_findTags component).imp (fun _ hall => hall component hmem) fun _ _ _ => id)
      fun component hmem => ?_
  exact Runs.bind (Keeps.ask _) (Runs.ask fun schema hconsistent _ hall hcondition =>
    ⟨_, hconsistent.firstTags_eq_ok (hall component hmem) (hbases hcondition component hmem)⟩)
      fun _ => Runs.pure _

theorem runs_addContextTag
    (hpush : ∀ schema node, invariant schema → node.IsAddedTag → invariant (schema.push node).2)
    (number : Nat) {inner : CompiledType}
    (hbase : condition → inner.HasBase) :
    Runs invariant (·.Has inner) condition (addContextTag number inner) := by
  refine Runs.bind (keeps_askUntaggedChoice inner fun _ => id)
    (Runs.ask fun schema hconsistent _ hhas hcondition =>
      ⟨_, hconsistent.isUntaggedChoice_eq_ok hhas (hbase hcondition)⟩) fun isChoice => ?_
  refine Runs.bind Keeps.get Runs.get fun schema => ?_
  rintro _ - hinvariant ⟨rfl, -⟩
  exact ⟨hpush _ _ hinvariant ⟨rfl, _, rfl, rfl, _, _, _, rfl⟩, fun _ => ⟨_, rfl⟩⟩

theorem runs_addContextTags
    (hpush : ∀ schema node, invariant schema → node.IsAddedTag → invariant (schema.push node).2)
    (number : Nat) {components : List (Component CompiledType)}
    (hbases : condition → ∀ component ∈ components, component.type.HasBase) :
    Runs invariant (fun schema => (∀ component ∈ components, schema.Has component.type) ∧
        start.Extends schema) condition (addContextTags number components) := by
  induction components generalizing number with
  | nil => exact Runs.pure []
  | cons component rest ih =>
      have hfirst := runs_addContextTag hpush number
        fun hcondition => (List.forall_mem_cons.mp (hbases hcondition)).1
      have hrest := ih (number + 1)
        fun hcondition => (List.forall_mem_cons.mp (hbases hcondition)).2
      have hkeeps := (keeps_addContextTag start number component.type).frame
        ((persists_forall_has rest).and (persists_extends start))
      refine Runs.bind (hkeeps.imp (fun _ hbefore =>
        ⟨⟨(List.forall_mem_cons.mp hbefore.1).1, hbefore.2⟩,
          (List.forall_mem_cons.mp hbefore.1).2, hbefore.2⟩) fun _ _ _ => id)
            (hfirst.imp fun _ _ _ hbefore => (List.forall_mem_cons.mp hbefore.1).1) fun type => ?_
      exact Runs.bind ((keeps_addContextTags start (number + 1) rest).imp
        (fun _ hbefore => hbefore.2) fun _ _ _ => id) (hrest.imp fun _ _ _ hbefore => hbefore.2)
          fun _ => Runs.pure _

theorem runs_tagAutomatically
    (hpush : ∀ schema node, invariant schema → node.IsAddedTag → invariant (schema.push node).2)
    {components : List (Component CompiledType)}
    (hbases : condition → ∀ component ∈ components, component.type.HasBase) :
    Runs invariant (fun schema => (∀ component ∈ components, schema.Has component.type) ∧
        start.Extends schema) condition (tagAutomatically components) := by
  let order := components.filter (!·.isAddition) ++ components.filter (·.isAddition)
  have hperm : order.Perm components :=
    List.perm_append_comm.trans (List.filter_append_perm (·.isAddition) components)
  have horder (schema : Schema) (hbefore : (∀ component ∈ components, schema.Has component.type) ∧
      start.Extends schema) : (∀ component ∈ order, schema.Has component.type) ∧
        start.Extends schema :=
    ⟨fun component hmem => hbefore.1 component (hperm.mem_iff.mp hmem), hbefore.2⟩
  exact Runs.bind ((keeps_addContextTags start 0 order).imp horder fun _ _ _ => id)
    ((runs_addContextTags hpush 0 fun hcondition component hmem =>
      hbases hcondition component (hperm.mem_iff.mp hmem)).imp fun schema _ _ => horder schema)
        fun _ => Runs.pure _

namespace RunsAlong

variable (h : RunsAlong start final invariant condition callable compileType)

include h

theorem runs_resolve {pre : Schema → Prop} {reference : TypeRef} (hknows : start.Knows reference)
    (hresolve : condition → ∃ target, final.resolve reference = .ok target) :
    Runs invariant pre condition (ask (·.resolve reference)) := by
  refine Runs.ask fun schema hconsistent hinvariant _ hcondition => ?_
  obtain ⟨target, htarget⟩ := hresolve hcondition
  exact ⟨target, (h.agree hconsistent hinvariant).resolve hknows htarget⟩

theorem runs_call {reference : TypeRef} {target : Handle}
    (hcall : condition → CanCall final callable reference) :
    Runs invariant (fun schema => schema.resolve reference = .ok target) condition
      (compileType target) := by
  refine (h.call target).imp fun schema hconsistent hinvariant hresolve hcondition => ?_
  obtain ⟨other, hother, hcallable⟩ := hcall hcondition
  exact .inl ((h.agree hconsistent hinvariant).target_eq hother hresolve ▸ hcallable)

theorem runs_rootComponentsOf {kind : CollectionKind} (version : Nat) {reference : TypeRef}
    (hknows : start.Knows reference) (hcall : condition → CanCall final callable reference)
    (hincludes : condition → final.Includes kind reference) :
    Runs invariant (fun _ => True) condition
      (rootComponentsOf compileType kind version reference) := by
  have hresolve (hcondition : condition) : ∃ target, final.resolve reference = .ok target := by
    obtain ⟨target, htarget, -⟩ := hcall hcondition
    exact ⟨target, htarget⟩
  have hfind (schema : Schema) (hconsistent : schema.Consistent) (hinvariant : invariant schema)
      {included : Handle} (hcompiled : ∃ type, schema.Has type ∧ type.handle = included ∧
        schema.resolve reference = .ok included) (hcondition : condition) :=
    (h.agree hconsistent hinvariant).exists_layout hknows (hincludes hcondition) hcompiled
  refine Runs.bind (Keeps.ask _) (h.runs_resolve hknows hresolve) fun included => ?_
  refine Runs.bind ((h.compiles.keeps_resolved reference included).discard.imp
    (fun _ hbefore => hbefore.1) fun _ _ _ => id)
      ((h.runs_call hcall).discard.imp fun _ _ _ hbefore => hbefore.1) fun _ => ?_
  refine Runs.bind (Keeps.ask _) (Runs.ask fun schema hconsistent hinvariant hbefore hcondition =>
    ?_) fun base => ?_
  · obtain ⟨base, hbase, -⟩ := hfind schema hconsistent hinvariant hbefore hcondition
    exact ⟨base, hbase⟩
  refine Runs.bind Keeps.get Runs.get fun schema => ?_
  refine Runs.assume (condition → ∃ layout, schema.layout? base = some layout ∧
    (kind = .sequence ∨ kind = .set) ∧ layout.kind = kind) ?_ fun hlayout => ?_
  · rintro _ hconsistent hinvariant ⟨rfl, hbase, hbefore⟩ hcondition
    obtain ⟨base', hbase', hlayout⟩ := hfind schema hconsistent hinvariant hbefore hcondition
    obtain rfl := Except.ok.inj (hbase.symm.trans hbase')
    exact hlayout
  cases hfound : schema.layout? base with
  | none =>
      refine Runs.throw _ fun _ _ _ _ hcondition => ?_
      obtain ⟨layout, hsome, -⟩ := hlayout hcondition
      cases hfound.symm.trans hsome
  | some layout =>
      simp only
      split
      · exact Runs.pure _
      · next hillegal =>
        refine Runs.throw _ fun _ _ _ _ hcondition => ?_
        obtain ⟨other, hsome, hlegal⟩ := hlayout hcondition
        obtain rfl := Option.some.inj (hfound.symm.trans hsome)
        exact hillegal hlegal

theorem runs_flatten {kind : CollectionKind} {items : List (Nat × ComponentItem)}
    (hknows : ∀ item ∈ items, ∀ reference ∈ item.2.references, start.Knows reference)
    (hcall : condition → ∀ item ∈ items, ∀ reference ∈ item.2.references,
      CanCall final callable reference)
    (hincludes : condition → ∀ version reference, (version, .componentsOf reference) ∈ items →
      final.Includes kind reference) :
    Runs invariant (fun _ => True) condition (flatten compileType kind items) := by
  induction items with
  | nil => exact Runs.pure []
  | cons item rest ih =>
      obtain ⟨hknown, hknows⟩ := List.forall_mem_cons.mp hknows
      have hrest := ih hknows
        (fun hcondition => (List.forall_mem_cons.mp (hcall hcondition)).2)
        fun hcondition version reference hmem =>
          hincludes hcondition version reference (List.mem_cons_of_mem _ hmem)
      obtain ⟨version, written | reference⟩ := item
      · exact Runs.bind (keeps_flatten h.compiles kind rest) hrest fun _ => Runs.pure _
      · have hmem : reference ∈ (ComponentItem.componentsOf reference).references :=
          List.mem_singleton_self reference
        have hfirst := h.runs_rootComponentsOf version (hknown reference hmem)
          (fun hcondition => (List.forall_mem_cons.mp (hcall hcondition)).1 reference hmem)
          fun hcondition => hincludes hcondition version reference List.mem_cons_self
        refine Runs.bind (keeps_rootComponentsOf h.compiles kind version reference) hfirst
          fun part => ?_
        exact Runs.bind ((keeps_flatten h.compiles kind rest).imp (fun _ _ => trivial)
          fun _ _ _ => id) (hrest.imp fun _ _ _ _ => trivial) fun _ => Runs.pure _

/-- A default is one of the type here if it is where the component has been compiled before. There
it has been checked in another schema, between which and this one constraints see no difference. -/
theorem runs_compileDefault? {component : FlatComponent} (type : CompiledType)
    (hknows : start.Knows component.type)
    (htakes : condition → start.TakesDefault final component) :
    Runs invariant
      (fun schema => schema.Has type ∧ schema.resolve component.type = .ok type.handle) condition
        (component.default?.mapM (compileDefault type component.name)) := by
  cases hvalue : component.default? with
  | none => exact Runs.pure none
  | some value =>
      have hdefault : Runs invariant
          (fun schema => schema.Has type ∧ schema.resolve component.type = .ok type.handle)
            condition (compileDefault type component.name value) := by
        refine Runs.bind Keeps.get Runs.get fun schema => ?_
        cases hform : type.canonicalize schema.values (.top schema.view) value with
        | ok form => exact Runs.pure _
        | error error =>
            refine Runs.throw _ ?_
            rintro _ hconsistent hinvariant ⟨rfl, hhas, hresolve⟩ hcondition
            obtain ⟨other, earlier, _, hother, hfound, hstart, hearlier, form, hcanonical, rfl⟩ :=
              htakes hcondition value hvalue
            have hagree := h.agree hconsistent hinvariant
            obtain ⟨form', hlater⟩ := hagree.exists_canonicalize hknows (h.overlooks hcondition)
              hother hfound hresolve hhas hstart hearlier hcanonical
            cases hform.symm.trans hlater
      exact Runs.bind (keeps_compileDefault type _ value) hdefault fun _ => Runs.pure _

theorem runs_compileComponent (index : Nat) {component : FlatComponent}
    (hknows : start.Knows component.type)
    (hcompiled : condition → ∃ compiled : Component CompiledType,
      compiled.IsCompiledFrom final component)
    (htakes : condition → start.TakesDefault final component) :
    Runs invariant (fun schema => condition →
        CanCall final callable component.type ∨ schema.Offers component.type) condition
      (compileComponent compileType index component) := by
  have hresolve (hcondition : condition) : ∃ target, final.resolve component.type = .ok target := by
    obtain ⟨compiled, hcompiled⟩ := hcompiled hcondition
    exact ⟨_, hcompiled.made.resolve⟩
  refine Runs.bind (Keeps.ask _) (h.runs_resolve hknows hresolve) fun handle => ?_
  refine Runs.bind ((h.compiles.keeps_resolved component.type handle).imp
    (fun _ hbefore => hbefore.1) fun _ _ _ => id) ((h.call handle).imp ?_) fun type => ?_
  · rintro schema hconsistent hinvariant ⟨hresolved, hready⟩ hcondition
    rcases hready hcondition with ⟨target, htarget, hcallable⟩ | ⟨target, type, htarget, htype⟩
    · exact .inl ((h.agree hconsistent hinvariant).target_eq htarget hresolved ▸ hcallable)
    · exact .inr ⟨type, Except.ok.inj (htarget.symm.trans hresolved) ▸ htype⟩
  · refine Runs.bind (keeps_compileDefault? type component.name component.default?)
      ((h.runs_compileDefault? type hknows htakes).imp ?_) fun _ => Runs.pure _
    rintro _ _ _ ⟨hhas, rfl, hresolved⟩
    exact ⟨hhas, hresolved⟩

theorem runs_compileComponents (index : Nat) {flat : List FlatComponent}
    (hknows : ∀ component ∈ flat, start.Knows component.type)
    (hcompiled : condition → ∀ component ∈ flat, ∃ compiled : Component CompiledType,
      compiled.IsCompiledFrom final component)
    (htakes : condition → ∀ component ∈ flat, start.TakesDefault final component) :
    Runs invariant (fun schema => condition → ∀ component ∈ flat,
        CanCall final callable component.type ∨ schema.Offers component.type) condition
      (compileComponents compileType index flat) := by
  induction flat generalizing index with
  | nil => exact Runs.pure []
  | cons component rest ih =>
      obtain ⟨hknown, hknows⟩ := List.forall_mem_cons.mp hknows
      have hfirst := h.runs_compileComponent index hknown
        (fun hcondition => (List.forall_mem_cons.mp (hcompiled hcondition)).1)
        fun hcondition => (List.forall_mem_cons.mp (htakes hcondition)).1
      have hrest := ih (index + 1) hknows
        (fun hcondition => (List.forall_mem_cons.mp (hcompiled hcondition)).2)
        fun hcondition => (List.forall_mem_cons.mp (htakes hcondition)).2
      have hkeeps := ((keeps_compileComponent h.compiles index component).frame
        (persists_isReady final callable condition rest))
      refine Runs.bind (hkeeps.imp (fun _ hready => ⟨trivial, fun hcondition =>
        (List.forall_mem_cons.mp (hready hcondition)).2⟩) fun _ _ _ => id)
          (hfirst.imp fun _ _ _ hready hcondition =>
            (List.forall_mem_cons.mp (hready hcondition)).1) fun first => ?_
      exact Runs.bind ((keeps_compileComponents h.compiles (index + 1) rest).imp
        (fun _ _ => trivial) fun _ _ _ => id) (hrest.imp fun _ _ _ hbefore => hbefore.2)
          fun _ => Runs.pure _

theorem runs_completeLayout {collection : CollectionDeclaration} (flat : List FlatComponent)
    (components tagged : List (Component CompiledType))
    (hknows : ∀ reference ∈ (Definition.collection collection).references, start.Knows reference)
    (hlayout : condition → ∃ layout, HasLayout start final collection layout) :
    Runs invariant (Assembly start · collection flat components tagged) condition
      (completeLayout collection tagged) := by
  refine Runs.assume (condition → (∀ component ∈ tagged, component.type.HasBase) ∧
    ambiguity? collection.kind (tagged.map Component.withFirstTags) = none) ?_ fun hcomplete => ?_
  · intro schema hconsistent hinvariant hassembly hcondition
    obtain ⟨_, _, _, others, hother, hbases, hclash, -⟩ := hlayout hcondition
    have heq := (h.agree hconsistent hinvariant).tagged_eq hknows hother hassembly
    exact ⟨hasBase_of_map_upTo_eq heq hbases,
      (ambiguity?_eq_of_map_upTo_eq collection.kind heq).symm.trans hclash⟩
  · refine Runs.bind ((keeps_findAllTags tagged).imp (fun _ hassembly => hassembly.types)
      fun _ _ _ => id) ((runs_findAllTags fun hcondition => (hcomplete hcondition).1).imp
        fun _ _ _ hassembly => hassembly.types) fun found => ?_
    refine Runs.assume (found = tagged.map Component.withFirstTags) (fun _ _ _ hfound => hfound.1)
      fun hfound => ?_
    refine Runs.bind (Keeps.refuse _) (Runs.refuse fun hcondition => ?_) fun _ => Runs.pure _
    rw [hfound, (hcomplete hcondition).2, Option.map_none]

theorem runs_compileFlat {collection : CollectionDeclaration} {flat : List FlatComponent}
    (hknows : ∀ component ∈ flat, start.Knows component.type)
    (hcall : condition → ∀ reference ∈ (Definition.collection collection).references,
      CanCall final callable reference)
    (hassembly : condition →
      ∃ components tagged, Assembly start final collection flat components tagged) :
    Runs invariant (fun schema => FlattensTo schema collection.kind collection.items flat)
      condition (compileComponents compileType 0 flat) := by
  refine (h.runs_compileComponents 0 hknows (fun hcondition => ?_) fun hcondition => ?_).imp ?_
  · obtain ⟨_, _, hassembly⟩ := hassembly hcondition
    intro component hmem
    obtain ⟨compiled, -, hcompiled⟩ := forall₂_exists_of_mem hassembly.compiled.flip hmem
    exact ⟨compiled, hcompiled⟩
  · obtain ⟨_, _, hassembly⟩ := hassembly hcondition
    exact hassembly.defaults
  · rintro schema hconsistent - ⟨hflat, -⟩ hcondition component hmem
    exact (mentioned_or_offersBase hconsistent hflat component hmem).imp (hcall hcondition _)
      (·.offers)

theorem runs_tagCompiled {collection : CollectionDeclaration} {flat : List FlatComponent}
    {components : List (Component CompiledType)}
    (hknows : ∀ component ∈ flat, start.Knows component.type)
    (hadds : collection.addsTags flat components = true)
    (hassembly : condition →
      ∃ components tagged, Assembly start final collection flat components tagged) :
    Runs invariant (AreCompiled start · collection flat components) condition
      (tagAutomatically components) := by
  refine Runs.assume (condition → ∀ component ∈ components, component.type.HasBase) ?_
    fun hbases => (runs_tagAutomatically (fun _ _ => h.push) hbases).imp fun _ _ _ hbefore =>
      ⟨hbefore.types, hbefore.grows⟩
  intro schema hconsistent hinvariant hcompiled hcondition
  obtain ⟨others, _, hother⟩ := hassembly hcondition
  have heq := (h.agree hconsistent hinvariant).components_eq hknows hother.compiled
    hcompiled.compiled hother.places hcompiled.places
  exact hasBase_of_map_upTo_eq heq
    (hother.areTagged ((collection.addsTags_eq flat heq).trans hadds)).2

theorem runs_declaredComponents {collection : CollectionDeclaration}
    (hknows : ∀ reference ∈ (Definition.collection collection).references, start.Knows reference)
    (hcall : condition → ∀ reference ∈ (Definition.collection collection).references,
      CanCall final callable reference)
    (hlayout : condition → ∃ layout, HasLayout start final collection layout) :
    Runs invariant start.Extends condition (declaredComponents compileType collection) := by
  refine Runs.bind (Keeps.refuse _) (Runs.refuse fun hcondition => ?_) fun _ => ?_
  · obtain ⟨_, _, _, _, hassembly, -⟩ := hlayout hcondition
    exact hassembly.versions
  have hflatten : Runs invariant (fun _ => True) condition
      (flatten compileType collection.kind collection.items) := by
    apply h.runs_flatten
    · intro item hitem reference hmem
      exact hknows reference (collection.mem_references hitem hmem)
    · intro hcondition item hitem reference hmem
      exact hcall hcondition reference (collection.mem_references hitem hmem)
    · intro hcondition
      obtain ⟨_, _, _, _, hassembly, -⟩ := hlayout hcondition
      exact hassembly.flattens.2
  refine Runs.bind ((keeps_flatten_extends h.compiles start collection).imp
    (fun _ hbefore => hbefore.2) fun _ _ _ => id) (hflatten.imp fun _ _ _ _ => trivial)
      fun flat => ?_
  refine Runs.assume ((∀ component ∈ flat, start.Knows component.type) ∧ (condition →
    ∃ components tagged, Assembly start final collection flat components tagged)) ?_ ?_
  · intro schema hconsistent hinvariant hbefore
    exact (h.agree hconsistent hinvariant).knows_and_exists_assembly hknows hlayout hbefore.1.1
  rintro ⟨hflat, hassembly⟩
  refine Runs.bind (Keeps.refuse _) (Runs.refuse fun hcondition => ?_) fun _ => ?_
  · obtain ⟨_, _, hassembly⟩ := hassembly hcondition
    exact hassembly.names
  exact Runs.bind ((keeps_compileFlat h.compiles start collection flat).imp
    (fun _ hbefore => hbefore.2) fun _ _ _ => id)
      ((h.runs_compileFlat hflat hcall hassembly).imp fun _ _ _ hbefore => hbefore.2.1)
        fun _ => Runs.pure _

theorem runs_compileCollection {collection : CollectionDeclaration}
    (hknows : ∀ reference ∈ (Definition.collection collection).references, start.Knows reference)
    (hcall : condition → ∀ reference ∈ (Definition.collection collection).references,
      CanCall final callable reference)
    (hlayout : condition → ∃ layout, HasLayout start final collection layout) :
    Runs invariant start.Extends condition (compileCollection compileType collection) := by
  rw [compileCollection_eq]
  refine Runs.bind (keeps_declaredComponents h.compiles start collection)
    (h.runs_declaredComponents hknows hcall hlayout) fun (flat, components) => ?_
  refine Runs.assume (collection.versionFault? = none ∧ FlatComponent.nameFault? [] flat = none ∧
    (∀ component ∈ flat, start.Knows component.type) ∧ (condition →
      ∃ components tagged, Assembly start final collection flat components tagged)) ?_ ?_
  · rintro schema hconsistent hinvariant ⟨hversions, hnames, hcompiled⟩
    exact ⟨hversions, hnames, (h.agree hconsistent hinvariant).knows_and_exists_assembly hknows
      hlayout hcompiled.flattens.1⟩
  rintro ⟨hversions, hnames, hflat, hassembly⟩
  simp only
  split
  · next hadds =>
    exact Runs.bind ((keeps_tagCompiled start hversions hnames hadds).imp
      (fun _ hbefore => hbefore.2.2) fun _ _ _ => id)
        ((h.runs_tagCompiled hflat hadds hassembly).imp fun _ _ _ hbefore => hbefore.2.2)
          fun tagged => h.runs_completeLayout flat components tagged hknows hlayout
  · next hadds =>
    refine Runs.bind (Keeps.pure components) (Runs.pure components) fun found =>
      (h.runs_completeLayout flat components found hknows hlayout).imp ?_
    rintro schema - - ⟨rfl, -, -, hcompiled⟩
    exact hcompiled.assembly hversions hnames (Bool.eq_false_iff.mpr hadds)

/-- A declaration is compiled where it has been compiled before. -/
theorem runs_compileDefinition {definition : Definition}
    (hknows : ∀ reference ∈ definition.references, start.Knows reference)
    (hcall : condition → ∀ reference ∈ definition.references, CanCall final callable reference)
    (helaborates : condition → ∃ resolved form,
      Elaborates start final definition resolved form) :
    Runs invariant start.Extends condition (compileDefinition compileType definition) := by
  have hsingle {reference : TypeRef} (hreferences : definition.references = [reference]) :
      start.Knows reference ∧ (condition → CanCall final callable reference) :=
    ⟨hknows reference (hreferences ▸ List.mem_singleton_self _), fun hcondition =>
      hcall hcondition reference (hreferences ▸ List.mem_singleton_self _)⟩
  have hresolve {reference : TypeRef} (hcall : condition → CanCall final callable reference)
      (hcondition : condition) : ∃ target, final.resolve reference = .ok target := by
    obtain ⟨target, htarget, -⟩ := hcall hcondition
    exact ⟨target, htarget⟩
  cases definition with
  | builtin builtin => exact Runs.pure _
  | «alias» reference =>
      obtain ⟨hknown, hcall⟩ := hsingle rfl
      refine Runs.bind (Keeps.ask _) (h.runs_resolve hknown (hresolve hcall)) fun target => ?_
      exact Runs.bind ((h.compiles.keeps_resolved reference target).imp
        (fun _ hbefore => hbefore.1) fun _ _ _ => id)
          ((h.runs_call hcall).imp fun _ _ _ hbefore => hbefore.1) fun _ => Runs.pure _
  | tagged tag method reference =>
      obtain ⟨hknown, hcall⟩ := hsingle rfl
      refine Runs.bind (Keeps.ask _) (h.runs_resolve hknown (hresolve hcall)) fun inner => ?_
      refine Runs.bind ((h.compiles.keeps_resolved reference inner).imp
        (fun _ hbefore => hbefore.1) fun _ _ _ => id)
          ((h.runs_call hcall).imp fun _ _ _ hbefore => hbefore.1) fun type => ?_
      cases method with
      | explicit => exact Runs.pure _
      | implicit =>
          refine Runs.bind (Keeps.ask _) (Runs.ask ?_) fun isChoice => Runs.pure _
          rintro schema hconsistent hinvariant ⟨hhas, rfl, hresolved⟩ hcondition
          obtain ⟨_, _, helaborates⟩ := helaborates hcondition
          cases helaborates with
          | implicit hresolved' hhas' hbase =>
              have hsame := (h.agree hconsistent hinvariant).upTo_eq_of_resolve hknown hresolved'
                hhas' hresolved hhas
              exact ⟨_, hconsistent.isUntaggedChoice_eq_ok hhas (hbase.of_upTo_eq hsame)⟩
  | collection collection =>
      refine Runs.bind (keeps_compileCollection h.compiles start collection)
        (h.runs_compileCollection hknows hcall fun hcondition => ?_) fun _ => Runs.pure _
      obtain ⟨_, _, helaborates⟩ := helaborates hcondition
      cases helaborates with
      | collection hlayout => exact ⟨_, hlayout⟩

end RunsAlong

end Collections

end Asn1

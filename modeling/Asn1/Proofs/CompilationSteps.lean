import Asn1.Proofs.LayoutSteps

namespace Asn1

open Results Schema Compile

section Types

variable {compileType : TypeCompiler}

/-- What a declaration is compiled to: the declaration with its references resolved, and the
compiled form. -/
inductive Elaborates (start schema : Schema) :
    Definition → Definition → TypeForm CompiledType → Prop
  | builtin (builtin : Builtin) :
    Elaborates start schema (.builtin builtin) (.builtin builtin) (.builtin builtin)
  | alias {reference : TypeRef} {type : CompiledType}
    (hresolve : schema.resolve reference = .ok type.handle) (hhas : schema.Has type) :
    Elaborates start schema (.alias reference) (.alias (.handle type.handle)) (.alias type)
  | explicit {tag : Tag} {reference : TypeRef} {type : CompiledType}
    (hresolve : schema.resolve reference = .ok type.handle) (hhas : schema.Has type) :
    Elaborates start schema (.tagged tag .explicit reference)
      (.tagged tag .explicit (.handle type.handle)) (.tagged tag .explicit type)
  | implicit {tag : Tag} {reference : TypeRef} {type : CompiledType}
    (hresolve : schema.resolve reference = .ok type.handle) (hhas : schema.Has type)
    (hbase : type.HasBase) :
    Elaborates start schema (.tagged tag .implicit reference)
      (.tagged tag (if type.isUntaggedChoice then .explicit else .implicit) (.handle type.handle))
      (.tagged tag (if type.isUntaggedChoice then .explicit else .implicit) type)
  | collection {collection : CollectionDeclaration} {layout : Layout CompiledType}
    (hlayout : HasLayout start schema collection layout) :
    Elaborates start schema (.collection collection) (.collection collection) (.collection layout)

theorem persists_elaborates (start : Schema) (declared definition : Definition)
    (form : TypeForm CompiledType) : Persists (Elaborates start · declared definition form) := by
  intro before after h helaborates
  cases helaborates with
  | builtin builtin => exact .builtin builtin
  | «alias» hresolve hhas => exact .alias (h.resolve hresolve) (h.compiled hhas)
  | explicit hresolve hhas => exact .explicit (h.resolve hresolve) (h.compiled hhas)
  | implicit hresolve hhas hbase => exact .implicit (h.resolve hresolve) (h.compiled hhas) hbase
  | collection hlayout => exact .collection (persists_hasLayout _ _ _ _ _ h hlayout)

/-- What holds of the declaration with its references resolved, and of the form. -/
structure CompilesTo (schema : Schema) (declared definition : Definition)
    (form : TypeForm CompiledType) : Prop where
  describes : definition.Describes form
  types : ∀ inner ∈ form.types, schema.Has inner
  regular : ∀ layout, form = .collection layout → layout.IsRegular
  firstTags : ∀ layout, form = .collection layout → layout.HasFirstTags
  sound : form.IsSound
  offers : ∀ reference ∈ definition.references, schema.Offers reference
  references : ∀ reference ∈ declared.references, ∀ target, schema.resolve reference = .ok target →
    ∃ other ∈ definition.references, schema.resolve other = .ok target
  declared : ∀ layout, form = .collection layout →
    ∀ component ∈ layout.components, schema.OffersBase component.declared
  laidOut : ∀ layout, form = .collection layout → ∃ collection,
    definition = .collection collection ∧ schema.Arranges collection layout.components ∧
      (schema.TagsAutomatically collection → schema.LaysOut collection layout.components)

theorem CompilesTo.of_single {schema : Schema} {declared definition : Definition}
    {form : TypeForm CompiledType} {reference : TypeRef} {type : CompiledType}
    (hdescribes : definition.Describes form) (htypes : form.types = [type])
    (hcollection : ∀ layout, form ≠ .collection layout) (hsound : form.IsSound)
    (hdeclared : declared.references = [reference])
    (hdefinition : definition.references = [.handle type.handle]) (hhas : schema.Has type)
    (hresolve : schema.resolve reference = .ok type.handle) :
    CompilesTo schema declared definition form := by
  refine ⟨hdescribes, by simpa [htypes] using hhas,
    fun layout heq => absurd heq (hcollection layout),
    fun layout heq => absurd heq (hcollection layout), hsound,
    by simpa [hdefinition] using hhas.offers, ?_,
    fun layout heq => absurd heq (hcollection layout),
    fun layout heq => absurd heq (hcollection layout)⟩
  intro other hmem target htarget
  obtain rfl : other = reference := by simpa [hdeclared] using hmem
  obtain rfl := Except.ok.inj (hresolve.symm.trans htarget)
  exact ⟨_, by rw [hdefinition]; exact List.mem_singleton_self _, resolve_handle_of_has hhas⟩

theorem Elaborates.compilesTo {start schema : Schema} {declared definition : Definition}
    {form : TypeForm CompiledType} (h : Elaborates start schema declared definition form) :
    CompilesTo schema declared definition form := by
  cases h with
  | builtin builtin =>
      exact ⟨rfl, by simp [TypeForm.types], by simp, by simp, trivial,
        by simp [Definition.references], by simp [Definition.references], by simp, by simp⟩
  | «alias» hresolve hhas => exact .of_single rfl rfl (by simp) trivial rfl rfl hhas hresolve
  | explicit hresolve hhas =>
      exact .of_single ⟨rfl, rfl, rfl⟩ rfl (by simp) trivial rfl rfl hhas hresolve
  | @implicit tag _ type hresolve hhas _ =>
      exact .of_single ⟨rfl, rfl, rfl⟩ rfl (by simp) (isSound_tagged tag type) rfl rfl hhas hresolve
  | @collection collection layout hlayout =>
      have hlaid := hlayout.isLaidOut
      refine ⟨⟨hlaid.kind, hlaid.extensible⟩, ?_, ?_, ?_, hlaid.sound, hlaid.offers,
        fun other hmem _ htarget => ⟨other, hmem, htarget⟩, ?_, ?_⟩
      · intro inner hmem
        obtain ⟨component, hcomponent, rfl⟩ := List.mem_map.mp hmem
        exact hlaid.types component hcomponent
      · rintro _ ⟨⟩
        exact hlaid.regular
      · rintro _ ⟨⟩
        exact hlaid.firstTags
      · rintro _ ⟨⟩
        exact hlaid.declared
      · rintro _ ⟨⟩
        exact ⟨collection, rfl, hlaid.arranges, hlaid.laidOut⟩

theorem Elaborates.offers {start schema : Schema} {declared definition : Definition}
    {form : TypeForm CompiledType} (h : Elaborates start schema declared definition form) :
    ∀ reference ∈ declared.references, schema.Offers reference := by
  have hsingle {reference : TypeRef} {type : CompiledType}
      (hresolve : schema.resolve reference = .ok type.handle) (hhas : schema.Has type) :
      ∀ other ∈ [reference], schema.Offers other :=
    List.forall_mem_singleton.mpr ⟨_, type, hresolve, hhas⟩
  cases h with
  | builtin builtin => simp [Definition.references]
  | «alias» hresolve hhas => exact hsingle hresolve hhas
  | explicit hresolve hhas => exact hsingle hresolve hhas
  | implicit hresolve hhas _ => exact hsingle hresolve hhas
  | collection hlayout => exact hlayout.isLaidOut.offers

theorem keeps_compileDefinition (h : compileType.Compiles) (start : Schema)
    (definition : Definition) :
    Keeps start.Extends (compileDefinition compileType definition) fun compiled schema =>
      Elaborates start schema definition compiled.1 compiled.2 := by
  cases definition with
  | builtin builtin =>
      refine (Keeps.pure _).imp (fun _ => id) ?_
      rintro _ _ - ⟨rfl, -⟩
      exact .builtin builtin
  | «alias» reference =>
      refine (Keeps.ask _).bind fun target => ?_
      refine ((h.keeps_resolved reference target).imp (fun _ hbefore => hbefore.1)
        fun _ _ _ => id).bind fun type => ?_
      refine (Keeps.pure _).imp (fun _ => id) ?_
      rintro _ _ - ⟨rfl, hhas, rfl, hresolve⟩
      exact .alias hresolve hhas
  | tagged tag method reference =>
      refine (Keeps.ask _).bind fun inner => ?_
      refine ((h.keeps_resolved reference inner).imp (fun _ hbefore => hbefore.1)
        fun _ _ _ => id).bind fun type => ?_
      cases method with
      | explicit =>
          refine (Keeps.pure _).imp (fun _ => id) ?_
          rintro _ _ - ⟨rfl, hhas, rfl, hresolve⟩
          exact .explicit hresolve hhas
      | implicit =>
          rintro schema hconsistent ⟨hhas, rfl, hresolve⟩
          have hchoice : Keeps (fun schema =>
              schema.Has type ∧ schema.resolve reference = .ok type.handle) _ _ :=
            keeps_askUntaggedChoice type fun _ hbefore => hbefore.1
          have hreturn (isChoice : Bool) :
              let used : TagMethod := if isChoice then .explicit else .implicit
              Keeps (fun schema => isChoice = type.isUntaggedChoice ∧ type.HasBase ∧
                  schema.Has type ∧ schema.resolve reference = .ok type.handle)
                (pure (.tagged tag used (.handle type.handle), .tagged tag used type))
                fun compiled schema => Elaborates start schema (.tagged tag .implicit reference)
                  compiled.1 compiled.2 := by
            refine (Keeps.pure _).imp (fun _ => id) ?_
            rintro _ _ - ⟨rfl, rfl, hbase, hhas, hresolve⟩
            exact .implicit hresolve hhas hbase
          exact (hchoice.bind hreturn) schema hconsistent ⟨hhas, hresolve⟩
  | collection collection =>
      refine (keeps_compileCollection h start collection).bind fun layout => ?_
      refine (Keeps.pure _).imp (fun _ => id) ?_
      rintro _ schema - ⟨rfl, hlayout⟩
      exact .collection hlayout

theorem outcome_update (handle : Handle) (node : SchemaNode) (schema : Schema) :
    (update handle node).outcome schema = (.ok (), schema.withNode handle node) :=
  rfl

theorem extends_mark {schema : Schema} {handle : Handle} {node : SchemaNode}
    (hnode : schema.node? handle = some node) (hdeclared : node.status = .declared) :
    schema.Extends (schema.withNode handle { node with status := .validating }) := by
  refine extends_withNode hnode (by simp [hdeclared, TypeStatus.IsSettled]) rfl ?_
  intro other hmem _ htarget
  exact ⟨other, hmem, htarget⟩

theorem node?_marked {schema after : Schema} {handle : Handle} {node : SchemaNode}
    (hnode : schema.node? handle = some node)
    (hleads : (schema.withNode handle { node with status := .validating }).LeadsTo after) :
    after.node? handle = some { node with status := .validating } :=
  (hleads.validating rfl).mpr (node?_withNode_self hnode _)

theorem extends_fail {schema : Schema} {handle : Handle} {node : SchemaNode}
    (hnode : schema.node? handle = some { node with status := .validating }) :
    schema.Extends (schema.withNode handle { node with status := .failed }) := by
  refine extends_withNode hnode id rfl ?_
  intro other hmem _ htarget
  exact ⟨other, hmem, htarget⟩

theorem extends_complete {start schema : Schema} {handle : Handle} {node : SchemaNode}
    (hnode : schema.node? handle = some { node with status := .validating })
    {definition : Definition} {form : TypeForm CompiledType}
    (h : Elaborates start schema node.declaration.definition definition form) :
    schema.Extends (schema.withNode handle ⟨node.name?, ⟨definition, node.declaration.constraints⟩,
      .compiled ⟨⟨handle, node.name?, node.declaration.constraints⟩, form⟩⟩) :=
  extends_withNode hnode id rfl h.compilesTo.references

/-- A type is marked while it is being compiled. When it is settled, the mark is gone. -/
theorem leadsTo_settle {before after : Schema} {handle : Handle} {node settled : SchemaNode}
    (hnode : before.node? handle = some node) (hdeclared : node.status = .declared)
    (hmark : before.Extends (before.withNode handle { node with status := .validating }))
    (hleads : (before.withNode handle { node with status := .validating }).LeadsTo after)
    (hextends : after.Extends (after.withNode handle settled))
    (hsettled : settled.status ≠ .validating) : before.LeadsTo (after.withNode handle settled) := by
  refine ⟨(hmark.trans hleads.toExtends).trans hextends, ?_⟩
  intro other found hstatus
  rw [node?_withNode (node?_marked hnode hleads)]
  split
  · next heq =>
    subst heq
    constructor
    · intro hfound
      exact absurd (Option.some.inj hfound ▸ hstatus) hsettled
    · intro hfound
      obtain rfl : node = found := Option.some.inj (hnode.symm.trans hfound)
      simp [hdeclared] at hstatus
  · next hne => rw [hleads.validating hstatus, node?_withNode hnode, if_neg hne]

/-- The node of a type is changed twice: at the start, when it is marked, and at the very end,
whether compiling the type succeeds or fails. -/
theorem outcome_compileNode (handle : Handle) (node : SchemaNode) (schema : Schema) :
    (compileNode compileType handle node).outcome schema =
      match (compileDefinition compileType node.declaration.definition).outcome
        (schema.withNode handle { node with status := .validating }) with
      | (.ok (definition, form), after) =>
        let type : CompiledType := ⟨⟨handle, node.name?, node.declaration.constraints⟩, form⟩
        (.ok type, after.withNode handle
          ⟨node.name?, ⟨definition, node.declaration.constraints⟩, .compiled type⟩)
      | (.error error, after) =>
        (.error error, after.withNode handle { node with status := .failed }) := by
  rw [compileNode, outcome_bind, outcome_update]
  simp only [outcome_tryCatch, outcome_bind]
  rcases (compileDefinition compileType node.declaration.definition).outcome _
    with ⟨_ | ⟨definition, form⟩, after⟩ <;> rfl

theorem Schema.Consistent.mark {schema : Schema} (h : schema.Consistent) {handle : Handle}
    {node : SchemaNode} (hnode : schema.node? handle = some node)
    (hdeclared : node.status = .declared) :
    (schema.withNode handle { node with status := .validating }).Consistent :=
  h.withNode hnode (extends_mark hnode hdeclared).retains (by rintro type ⟨⟩)

/-- What compiling a declared type comes to. The type is marked and its declaration compiled, which
leaves the mark where it is; then the type is settled. -/
inductive CompilesNode (compileType : TypeCompiler) (start before : Schema) (handle : Handle)
    (node : SchemaNode) : Except SchemaError CompiledType × Schema → Prop
  | fail {error : SchemaError} {after : Schema}
    (houtcome : (compileDefinition compileType node.declaration.definition).outcome
      (before.withNode handle { node with status := .validating }) = (.error error, after))
    (hleads : (before.withNode handle { node with status := .validating }).LeadsTo after)
    (hafter : after.Consistent)
    (hsame : after.node? handle = some { node with status := .validating }) :
    CompilesNode compileType start before handle node
      (.error error, after.withNode handle { node with status := .failed })
  | complete {definition : Definition} {form : TypeForm CompiledType} {after : Schema}
    (houtcome : (compileDefinition compileType node.declaration.definition).outcome
      (before.withNode handle { node with status := .validating }) =
        (.ok (definition, form), after))
    (hleads : (before.withNode handle { node with status := .validating }).LeadsTo after)
    (hafter : after.Consistent)
    (hsame : after.node? handle = some { node with status := .validating })
    (helaborates : Elaborates start after node.declaration.definition definition form) :
    CompilesNode compileType start before handle node
      (.ok ⟨⟨handle, node.name?, node.declaration.constraints⟩, form⟩,
        after.withNode handle ⟨node.name?, ⟨definition, node.declaration.constraints⟩,
          .compiled ⟨⟨handle, node.name?, node.declaration.constraints⟩, form⟩⟩)

theorem compilesNode (h : compileType.Compiles) {start before : Schema} {handle : Handle}
    {node : SchemaNode} (hstart : start.Extends before) (hconsistent : before.Consistent)
    (hnode : before.node? handle = some node) (hdeclared : node.status = .declared) :
    CompilesNode compileType start before handle node
      ((compileNode compileType handle node).outcome before) := by
  obtain ⟨hleads, hafter, hresult⟩ :=
    keeps_compileDefinition h start node.declaration.definition _ (hconsistent.mark hnode hdeclared)
      (hstart.trans (extends_mark hnode hdeclared))
  have hsame := node?_marked hnode hleads
  rw [outcome_compileNode]
  rcases houtcome : (compileDefinition compileType node.declaration.definition).outcome
    (before.withNode handle { node with status := .validating })
    with ⟨error | ⟨definition, form⟩, after⟩
  · rw [houtcome] at hleads hafter hsame
    exact .fail houtcome hleads hafter hsame
  · rw [houtcome] at hleads hafter hsame hresult
    exact .complete houtcome hleads hafter hsame (hresult _ rfl)

theorem keeps_compileNode {handle : Handle} {node : SchemaNode} (h : compileType.Compiles) :
    Keeps (fun schema => schema.node? handle = some node ∧ node.status = .declared)
      (compileNode compileType handle node) fun type schema =>
        schema.Has type ∧ type.handle = handle := by
  rintro before hconsistent ⟨hnode, hdeclared⟩
  have hmark := extends_mark hnode hdeclared
  have hcompiles := compilesNode h (.refl before) hconsistent hnode hdeclared
  generalize (compileNode compileType handle node).outcome before = result at hcompiles ⊢
  cases hcompiles with
  | fail houtcome hleads hafter hsame =>
    have hextends := extends_fail hsame
    refine ⟨leadsTo_settle hnode hdeclared hmark hleads hextends (by simp),
      hafter.withNode hsame hextends.retains ?_, ?_⟩
    · rintro type ⟨⟩
    · rintro type ⟨⟩
  | @complete _ _ after houtcome hleads hafter hsame helaborates =>
    have hextends := extends_complete hsame helaborates
    obtain ⟨hdescribes, htypes, hregular, htags, hsound, hoffers, -, hshown, hlaid⟩ :=
      helaborates.compilesTo
    have hfinal {settled : SchemaNode} := node?_withNode_self hsame settled
    refine ⟨leadsTo_settle hnode hdeclared hmark hleads hextends (by simp),
      hafter.withNode hsame hextends.retains ?_, ?_⟩
    · rintro type ⟨⟩
      refine ⟨⟨_, hfinal, rfl, hdescribes⟩,
        fun inner hmem => hextends.compiled (htypes inner hmem), hregular, htags, hsound, ?_,
        fun layout hform component hmem =>
          hextends.retains.offersBase (hshown layout hform component hmem),
        ?_⟩
      · exact hafter.grounded_of_offers hextends (compiled_eq_ok_iff.mpr ⟨_, hfinal, rfl⟩)
          (definition?_eq_some_iff.mpr ⟨_, hfinal, rfl⟩) hoffers
      · intro layout hform
        obtain ⟨collection, rfl, harranges, hlays⟩ := hlaid layout hform
        exact ⟨collection, definition?_eq_some_iff.mpr ⟨_, hfinal, rfl⟩,
          hextends.retains.arranges harranges, hextends.retains.laysOut hlays⟩
    · rintro type ⟨⟩
      exact ⟨compiled_eq_ok_iff.mpr ⟨_, hfinal, rfl⟩, rfl⟩

/-- Compiling a type gives the compiled form that is recorded for it. -/
theorem compiles_compileWithin (steps : Nat) : TypeCompiler.Compiles (compileWithin steps) := by
  induction steps with
  | zero =>
      intro handle
      exact Keeps.get.bind fun schema => Keeps.throw _
  | succ steps ih =>
      intro handle
      refine Keeps.get.bind fun schema => ?_
      cases hnode : schema.node? handle with
      | none => exact Keeps.throw _
      | some node =>
          simp only
          cases hstatus : node.status with
          | failed => exact Keeps.throw _
          | validating => exact Keeps.throw _
          | compiled type =>
              refine (Keeps.pure type).imp (fun _ => id) ?_
              rintro _ after hconsistent ⟨rfl, rfl, -⟩
              have hcompiled := compiled_eq_ok_iff.mpr ⟨node, hnode, hstatus⟩
              exact ⟨hconsistent.compiled_handle hcompiled, (hconsistent _ _ hcompiled).handle_eq⟩
          | declared =>
              refine (keeps_compileNode ih).imp ?_ fun _ _ _ => id
              rintro _ ⟨rfl, -⟩
              exact ⟨hnode, hstatus⟩

theorem keeps_compile (handle : Handle) :
    Keeps (fun _ => True) (Schema.compile handle) fun _ _ => True := by
  refine Keeps.get.bind fun schema => ?_
  exact (((compiles_compileWithin _ handle).imp (fun _ _ => trivial)
    fun _ _ _ => id).discard).imp (fun _ => id) fun _ _ _ _ => trivial

theorem keeps_compileAll : Keeps (fun _ => True) Schema.compileAll fun _ _ => True := by
  refine Keeps.get.bind fun schema => ?_
  exact (Keeps.forM fun index _ => keeps_compile ⟨index⟩).imp (fun _ _ => trivial) fun _ _ _ => id

end Types

namespace Schema

/-- The schemas that can be built: types and values are added to the empty schema, and types are
compiled, whether that succeeds or not. -/
inductive Reachable : Schema → Prop
  | empty : Reachable .empty
  | add {schema : Schema} (h : Reachable schema) (declaration : Declaration) :
    Reachable (schema.add declaration).2
  | define {schema next : Schema} {name : String} {declaration : Declaration} {handle : Handle}
    (h : Reachable schema) (hdefine : schema.define name declaration = .ok (handle, next)) :
    Reachable next
  | defineValue {schema next : Schema} {name : String} {value : Value} (h : Reachable schema)
    (hdefine : schema.defineValue name value = .ok next) : Reachable next
  | copy {schema : Schema} (h : Reachable schema) {handle : Handle} {node : SchemaNode}
    (hnode : schema.node? handle = some node) : Reachable (schema.copy node).2
  | compile {schema : Schema} (h : Reachable schema) (handle : Handle) :
    Reachable ((Schema.compile handle).outcome schema).2
  | compileAll {schema : Schema} (h : Reachable schema) :
    Reachable (Schema.compileAll.outcome schema).2

theorem Consistent.push_declared {schema : Schema} (h : schema.Consistent) (name? : Option String)
    (declaration : Declaration) : (schema.push ⟨name?, declaration, .declared⟩).2.Consistent := by
  refine h.push ?_
  rintro type ⟨⟩

theorem Reachable.consistent {schema : Schema} (h : schema.Reachable) : schema.Consistent := by
  induction h with
  | empty =>
      intro handle type hcompiled
      obtain ⟨node, hnode, -⟩ := compiled_eq_ok_iff.mp hcompiled
      simp [Schema.empty, node?] at hnode
  | add _ declaration ih => exact ih.push_declared none declaration
  | define _ hdefine ih =>
      rw [Schema.define] at hdefine
      split at hdefine
      · contradiction
      · obtain ⟨rfl, rfl⟩ := Prod.mk.inj (Except.ok.inj hdefine)
        exact ih.push_declared _ _
  | defineValue _ hdefine ih =>
      have hextends := extends_defineValue hdefine
      rw [Schema.defineValue] at hdefine
      split at hdefine
      · contradiction
      · obtain rfl := Except.ok.inj hdefine
        intro handle type hcompiled
        exact (ih handle type hcompiled).mono hextends.retains rfl
  | copy _ _ ih => exact ih.push_declared none _
  | compile _ handle ih => exact (keeps_compile handle _ ih trivial).2.1
  | compileAll _ ih => exact (keeps_compileAll _ ih trivial).2.1

/-- An INTEGER, a BOOLEAN, and a compiled SEQUENCE with extension additions. -/
def extendedSequence (root additions trailing : List ComponentDeclaration) : Schema :=
  let collection : CollectionDeclaration := ⟨.sequence, false, false, [.components root],
    additions.map fun addition => .single (.components [addition]), trailing⟩
  let schema := ((empty.add ⟨.builtin .integer, []⟩).2.add ⟨.builtin .boolean, []⟩).2
  ((Schema.compile ⟨2⟩).outcome (schema.add ⟨.collection collection, []⟩).2).2

theorem reachable_extendedSequence (root additions trailing : List ComponentDeclaration) :
    (extendedSequence root additions trailing).Reachable :=
  .compile (.add (.add (.add .empty _) _) _) _

/-- A BOOLEAN with a default, and an INTEGER that is an optional extension addition. -/
def defaultedSequence : Schema :=
  extendedSequence [⟨"b", .handle ⟨1⟩, false, some (.boolean false)⟩]
    [⟨"x", .handle ⟨0⟩, true, none⟩] []

def defaultedLayout : Layout CompiledType :=
  ⟨.sequence, true,
    [⟨"b", 0, 1, false, some (.boolean false), .handle ⟨1⟩,
        ⟨⟨⟨1⟩, none, []⟩, .builtin .boolean⟩, false, [.boolean]⟩,
      ⟨"x", 1, 2, true, none, .handle ⟨0⟩,
        ⟨⟨⟨0⟩, none, []⟩, .builtin .integer⟩, false, [.integer]⟩]⟩

theorem compiled_defaultedSequence : defaultedSequence.compiled ⟨2⟩ =
    .ok ⟨⟨⟨2⟩, none, []⟩, .collection defaultedLayout⟩ :=
  rfl

theorem forall_reaches_defaultedLayout {property : CompiledType → Prop}
    (hsequence : property ⟨⟨⟨2⟩, none, []⟩, .collection defaultedLayout⟩)
    (hboolean : property ⟨⟨⟨1⟩, none, []⟩, .builtin .boolean⟩)
    (hinteger : property ⟨⟨⟨0⟩, none, []⟩, .builtin .integer⟩) :
    ∀ type, CompiledType.Reaches ⟨⟨⟨2⟩, none, []⟩, .collection defaultedLayout⟩ type →
      property type := by
  rw [CompiledType.forall_reaches_mk_iff]
  refine ⟨hsequence, ?_⟩
  simp [CompiledType.forall_reaches_mk_iff, TypeForm.types, defaultedLayout, hboolean, hinteger]

theorem hasRangesOnly_defaultedLayout :
    CompiledType.HasRangesOnly ⟨⟨⟨2⟩, none, []⟩, .collection defaultedLayout⟩ := by
  exact forall_reaches_defaultedLayout (by simp [CompiledType.info]) (by simp [CompiledType.info])
    (by simp [CompiledType.info])

end Schema

end Asn1

import Asn1.Proofs.SettledTypes
import Asn1.Proofs.SettlingCalls

/-!
The changes that compiling types is made up of. Each of them concerns a single type: one is marked,
it is recorded what has become of one, or an automatic tag is added. So what none of these changes
can destroy holds of all schemas that can be built, and every compiled type is what its declaration
comes to when it is compiled once more.
-/

namespace Asn1

open Results Schema Compile

/-- The type that automatic tagging adds with the handle. -/
def CompiledType.contextTag (handle : Handle) (number : Nat) (inner : CompiledType) :
    CompiledType :=
  ⟨⟨handle, none, []⟩, .tagged (.context (UInt32.ofNat number))
    (if inner.isUntaggedChoice then .explicit else .implicit) inner⟩

/-- What is recorded about a type that automatic tagging adds. -/
def SchemaNode.contextTag (handle : Handle) (number : Nat) (inner : CompiledType) : SchemaNode :=
  ⟨none, ⟨.tagged (.context (UInt32.ofNat number))
    (if inner.isUntaggedChoice then .explicit else .implicit) (.handle inner.handle), []⟩,
    .compiled (.contextTag handle number inner)⟩

namespace Schema

/-- A change that compiling types makes to a schema. -/
inductive Alters (before : Schema) : Schema → Prop
  | mark {handle : Handle} {node : SchemaNode} (hnode : before.node? handle = some node)
    (hdeclared : node.status = .declared) :
    Alters before (before.withNode handle { node with status := .validating })
  | fail {handle : Handle} {node : SchemaNode}
    (hnode : before.node? handle = some { node with status := .validating }) :
    Alters before (before.withNode handle { node with status := .failed })
  | complete {handle : Handle} {node : SchemaNode} {start : Schema} {definition : Definition}
    {form : TypeForm CompiledType}
    (hnode : before.node? handle = some { node with status := .validating })
    (helaborates : Elaborates start before node.declaration.definition definition form) :
    Alters before (before.withNode handle
      ⟨node.name?, ⟨definition, node.declaration.constraints⟩,
        .compiled ⟨⟨handle, node.name?, node.declaration.constraints⟩, form⟩⟩)
  | addTag (number : Nat) {inner : CompiledType} (hhas : before.Has inner)
    (hbase : inner.HasBase) :
    Alters before (before.push (.contextTag ⟨before.nodes.size⟩ number inner)).2

end Schema

/-- Whether all that a step does to a schema with a property is made up of such changes. -/
def Compile.AltersOnly {α : Type} (pre : Schema → Prop) (step : Compile α) : Prop :=
  ∀ before, before.Consistent → pre before →
    Relation.ReflTransGen Alters before (step.outcome before).2

namespace Compile.AltersOnly

variable {α β : Type} {pre pre' : Schema → Prop} {step : Compile α} {post : α → Schema → Prop}
  {next : α → Compile β}

theorem of_same (h : ∀ schema, (step.outcome schema).2 = schema) : AltersOnly pre step := by
  intro before _ _
  rw [h]

theorem pure (a : α) : AltersOnly pre (pure a) := by
  apply of_same
  intro _
  rfl

theorem throw (error : SchemaError) : AltersOnly pre (throw error : Compile α) := by
  apply of_same
  intro _
  rfl

theorem get : AltersOnly pre get := by
  apply of_same
  intro _
  rfl

theorem ask (question : Schema → Except SchemaError α) : AltersOnly pre (ask question) := by
  apply of_same
  intro schema
  rw [outcome_ask]

theorem refuse (fault? : Option SchemaError) : AltersOnly pre (refuse fault?) := by
  cases fault? with
  | none => exact pure ()
  | some error => exact throw error

theorem imp (h : AltersOnly pre step) (hpre : ∀ schema, pre' schema → pre schema) :
    AltersOnly pre' step := by
  intro before hconsistent hbefore
  exact h before hconsistent (hpre before hbefore)

theorem anywhere (h : AltersOnly (fun _ => True) step) : AltersOnly pre step := by
  apply h.imp
  intro _ _
  exact trivial

theorem bind (hkeeps : Keeps pre step post) (h : AltersOnly pre step)
    (hnext : ∀ a, AltersOnly (post a) (next a)) : AltersOnly pre (step >>= next) := by
  intro before hconsistent hpre
  obtain ⟨-, hafter, hresult⟩ := hkeeps before hconsistent hpre
  have hfirst := h before hconsistent hpre
  rw [outcome_bind]
  rcases hstep : step.outcome before with ⟨error | a, after⟩
  · rwa [hstep] at hfirst
  · rw [hstep] at hfirst hafter hresult
    exact hfirst.trans (hnext a after hafter (hresult a rfl))

theorem discard (h : AltersOnly pre step) : AltersOnly pre (discard step) := by
  intro before hconsistent hpre
  have hfirst := h before hconsistent hpre
  rw [discard_eq_bind, outcome_bind]
  rcases hstep : step.outcome before with ⟨error | a, after⟩
  · rwa [hstep] at hfirst
  · rwa [hstep] at hfirst

theorem mapM {f : α → Compile β} {relation : α → β → Prop} {as : List α} (hpre : Persists pre)
    (hkeeps : ∀ a ∈ as, Keeps pre (f a) fun b _ => relation a b)
    (h : ∀ a ∈ as, AltersOnly pre (f a)) : AltersOnly pre (as.mapM f) := by
  induction as with
  | nil => exact pure []
  | cons a rest ih =>
      obtain ⟨hkeep, hkeeps⟩ := List.forall_mem_cons.mp hkeeps
      obtain ⟨hfirst, hrest⟩ := List.forall_mem_cons.mp h
      rw [List.mapM_cons]
      have hframed := (hkeep.frame hpre).imp (fun _ hbefore => ⟨hbefore, hbefore⟩) fun _ _ _ => id
      refine bind hframed hfirst fun b => ?_
      exact bind ((Keeps.mapM hpre hkeeps).imp (fun _ hbefore => hbefore.2) fun _ _ _ => id)
        ((ih hkeeps hrest).imp fun _ hbefore => hbefore.2) fun _ => pure _

end Compile.AltersOnly

section Compiling

variable {compileType : TypeCompiler}

theorem Schema.extends_empty (schema : Schema) : empty.Extends schema := by
  have hnode (handle : Handle) : empty.node? handle = none := by simp [empty, node?]
  refine ⟨?_, ?_, ?_, ?_⟩
  · intro handle node hfound
    cases (hnode handle).symm.trans hfound
  · intro reference target hresolve
    cases reference with
    | handle handle => simp [resolve_handle_eq_ok_iff, hnode] at hresolve
    | name name => simp [resolve_name_eq_ok_iff, lookup, empty] at hresolve
  · rintro outer inner ⟨definition, hdefinition, -⟩
    simp [definition?, hnode] at hdefinition
  · rintro name value ⟨⟩

theorem outcome_addContextTag {schema : Schema} (h : schema.Consistent) (number : Nat)
    {inner : CompiledType} (hhas : schema.Has inner) (hbase : inner.HasBase) :
    (addContextTag number inner).outcome schema =
      (.ok (.contextTag ⟨schema.nodes.size⟩ number inner),
        (schema.push (.contextTag ⟨schema.nodes.size⟩ number inner)).2) := by
  rw [addContextTag, outcome_bind, outcome_ask, h.isUntaggedChoice_eq_ok hhas hbase]
  rfl

theorem alters_addContextTag (number : Nat) (inner : CompiledType) :
    AltersOnly (·.Has inner) (addContextTag number inner) := by
  intro before hconsistent hhas
  cases hchoice : before.isUntaggedChoice inner.handle with
  | error error =>
      rw [addContextTag, outcome_bind, outcome_ask, hchoice]
  | ok isChoice =>
      obtain ⟨hbase, -⟩ := (hconsistent.isUntaggedChoice_eq_ok_iff hhas).mp hchoice
      rw [outcome_addContextTag hconsistent number hhas hbase]
      exact .single (.addTag number hhas hbase)

theorem alters_addContextTags (number : Nat) (components : List (Component CompiledType)) :
    AltersOnly (fun schema => ∀ component ∈ components, schema.Has component.type)
      (addContextTags number components) := by
  induction components generalizing number with
  | nil => exact .pure []
  | cons component rest ih =>
      have hkeeps : Keeps (fun schema => ∀ other ∈ component :: rest, schema.Has other.type) _ _ :=
        ((keeps_addContextTag .empty number component.type).frame
          (persists_forall_has rest)).imp (fun schema hbefore =>
            ⟨⟨(List.forall_mem_cons.mp hbefore).1, extends_empty schema⟩,
              (List.forall_mem_cons.mp hbefore).2⟩) fun _ _ _ => id
      refine .bind hkeeps ((alters_addContextTag number component.type).imp fun _ hbefore =>
        (List.forall_mem_cons.mp hbefore).1) fun type => ?_
      refine .bind ((keeps_addContextTags .empty (number + 1) rest).imp
        (fun schema hbefore => ⟨hbefore.2, extends_empty schema⟩) fun _ _ _ => id)
          ((ih (number + 1)).imp fun _ hbefore => hbefore.2) fun _ => .pure _

theorem alters_tagAutomatically (components : List (Component CompiledType)) :
    AltersOnly (fun schema => ∀ component ∈ components, schema.Has component.type)
      (tagAutomatically components) := by
  have hmem (component : Component CompiledType) :
      component ∈ tagOrder components ↔ component ∈ components :=
    (perm_tagOrder components).mem_iff
  have horder (schema : Schema) (hbefore : ∀ component ∈ components, schema.Has component.type) :
      ∀ component ∈ tagOrder components, schema.Has component.type := by
    simpa only [hmem] using hbefore
  exact .bind ((keeps_addContextTags .empty 0 (tagOrder components)).imp
    (fun schema hbefore => ⟨horder schema hbefore, extends_empty schema⟩) fun _ _ _ => id)
      ((alters_addContextTags 0 (tagOrder components)).imp horder) fun _ => .pure _

theorem alters_completeLayout (collection : CollectionDeclaration)
    (components : List (Component CompiledType)) :
    AltersOnly (fun schema => ∀ component ∈ components, schema.Has component.type)
      (completeLayout collection components) := by
  have htags : AltersOnly (fun schema => ∀ component ∈ components, schema.Has component.type)
      (components.mapM findTags) :=
    .mapM (persists_forall_has components) (fun component hmem =>
      (keeps_findTags component).imp (fun _ hall => hall component hmem) fun _ _ _ => id)
        fun component _ => .bind (Keeps.ask _) (.ask _) fun _ => .pure _
  exact .bind (keeps_findAllTags components) htags fun _ =>
    .bind (Keeps.refuse _) (.refuse _) fun _ => .pure _

theorem alters_compileDefault? {pre : Schema → Prop} (type : CompiledType) (name : String)
    (value? : Option Value) : AltersOnly pre (value?.mapM (compileDefault type name)) := by
  have hdefault (value : Value) : AltersOnly pre (compileDefault type name value) := by
    refine .bind Keeps.get .get fun schema => ?_
    cases type.canonicalize schema.values (.top schema.view) value with
    | ok form => exact .pure _
    | error error => exact .throw _
  cases value? with
  | none => exact .pure none
  | some value =>
      exact .bind (keeps_compileDefault type name value) (hdefault value) fun _ => .pure _

section Calls

variable (h : compileType.Compiles)
  (hcall : ∀ target, AltersOnly (fun _ => True) (compileType target))

include h hcall

theorem alters_rootComponentsOf (kind : CollectionKind) (version : Nat) (reference : TypeRef) :
    AltersOnly (fun _ => True) (rootComponentsOf compileType kind version reference) := by
  refine .bind (Keeps.ask _) (.ask _) fun included => ?_
  refine .bind (h included).discard.anywhere (hcall included).discard.anywhere fun _ => ?_
  refine .bind (Keeps.ask _) (.ask _) fun base => .bind Keeps.get .get fun schema => ?_
  cases schema.layout? base with
  | none => exact .throw _
  | some layout =>
      simp only
      split
      · exact .pure _
      · exact .throw _

theorem alters_flatten (kind : CollectionKind) (items : List (Nat × ComponentItem)) :
    AltersOnly (fun _ => True) (flatten compileType kind items) := by
  induction items with
  | nil => exact .pure []
  | cons item rest ih =>
      obtain ⟨version, written | reference⟩ := item
      · exact .bind (keeps_flatten h kind rest) ih fun _ => .pure _
      · refine .bind (keeps_rootComponentsOf h kind version reference)
          (alters_rootComponentsOf h hcall kind version reference) fun part => ?_
        exact .bind (keeps_flatten h kind rest).anywhere ih.anywhere fun _ => .pure _

theorem alters_compileComponent (index : Nat) (component : FlatComponent) :
    AltersOnly (fun _ => True) (compileComponent compileType index component) := by
  refine .bind (Keeps.ask _) (.ask _) fun target => ?_
  refine .bind (h target).anywhere (hcall target).anywhere fun type => ?_
  exact .bind (keeps_compileDefault? type component.name component.default?)
    (alters_compileDefault? type component.name component.default?) fun _ => .pure _

theorem alters_compileComponents (index : Nat) (flat : List FlatComponent) :
    AltersOnly (fun _ => True) (compileComponents compileType index flat) := by
  induction flat generalizing index with
  | nil => exact .pure []
  | cons component rest ih =>
      refine .bind (keeps_compileComponent h index component)
        (alters_compileComponent h hcall index component) fun first => ?_
      exact .bind (keeps_compileComponents h (index + 1) rest).anywhere (ih (index + 1)).anywhere
        fun _ => .pure _

theorem alters_declaredComponents (collection : CollectionDeclaration) :
    AltersOnly (fun _ => True) (declaredComponents compileType collection) := by
  refine .bind (Keeps.refuse _) (.refuse _) fun _ => ?_
  refine .bind (keeps_flatten h collection.kind collection.items).anywhere
    (alters_flatten h hcall collection.kind collection.items).anywhere fun flat => ?_
  refine .bind (Keeps.refuse _) (.refuse _) fun _ => ?_
  exact .bind (keeps_compileComponents h 0 flat).anywhere
    (alters_compileComponents h hcall 0 flat).anywhere fun _ => .pure _

theorem alters_compileCollection (start : Schema) (collection : CollectionDeclaration) :
    AltersOnly start.Extends (compileCollection compileType collection) := by
  rw [compileCollection_eq]
  refine .bind (keeps_declaredComponents h start collection)
    (alters_declaredComponents h hcall collection).anywhere fun (flat, components) => ?_
  simp only
  split
  · next hadds =>
    intro before hconsistent hbefore
    obtain ⟨hversions, hnames, hcompiled⟩ := hbefore
    exact AltersOnly.bind (keeps_tagCompiled start hversions hnames hadds)
      ((alters_tagAutomatically components).imp fun _ hcompiled => hcompiled.types) (fun tagged =>
        (alters_completeLayout collection tagged).imp fun _ hassembly => hassembly.types)
          before hconsistent hcompiled
  · exact .bind (Keeps.pure components) (.pure components) fun found =>
      (alters_completeLayout collection found).imp fun _ ⟨heq, _, _, hcompiled⟩ =>
        heq ▸ hcompiled.types

theorem alters_compileDefinition (start : Schema) (definition : Definition) :
    AltersOnly start.Extends (compileDefinition compileType definition) := by
  cases definition with
  | builtin builtin => exact .pure _
  | «alias» reference =>
      refine .bind (Keeps.ask _) (.ask _) fun target => ?_
      exact .bind (h target).anywhere (hcall target).anywhere fun _ => .pure _
  | tagged tag method reference =>
      refine .bind (Keeps.ask _) (.ask _) fun inner => ?_
      refine .bind (h inner).anywhere (hcall inner).anywhere fun type => ?_
      cases method with
      | explicit => exact .pure _
      | implicit => exact .bind (Keeps.ask _) (.ask _) fun _ => .pure _
  | collection collection =>
      exact .bind (keeps_compileCollection h start collection)
        (alters_compileCollection h hcall start collection) fun _ => .pure _

/-- The type is marked first and settled last. -/
theorem alters_compileNode {handle : Handle} {node : SchemaNode} :
    AltersOnly (fun schema => schema.node? handle = some node ∧ node.status = .declared)
      (compileNode compileType handle node) := by
  rintro before hconsistent ⟨hnode, hdeclared⟩
  have halters := alters_compileDefinition h hcall before node.declaration.definition _
    (hconsistent.mark hnode hdeclared) (extends_mark hnode hdeclared)
  have hcompiles := compilesNode h (.refl before) hconsistent hnode hdeclared
  generalize (compileNode compileType handle node).outcome before = result at hcompiles ⊢
  cases hcompiles with
  | fail houtcome hleads hafter hsame =>
      rw [houtcome] at halters
      exact .head (.mark hnode hdeclared) (halters.tail (.fail hsame))
  | complete houtcome hleads hafter hsame helaborates =>
      rw [houtcome] at halters
      exact .head (.mark hnode hdeclared) (halters.tail (.complete hsame helaborates))

end Calls

theorem alters_compileWithin (steps : Nat) (handle : Handle) :
    AltersOnly (fun _ => True) (compileWithin steps handle) := by
  induction steps generalizing handle with
  | zero => exact .bind Keeps.get .get fun _ => .throw _
  | succ steps ih =>
      intro before hconsistent _
      rw [outcome_compileWithin_succ]
      cases hnode : before.node? handle with
      | none => exact .refl
      | some node =>
          simp only
          cases hstatus : node.status with
          | compiled type => exact .refl
          | failed => exact .refl
          | validating => exact .refl
          | declared =>
              exact alters_compileNode (compiles_compileWithin steps) ih before hconsistent
                ⟨hnode, hstatus⟩

/-- All that compiling a type does to a schema is made up of changes to single types. -/
theorem alters_compile (handle : Handle) :
    AltersOnly (fun _ => True) (Schema.compile handle) := by
  refine .bind Keeps.get .get fun schema => ?_
  exact (alters_compileWithin _ handle).discard.anywhere

theorem alters_compileAll : AltersOnly (fun _ => True) Schema.compileAll := by
  have heach (indexes : List Nat) :
      AltersOnly (fun _ => True) (indexes.forM fun index => Schema.compile ⟨index⟩) := by
    induction indexes with
    | nil => exact .pure ()
    | cons index rest ih =>
        exact .bind (keeps_compile ⟨index⟩) (alters_compile ⟨index⟩) fun _ => ih
  refine .bind Keeps.get .get fun schema => ?_
  exact (heach _).anywhere

end Compiling

/-- A declaration with its references resolved, and with the methods of its tags settled, stands for
the same as it did before. -/
theorem Elaborates.again {start schema : Schema} {declared definition : Definition}
    {form : TypeForm CompiledType} (h : Elaborates start schema declared definition form) :
    Elaborates start schema definition definition form := by
  have htagged {tag : Tag} {type : CompiledType} (hhas : schema.Has type) (hbase : type.HasBase)
      (method : TagMethod)
      (hmethod : method = if type.isUntaggedChoice then .explicit else .implicit) :
      Elaborates start schema (.tagged tag method (.handle type.handle))
        (.tagged tag method (.handle type.handle)) (.tagged tag method type) := by
    cases method with
    | explicit => exact .explicit (resolve_handle_of_has hhas) hhas
    | implicit =>
        have himplicit :
            Elaborates start schema (.tagged tag .implicit (.handle type.handle)) _ _ :=
          .implicit (resolve_handle_of_has hhas) hhas hbase
        rwa [← hmethod] at himplicit
  cases h with
  | builtin builtin => exact .builtin builtin
  | «alias» _ hhas => exact .alias (resolve_handle_of_has hhas) hhas
  | explicit _ hhas => exact .explicit (resolve_handle_of_has hhas) hhas
  | implicit _ hhas hbase => exact htagged hhas hbase _ rfl
  | collection hlayout => exact .collection hlayout

namespace Schema

/-- Whether a type is what its declaration comes to if it is compiled once more. -/
def IsElaborated (schema : Schema) (handle : Handle) (type : CompiledType) : Prop :=
  ∃ start definition, schema.definition? handle = some definition ∧
    Elaborates start schema definition definition type.form

/-- Whether this holds of all compiled types. -/
def IsFaithful (schema : Schema) : Prop :=
  ∀ handle type, schema.compiled handle = .ok type → schema.IsElaborated handle type

variable {schema before after : Schema} {handle : Handle} {type : CompiledType} {node : SchemaNode}

theorem IsElaborated.mono (h : before.IsElaborated handle type)
    (hcompiled : before.compiled handle = .ok type) (hextends : before.Extends after) :
    after.IsElaborated handle type := by
  obtain ⟨start, definition, hdefinition, helaborates⟩ := h
  exact ⟨start, definition, (hextends.definition?_eq hcompiled).trans hdefinition,
    persists_elaborates _ _ _ _ _ _ hextends helaborates⟩

theorem IsFaithful.withNode {old : SchemaNode} (h : before.IsFaithful)
    (hnode : before.node? handle = some old)
    (hextends : before.Extends (before.withNode handle node))
    (hsettled : ∀ type, node.status = .compiled type →
      (before.withNode handle node).IsElaborated handle type) :
    (before.withNode handle node).IsFaithful := by
  intro other type hcompiled
  obtain ⟨found, hfound, hstatus⟩ := compiled_eq_ok_iff.mp hcompiled
  rw [node?_withNode hnode] at hfound
  split at hfound
  · next heq =>
    obtain rfl := Option.some.inj hfound
    exact heq ▸ hsettled type hstatus
  · have hbefore := compiled_eq_ok_iff.mpr ⟨found, hfound, hstatus⟩
    exact (h other type hbefore).mono hbefore hextends

theorem IsFaithful.push (h : before.IsFaithful)
    (hnode : ∀ type, node.status = .compiled type →
      (before.push node).2.IsElaborated ⟨before.nodes.size⟩ type) :
    (before.push node).2.IsFaithful := by
  intro other type hcompiled
  obtain ⟨found, hfound, hstatus⟩ := compiled_eq_ok_iff.mp hcompiled
  rw [node?_push] at hfound
  split at hfound
  · next hindex =>
    obtain rfl := Option.some.inj hfound
    have hother : other = ⟨before.nodes.size⟩ := congrArg Handle.mk hindex
    exact hother ▸ hnode type hstatus
  · have hbefore := compiled_eq_ok_iff.mpr ⟨found, hfound, hstatus⟩
    exact (h other type hbefore).mono hbefore (extends_push before node)

theorem IsFaithful.alters (h : before.IsFaithful) (halters : before.Alters after) :
    after.IsFaithful := by
  cases halters with
  | mark hnode hdeclared =>
      exact h.withNode hnode (extends_mark hnode hdeclared) (by rintro type ⟨⟩)
  | fail hnode => exact h.withNode hnode (extends_fail hnode) (by rintro type ⟨⟩)
  | @complete handle node start definition form hnode helaborates =>
      have hextends := extends_complete hnode helaborates
      refine h.withNode hnode hextends ?_
      rintro type ⟨⟩
      exact ⟨start, definition,
        definition?_eq_some_iff.mpr ⟨_, node?_withNode_self hnode _, rfl⟩,
        (persists_elaborates _ _ _ _ _ _ hextends helaborates).again⟩
  | @addTag number inner hhas hbase =>
      refine h.push ?_
      rintro type ⟨⟩
      have hextends := extends_push before (.contextTag ⟨before.nodes.size⟩ number inner)
      exact ⟨before, _, definition?_eq_some_iff.mpr ⟨_, (node?_push ..).trans (if_pos rfl), rfl⟩,
        (Elaborates.implicit (hextends.resolve (resolve_handle_of_has hhas))
          (hextends.compiled hhas) hbase).again⟩

theorem IsFaithful.alters_many (h : before.IsFaithful)
    (halters : Relation.ReflTransGen Alters before after) : after.IsFaithful := by
  induction halters with
  | refl => exact h
  | tail _ hlast ih => exact ih.alters hlast

theorem IsFaithful.push_declared (h : schema.IsFaithful) (name? : Option String)
    (declaration : Declaration) : (schema.push ⟨name?, declaration, .declared⟩).2.IsFaithful :=
  h.push (by rintro type ⟨⟩)

theorem Reachable.isFaithful (h : schema.Reachable) : schema.IsFaithful := by
  induction h with
  | empty =>
      intro handle type hcompiled
      obtain ⟨node, hnode, -⟩ := compiled_eq_ok_iff.mp hcompiled
      simp [Schema.empty, node?] at hnode
  | add _ declaration ih => exact ih.push_declared none declaration
  | define _ hdefine ih =>
      rw [Schema.define] at hdefine
      split at hdefine
      · contradiction
      · obtain ⟨rfl, rfl⟩ := Prod.mk.inj (Except.ok.inj hdefine)
        exact ih.push_declared _ _
  | @defineValue before after _ _ _ hdefine ih =>
      have hextends := extends_defineValue hdefine
      intro handle type hcompiled
      have hbefore : before.compiled handle = .ok type := by
        rw [Schema.defineValue] at hdefine
        split at hdefine
        · contradiction
        · obtain rfl := Except.ok.inj hdefine
          exact hcompiled
      exact (ih handle type hbefore).mono hbefore hextends
  | copy _ _ ih => exact ih.push_declared none _
  | compile h handle ih => exact ih.alters_many (alters_compile handle _ h.consistent trivial)
  | compileAll h ih => exact ih.alters_many (alters_compileAll _ h.consistent trivial)

end Schema

end Asn1

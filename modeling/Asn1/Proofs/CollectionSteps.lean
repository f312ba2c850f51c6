import Asn1.Proofs.SchemaSteps
import Asn1.Proofs.VersionOrder

namespace Asn1

open Results Schema Compile

/-- Whether compiling a type by its handle gives a type that is recorded under it. -/
def TypeCompiler.Compiles (compileType : TypeCompiler) : Prop :=
  ∀ handle, Keeps (fun _ => True) (compileType handle) fun type schema =>
    schema.Has type ∧ type.handle = handle

theorem TypeCompiler.Compiles.keeps_resolved {compileType : TypeCompiler}
    (h : compileType.Compiles) (reference : TypeRef) (target : Handle) :
    Keeps (fun schema => schema.resolve reference = .ok target) (compileType target)
      fun type schema => schema.Has type ∧ type.handle = target ∧
        schema.resolve reference = .ok target := by
  refine ((h target).frame (persists_resolve reference target)).imp
    (fun _ hresolve => ⟨trivial, hresolve⟩) ?_
  rintro type schema - ⟨⟨hhas, rfl⟩, hresolve⟩
  exact ⟨hhas, rfl, hresolve⟩

/-- Where a component stands in its collection. -/
def Component.place {τ : Type} (component : Component τ) : Nat × String × Nat :=
  (component.index, component.name, component.version)

/-- The places of components that are numbered from an index on. -/
def FlatComponent.places (index : Nat) : List FlatComponent → List (Nat × String × Nat)
  | [] => []
  | component :: rest =>
    (index, component.name, component.version) :: FlatComponent.places (index + 1) rest

section Flattening

variable {compileType : TypeCompiler} {schema : Schema} {items : List (Nat × ComponentItem)}
  {flat : List FlatComponent}

theorem persists_flattens_item (version : Nat) (item : ComponentItem) (part : List FlatComponent) :
    Persists fun schema => item.Flattens schema version part := by
  intro _ _ h hflattens
  exact h.retains.flattens_item hflattens

theorem persists_includes (kind : CollectionKind) (reference : TypeRef) :
    Persists (·.Includes kind reference) := by
  intro _ _ h hincludes
  exact h.retains.includes hincludes

theorem layout?_eq_some_iff {type : CompiledType} {layout : Layout CompiledType} :
    type.layout? = some layout ↔ type.form = .collection layout := by
  obtain ⟨info, form⟩ := type
  cases form <;> simp [CompiledType.layout?, CompiledType.form]

/-- The layout that is found behind a compiled type is that of the collection it stands for. -/
theorem exists_base_of_layout? (h : schema.Consistent) {handle base : Handle} {type : CompiledType}
    {layout : Layout CompiledType} (hcompiled : schema.compiled handle = .ok type)
    (hbase : schema.skipAliases handle = .ok base) (hlayout : schema.layout? base = some layout) :
    ∃ found, type.aliasBase? maxChain = some found ∧ found.layout? = some layout := by
  obtain ⟨found, hfound, rfl⟩ := (h.skipAliases_eq_ok_iff_of_compiled hcompiled).mp hbase
  exact ⟨found, hfound, (h.layout?_eq_of_aliasBase? hcompiled hfound).symm.trans hlayout⟩

theorem keeps_rootComponentsOf (h : compileType.Compiles) (kind : CollectionKind)
    (version : Nat) (reference : TypeRef) :
    Keeps (fun _ => True) (rootComponentsOf compileType kind version reference)
      fun part schema => (ComponentItem.componentsOf reference).Flattens schema version part ∧
        schema.Includes kind reference := by
  refine (Keeps.ask _).bind fun included => ?_
  refine ((h.keeps_resolved reference included).discard.imp (fun _ hbefore => hbefore.1)
    fun _ _ _ => id).bind fun _ => ?_
  refine (Keeps.ask _).bind fun base => Keeps.get.bind fun schema => ?_
  cases hlayout : schema.layout? base with
  | none => exact Keeps.throw _
  | some layout =>
      simp only
      split
      · next hlegal =>
        refine (Keeps.pure _).imp (fun _ => id) ?_
        rintro _ _ hconsistent ⟨rfl, rfl, hbase, type, hhas, rfl, hresolve⟩
        obtain ⟨⟨info, form⟩, hfound, hform⟩ :=
          exists_base_of_layout? hconsistent hhas hbase hlayout
        obtain rfl : form = .collection layout := layout?_eq_some_iff.mp hform
        exact ⟨.componentsOf hresolve hhas (CompiledType.standsFor_of_aliasBase? hfound).1,
          hlegal.1, _, type, _, layout, hresolve, hhas, hfound, hform, hlegal.2⟩
      · exact Keeps.throw _

/-- What the items of a collection are flattened to, and that it can include what it does. -/
def FlattensTo (schema : Schema) (kind : CollectionKind) (items : List (Nat × ComponentItem))
    (flat : List FlatComponent) : Prop :=
  schema.Flattens items flat ∧ ∀ version reference, (version, .componentsOf reference) ∈ items →
    schema.Includes kind reference

theorem persists_flattensTo (kind : CollectionKind) (items : List (Nat × ComponentItem))
    (flat : List FlatComponent) : Persists (FlattensTo · kind items flat) := by
  intro _ _ h hflattens
  refine ⟨h.retains.flattens hflattens.1, ?_⟩
  intro version reference hmem
  exact h.retains.includes (hflattens.2 version reference hmem)

theorem keeps_flatten (h : compileType.Compiles) (kind : CollectionKind)
    (items : List (Nat × ComponentItem)) :
    Keeps (fun _ => True) (flatten compileType kind items)
      fun flat schema => FlattensTo schema kind items flat := by
  induction items with
  | nil =>
      refine (Keeps.pure []).imp (fun _ => id) ?_
      rintro _ _ - ⟨rfl, -⟩
      exact ⟨.nil, by simp⟩
  | cons item rest ih =>
      obtain ⟨version, written | reference⟩ := item
      · refine ih.bind fun flat => (Keeps.pure _).imp (fun _ => id) ?_
        rintro _ _ - ⟨rfl, hflat, hincludes⟩
        exact ⟨.cons (.components written) hflat, by simpa using hincludes⟩
      · refine (keeps_rootComponentsOf h kind version reference).bind fun part => ?_
        have hrest := (ih.frame ((persists_flattens_item version (.componentsOf reference) part).and
          (persists_includes kind reference))).imp
            (fun _ hbefore => ⟨trivial, hbefore⟩) fun _ _ _ => id
        refine hrest.bind fun flat => (Keeps.pure _).imp (fun _ => id) ?_
        rintro _ _ - ⟨rfl, ⟨hflat, hincludes⟩, hpart, hfirst⟩
        refine ⟨.cons hpart hflat, ?_⟩
        intro version other hmem
        rcases List.mem_cons.mp hmem with heq | hmem
        · obtain rfl := ComponentItem.componentsOf.inj (Prod.mk.inj heq).2
          exact hfirst
        · exact hincludes version other hmem

theorem version_of_flattens_item {version : Nat} {item : ComponentItem} {part : List FlatComponent}
    (h : item.Flattens schema version part) : ∀ component ∈ part, component.version = version := by
  intro component hmem
  cases h with
  | components written =>
      obtain ⟨_, -, rfl⟩ := List.mem_map.mp hmem
      rfl
  | componentsOf _ _ _ =>
      obtain ⟨_, -, rfl⟩ := List.mem_map.mp hmem
      rfl

theorem repeats_of_flattens (h : schema.Flattens items flat) :
    Repeats (items.map Prod.fst) (flat.map FlatComponent.version) := by
  induction h with
  | nil => exact .nil
  | @cons version item items part flat hitem _ ih =>
      have hreplicate : part.map FlatComponent.version = List.replicate part.length version :=
        List.eq_replicate_iff.mpr
          ⟨List.length_map _, by simpa using version_of_flattens_item hitem⟩
      rw [List.map_append, hreplicate]
      exact .cons version part.length ih

theorem length_le_of_flattens (h : schema.Flattens items flat) {version : Nat}
    {written : List ComponentDeclaration} (hmem : (version, .components written) ∈ items) :
    written.length ≤ flat.length := by
  induction h with
  | nil => simp at hmem
  | cons hitem _ ih =>
      rw [List.length_append]
      rcases List.mem_cons.mp hmem with heq | hmem
      · obtain ⟨rfl, rfl⟩ := Prod.mk.inj heq
        cases hitem
        rw [List.length_map]
        exact Nat.le_add_right _ _
      · exact (ih hmem).trans (Nat.le_add_left _ _)

theorem offers_or_of_flattens (h : schema.Flattens items flat) {item : Nat × ComponentItem}
    (hitem : item ∈ items) {reference : TypeRef} (hmem : reference ∈ item.2.references) :
    schema.Offers reference ∨ ∃ component ∈ flat, component.type = reference := by
  induction h with
  | nil => simp at hitem
  | @cons version first items part flat hfirst _ ih =>
      rcases List.mem_cons.mp hitem with rfl | hitem
      · cases hfirst with
        | components written =>
            obtain ⟨declared, hin, rfl⟩ := List.mem_map.mp hmem
            exact .inr ⟨_, List.mem_append_left _ (List.mem_map_of_mem hin), rfl⟩
        | componentsOf hresolve hcompiled _ =>
            obtain rfl := List.mem_singleton.mp hmem
            exact .inl ⟨_, _, hresolve, hcompiled⟩
      · exact (ih hitem).imp_right fun ⟨component, hin, heq⟩ =>
          ⟨component, List.mem_append_right _ hin, heq⟩

theorem exists_written_of_own (h : schema.Flattens items flat) {component : FlatComponent}
    (hmem : component ∈ flat) (hown : component.own = true) :
    ∃ version written, (version, .components written) ∈ items ∧
      ∃ declared ∈ written, declared.type = component.type := by
  induction h with
  | nil => simp at hmem
  | cons hitem _ ih =>
      rcases List.mem_append.mp hmem with hmem | hmem
      · cases hitem with
        | components written =>
            obtain ⟨declared, hin, rfl⟩ := List.mem_map.mp hmem
            exact ⟨_, written, List.mem_cons_self, declared, hin, rfl⟩
        | componentsOf _ _ _ =>
            obtain ⟨_, -, rfl⟩ := List.mem_map.mp hmem
            cases hown
      · obtain ⟨version, written, hin, hdeclared⟩ := ih hmem
        exact ⟨version, written, List.mem_cons_of_mem _ hin, hdeclared⟩

theorem nodup_names_of_nameFault? {seen : List String} {flat : List FlatComponent}
    (h : FlatComponent.nameFault? seen flat = none) :
    (flat.map FlatComponent.name).Nodup ∧ ∀ component ∈ flat, component.name ∉ seen := by
  induction flat generalizing seen with
  | nil => simp
  | cons component rest ih =>
      rw [FlatComponent.nameFault?] at h
      split at h
      · contradiction
      · next hnew =>
        obtain ⟨hnodup, hrest⟩ := ih h
        rw [List.map_cons, List.nodup_cons, List.forall_mem_cons]
        refine ⟨⟨?_, hnodup⟩, by simpa using hnew, ?_⟩
        · intro hmem
          obtain ⟨other, hother, heq⟩ := List.mem_map.mp hmem
          exact hrest other hother (heq ▸ List.mem_cons_self)
        · intro other hother hin
          exact hrest other hother (List.mem_cons_of_mem _ hin)

end Flattening

section Components

variable {compileType : TypeCompiler} {schema : Schema} {items : List (Nat × ComponentItem)}
  {flat : List FlatComponent}

/-- Whether a component has been compiled from one of a flattened declaration. It has no automatic
tag yet. -/
structure Component.IsCompiledFrom (schema : Schema) (flat : FlatComponent)
    (component : Component CompiledType) : Prop where
  made : component.IsMadeFrom schema flat component.type
  declared : component.declared = flat.type
  tagWritten : ∀ handle, flat.type = .handle handle →
    component.tagWritten = component.type.isAnonymousTag
  not_tagWritten : ∀ name, flat.type = .name name → component.tagWritten = false

theorem persists_isCompiledFrom (flat : FlatComponent) (component : Component CompiledType) :
    Persists fun schema => component.IsCompiledFrom schema flat := by
  intro _ _ h hcompiled
  exact { hcompiled with made := h.retains.isMadeFrom hcompiled.made }

theorem persists_forall₂_isCompiledFrom (flat : List FlatComponent)
    (components : List (Component CompiledType)) :
    Persists fun schema => List.Forall₂ (fun flat component => component.IsCompiledFrom schema flat)
      flat components := by
  intro _ _ h hcompiled
  apply hcompiled.imp
  intro flat component
  exact persists_isCompiledFrom flat component _ _ h

theorem Component.IsCompiledFrom.offers {component : FlatComponent}
    {compiled : Component CompiledType} (h : compiled.IsCompiledFrom schema component) :
    schema.Offers component.type :=
  ⟨_, _, h.made.resolve, h.made.compiled⟩

theorem keeps_compileDefault {pre : Schema → Prop} (type : CompiledType) (name : String)
    (value : Value) : Keeps pre (compileDefault type name value) fun canonical schema =>
      type.HasCanonicalIn schema value canonical ∧ pre schema := by
  refine Keeps.get.bind fun schema => ?_
  cases hform : type.canonicalize schema.values (.top schema.view) value with
  | error error => exact Keeps.throw _
  | ok form =>
      refine (Keeps.pure _).imp (fun _ => id) ?_
      rintro _ _ - ⟨rfl, rfl, hbefore⟩
      exact ⟨⟨form, hform, rfl⟩, hbefore⟩

theorem keeps_compileDefault? {pre : Schema → Prop} (type : CompiledType) (name : String)
    (value? : Option Value) :
    Keeps pre (value?.mapM (compileDefault type name)) fun default? schema =>
      Option.Rel (type.HasCanonicalIn schema) value? default? ∧ pre schema := by
  cases value? with
  | none =>
      refine (Keeps.pure _).imp (fun _ => id) ?_
      rintro _ _ - ⟨rfl, hbefore⟩
      exact ⟨.none, hbefore⟩
  | some value =>
      refine (keeps_compileDefault type _ value).bind fun canonical =>
        (Keeps.pure _).imp (fun _ => id) ?_
      rintro _ _ - ⟨rfl, hcanonical, hbefore⟩
      exact ⟨.some hcanonical, hbefore⟩

theorem rel_hasCanonical_of_hasCanonicalIn {type : CompiledType} {value? canonical? : Option Value}
    (h : Option.Rel (type.HasCanonicalIn schema) value? canonical?) :
    Option.Rel (type.HasCanonical schema) value? canonical? := by
  cases h with
  | none => exact .none
  | some hcanonical => exact .some (hcanonical.hasCanonical id)

theorem keeps_compileComponent (h : compileType.Compiles) (index : Nat)
    (component : FlatComponent) :
    Keeps (fun _ => True) (compileComponent compileType index component)
      fun compiled schema => compiled.IsCompiledFrom schema component ∧
        compiled.place = (index, component.name, component.version) := by
  refine (Keeps.ask _).bind fun handle => ?_
  refine ((h.keeps_resolved component.type handle).imp (fun _ hbefore => hbefore.1)
    fun _ _ _ => id).bind fun type => ?_
  refine (keeps_compileDefault? type component.name component.default?).bind fun default? =>
    (Keeps.pure _).imp (fun _ => id) ?_
  rintro _ _ - ⟨rfl, hcanonical, hhas, rfl, hresolve⟩
  refine ⟨⟨⟨rfl, rfl, rfl, hresolve, hhas, rel_hasCanonical_of_hasCanonicalIn hcanonical⟩, rfl,
    ?_, ?_⟩, rfl⟩
  · intro handle htype
    simp only [htype]
  · intro name htype
    simp only [htype]

theorem keeps_compileComponents (h : compileType.Compiles) (index : Nat)
    (flat : List FlatComponent) :
    Keeps (fun _ => True) (compileComponents compileType index flat)
      fun components schema =>
        List.Forall₂ (fun flat component => component.IsCompiledFrom schema flat) flat components ∧
          components.map Component.place = FlatComponent.places index flat := by
  induction flat generalizing index with
  | nil =>
      refine (Keeps.pure []).imp (fun _ => id) ?_
      rintro _ _ - ⟨rfl, -⟩
      exact ⟨.nil, rfl⟩
  | cons component rest ih =>
      refine (keeps_compileComponent h index component).bind fun first => ?_
      have hrest := ((ih (index + 1)).frame
        ((persists_isCompiledFrom component first).and (persists_const
          (first.place = (index, component.name, component.version))))).imp
            (fun _ hbefore => ⟨trivial, hbefore⟩) fun _ _ _ => id
      refine hrest.bind fun components => (Keeps.pure _).imp (fun _ => id) ?_
      rintro _ _ - ⟨rfl, ⟨hcomponents, hplaces⟩, hfirst, hplace⟩
      refine ⟨.cons hfirst hcomponents, ?_⟩
      rw [List.map_cons, hplaces, hplace, FlatComponent.places]

theorem persists_extends (start : Schema) : Persists start.Extends := by
  intro _ _ hextends h
  exact h.trans hextends

/-- Whether the default of a component has been checked, if there is one, at some time since
`start`, with the type of the component as it is now. -/
def Schema.TakesDefault (start schema : Schema) (component : FlatComponent) : Prop :=
  ∀ value, component.default? = some value → ∃ type earlier canonical,
    schema.resolve component.type = .ok type.handle ∧ schema.Has type ∧
      start.Extends earlier ∧ earlier.Extends schema ∧ type.HasCanonicalIn earlier value canonical

theorem persists_takesDefault (start : Schema) (component : FlatComponent) :
    Persists fun schema => start.TakesDefault schema component := by
  intro before after hextends htakes value hvalue
  obtain ⟨type, earlier, canonical, hresolve, hhas, hstart, hearlier, hcanonical⟩ :=
    htakes value hvalue
  exact ⟨type, earlier, canonical, hextends.resolve hresolve, hextends.compiled hhas, hstart,
    hearlier.trans hextends, hcanonical⟩

theorem keeps_compileComponent_takesDefault (h : compileType.Compiles) (start : Schema)
    (index : Nat) (component : FlatComponent) :
    Keeps start.Extends (compileComponent compileType index component)
      fun _ schema => start.TakesDefault schema component := by
  refine (Keeps.ask _).bind fun handle => ?_
  refine (((h.keeps_resolved component.type handle).frame (persists_extends start)).imp
    (fun _ hbefore => hbefore) fun _ _ _ => id).bind fun type => ?_
  refine (keeps_compileDefault? type component.name component.default?).bind fun default? =>
    (Keeps.pure _).imp (fun _ => id) ?_
  rintro _ schema - ⟨-, hcanonical, ⟨hhas, rfl, hresolve⟩, hextends⟩ value hvalue
  rw [hvalue] at hcanonical
  cases hcanonical with
  | some hcanonical =>
      exact ⟨type, schema, _, hresolve, hhas, hextends, .refl schema, hcanonical⟩

theorem keeps_compileComponents_takesDefault (h : compileType.Compiles) (start : Schema)
    (index : Nat) (flat : List FlatComponent) :
    Keeps start.Extends (compileComponents compileType index flat)
      fun _ schema => ∀ component ∈ flat, start.TakesDefault schema component := by
  induction flat generalizing index with
  | nil => exact (Keeps.pure []).imp (fun _ => id) fun _ _ _ _ => by simp
  | cons component rest ih =>
      have hfirst := ((keeps_compileComponent_takesDefault h start index component).frame
        (persists_extends start)).imp (fun _ hextends => ⟨hextends, hextends⟩) fun _ _ _ => id
      refine hfirst.bind fun first => ?_
      have hrest := ((ih (index + 1)).frame (persists_takesDefault start component)).imp
        (fun _ (hbefore : _ ∧ _) => ⟨hbefore.2, hbefore.1⟩) fun _ _ _ => id
      refine hrest.bind fun components => (Keeps.pure _).imp (fun _ => id) ?_
      rintro _ schema - ⟨-, hall, htakes⟩
      exact List.forall_mem_cons.mpr ⟨htakes, hall⟩

/-- A tag counts as written where the collection itself declares the component. -/
theorem writesTag_of_any {collection : CollectionDeclaration}
    (hflat : schema.Flattens collection.items flat) {components : List (Component CompiledType)}
    (hcomponents :
      List.Forall₂ (fun flat component => component.IsCompiledFrom schema flat) flat components)
    (hany : ((flat.zip components).any fun (flat, component) =>
      flat.own && component.tagWritten) = true) : schema.WritesTag collection := by
  obtain ⟨⟨component, compiled⟩, hpair, htag⟩ := List.any_eq_true.mp hany
  obtain ⟨hown, htag⟩ := Bool.and_eq_true_iff.mp htag
  have hcompiled := (List.forall₂_iff_zip.mp hcomponents).2 hpair
  obtain ⟨version, written, hitem, declared, hin, hdeclared⟩ :=
    exists_written_of_own hflat (List.of_mem_zip hpair).1 hown
  cases htype : component.type with
  | name name => exact absurd htag (by simp [hcompiled.not_tagWritten name htype])
  | handle handle =>
      have hresolve := hcompiled.made.resolve
      rw [htype] at hresolve
      obtain ⟨heq, -⟩ := resolve_handle_eq_ok_iff.mp hresolve
      exact ⟨version, written, hitem, declared, hin, handle, _, hdeclared.trans htype,
        heq ▸ hcompiled.made.compiled, (hcompiled.tagWritten handle htype).symm.trans htag⟩

end Components

section AutomaticTags

/-- A tagged type over a compiled one can be added as a compiled type itself. -/
theorem consistent_push_tagged {schema : Schema} (h : schema.Consistent) {inner : CompiledType}
    (hinner : schema.Has inner) (tag : Tag) (method : TagMethod)
    (hsound : (TypeForm.tagged tag method inner).IsSound) :
    (schema.push ⟨none, ⟨.tagged tag method (.handle inner.handle), []⟩,
      .compiled ⟨⟨⟨schema.nodes.size⟩, none, []⟩, .tagged tag method inner⟩⟩).2.Consistent ∧
    (schema.push ⟨none, ⟨.tagged tag method (.handle inner.handle), []⟩,
      .compiled ⟨⟨⟨schema.nodes.size⟩, none, []⟩, .tagged tag method inner⟩⟩).2.Has
        ⟨⟨⟨schema.nodes.size⟩, none, []⟩, .tagged tag method inner⟩ := by
  have hnode (node : SchemaNode) :
      (schema.push node).2.node? ⟨schema.nodes.size⟩ = some node := by
    rw [node?_push, if_pos rfl]
  have hcompiled : (schema.push ⟨none, ⟨.tagged tag method (.handle inner.handle), []⟩,
      .compiled ⟨⟨⟨schema.nodes.size⟩, none, []⟩, .tagged tag method inner⟩⟩).2.compiled
        ⟨schema.nodes.size⟩ = .ok ⟨⟨⟨schema.nodes.size⟩, none, []⟩, .tagged tag method inner⟩ :=
    compiled_eq_ok_iff.mpr ⟨_, hnode _, rfl⟩
  refine ⟨h.push ?_, hcompiled⟩
  intro type hstatus
  obtain rfl := TypeStatus.compiled.inj hstatus
  refine ⟨⟨_, hnode _, rfl, rfl, rfl, rfl⟩, ?_, ?_, ?_, hsound, ?_, ?_, ?_⟩
  · intro other hmem
    obtain rfl : other = inner := List.mem_singleton.mp hmem
    exact (extends_push schema _).compiled hinner
  · rintro layout ⟨⟩
  · rintro layout ⟨⟩
  · refine h.grounded_of_offers (extends_push schema _) hcompiled
      (definition?_eq_some_iff.mpr ⟨_, hnode _, rfl⟩) ?_
    intro reference hmem
    obtain rfl : reference = .handle inner.handle := List.mem_singleton.mp hmem
    exact hinner.offers
  · rintro layout ⟨⟩
  · rintro layout ⟨⟩

/-- An implicit tag is only used where the type has a tag of its own to be replaced. -/
theorem isSound_tagged (tag : Tag) (inner : CompiledType) :
    (TypeForm.tagged tag (if inner.isUntaggedChoice then .explicit else .implicit)
      inner).IsSound := by
  cases hchoice : inner.isUntaggedChoice with
  | false => exact hchoice
  | true => exact trivial

theorem keeps_askUntaggedChoice {pre : Schema → Prop} (inner : CompiledType)
    (hpre : ∀ schema, pre schema → schema.Has inner) :
    Keeps pre (ask (·.isUntaggedChoice inner.handle)) fun isChoice schema =>
      isChoice = inner.isUntaggedChoice ∧ inner.HasBase ∧ pre schema := by
  refine (Keeps.ask _).imp (fun _ => id) ?_
  rintro _ schema hconsistent ⟨hchoice, hbefore⟩
  obtain ⟨hbase, heq⟩ :=
    (hconsistent.isUntaggedChoice_eq_ok_iff (hpre schema hbefore)).mp hchoice
  exact ⟨heq, hbase, hbefore⟩

theorem keeps_addContextTag (start : Schema) (number : Nat) (inner : CompiledType) :
    Keeps (fun schema => schema.Has inner ∧ start.Extends schema) (addContextTag number inner)
      fun type schema => schema.Has type ∧ type.IsContextTag number inner ∧
        start.node? type.handle = none ∧ inner.HasBase := by
  have hpush (schema : Schema) (tag : Tag) (method : TagMethod) (type : CompiledType)
      (htype : type = ⟨⟨⟨schema.nodes.size⟩, none, []⟩, .tagged tag method inner⟩)
      (hsound : (TypeForm.tagged tag method inner).IsSound) :
      Keeps (fun after => schema = after ∧ after.Has inner ∧ start.Extends after)
        (do
          set (schema.push ⟨none, ⟨.tagged tag method (.handle inner.handle), []⟩,
            .compiled type⟩).2
          return type) fun result schema =>
            schema.Has result ∧ start.node? result.handle = none ∧ result = type := by
    have hset : Keeps (fun after => schema = after ∧ after.Has inner ∧ start.Extends after)
        (set (schema.push ⟨none, ⟨.tagged tag method (.handle inner.handle), []⟩,
          .compiled type⟩).2) fun _ after => after.Has type ∧ start.node? type.handle = none := by
      refine Keeps.set ?_
      rintro _ hconsistent ⟨rfl, hinner, hextends⟩
      subst htype
      obtain ⟨hafter, hhas⟩ := consistent_push_tagged hconsistent hinner tag method hsound
      refine ⟨leadsTo_push _ (by simp), hafter, hhas, hextends.node?_eq_none ?_⟩
      simp [node?, CompiledType.handle, CompiledType.info]
    refine hset.bind fun _ => (Keeps.pure _).imp (fun _ => id) ?_
    rintro _ _ - ⟨rfl, hhas, hnew⟩
    exact ⟨hhas, hnew, rfl⟩
  refine (keeps_askUntaggedChoice inner fun _ hbefore => hbefore.1).bind fun isChoice => ?_
  refine Keeps.get.bind fun schema => ?_
  refine (Keeps.assume fun hchoice : isChoice = inner.isUntaggedChoice =>
    Keeps.assume fun hbase : inner.HasBase =>
      (hpush schema _ _ _ rfl (hchoice ▸ isSound_tagged _ inner)).imp (fun _ => id)
        fun _ _ _ hafter => ⟨hafter.1, ⟨_, hafter.2.2.trans (by rw [hchoice])⟩,
          hafter.2.1, hbase⟩).imp ?_ fun _ _ _ => id
  rintro _ ⟨rfl, hchoice, hbase, hbefore⟩
  exact ⟨hchoice, hbase, rfl, hbefore⟩

theorem keeps_addContextTags (start : Schema) (number : Nat)
    (components : List (Component CompiledType)) :
    Keeps (fun schema => (∀ component ∈ components, schema.Has component.type) ∧
        start.Extends schema)
      (addContextTags number components)
      fun types schema => (∀ entry ∈ types, schema.Has entry.2) ∧
        List.Forall₂ (fun pair entry => entry.1 = pair.1.index ∧
          entry.2.IsContextTag pair.2 pair.1.type ∧ start.node? entry.2.handle = none)
            (components.zipIdx number) types ∧
        ∀ component ∈ components, component.type.HasBase := by
  induction components generalizing number with
  | nil =>
      refine (Keeps.pure []).imp (fun _ => id) ?_
      rintro _ _ - ⟨rfl, -⟩
      exact ⟨by simp, .nil, by simp⟩
  | cons component rest ih =>
      have hfirst : Keeps (fun schema =>
          (∀ other ∈ component :: rest, schema.Has other.type) ∧ start.Extends schema) _ _ :=
        ((keeps_addContextTag start number component.type).frame
          ((persists_forall_has rest).and (persists_extends start))).imp
            (fun _ hbefore => ⟨⟨(List.forall_mem_cons.mp hbefore.1).1, hbefore.2⟩,
              (List.forall_mem_cons.mp hbefore.1).2, hbefore.2⟩) fun _ _ _ => id
      refine hfirst.bind fun type => ?_
      have hrest := ((ih (number + 1)).frame ((persists_has type).and
        (persists_const (type.IsContextTag number component.type ∧
          start.node? type.handle = none ∧ component.type.HasBase)))).imp
            (fun _ hbefore => And.symm hbefore) fun _ _ _ => id
      refine hrest.bind fun types => (Keeps.pure _).imp (fun _ => id) ?_
      rintro _ _ - ⟨rfl, ⟨htypes, htags, hbases⟩, htype, htag, hnew, hbase⟩
      exact ⟨List.forall_mem_cons.mpr ⟨htype, htypes⟩, .cons ⟨rfl, htag, hnew⟩ htags,
        List.forall_mem_cons.mpr ⟨hbase, hbases⟩⟩

theorem mem_zipIdx_of_mem_zip {components : List (Component CompiledType)} {root addition : Nat}
    {pair : Component CompiledType × Nat} (h : pair ∈ components.zip
      (automaticNumbers root addition (components.map Component.version))) :
    pair ∈ (components.filter (!·.isAddition)).zipIdx root ++
      (components.filter (·.isAddition)).zipIdx addition := by
  induction components generalizing root addition with
  | nil => simp at h
  | cons component rest ih =>
      rw [List.map_cons, automaticNumbers] at h
      by_cases haddition : component.isAddition = true
      · have hversion : 1 < component.version := by simpa [Component.isAddition] using haddition
        rw [if_pos hversion, List.zip_cons_cons] at h
        rw [List.filter_cons_of_neg (by simp [haddition]), List.filter_cons_of_pos haddition,
          List.zipIdx_cons]
        rcases List.mem_cons.mp h with rfl | h
        · simp
        · have := ih h
          simp only [List.mem_append, List.mem_cons] at this ⊢
          tauto
      · have hversion : ¬1 < component.version := by simpa [Component.isAddition] using haddition
        rw [if_neg hversion, List.zip_cons_cons] at h
        rw [List.filter_cons_of_pos (by simp [haddition]), List.filter_cons_of_neg haddition,
          List.zipIdx_cons]
        rcases List.mem_cons.mp h with rfl | h
        · simp
        · have := ih h
          simp only [List.mem_append, List.mem_cons] at this ⊢
          tauto

/-- Whether a component is another one with an automatic tag that has the number. The tag is a type
that `start` does not have. -/
def Component.IsTagged (start : Schema) (number : Nat) (component tagged : Component CompiledType) :
    Prop :=
  ∃ type, type.IsContextTag number component.type ∧ start.node? type.handle = none ∧
    tagged = { component with type }

theorem length_automaticNumbers (root addition : Nat) (versions : List Nat) :
    (automaticNumbers root addition versions).length = versions.length := by
  induction versions generalizing root addition with
  | nil => rfl
  | cons version rest ih =>
      rw [automaticNumbers]
      split <;> simp [ih]

theorem lookup_eq_some_of_mem {α β : Type} [BEq α] [LawfulBEq α] {pairs : List (α × β)}
    (hnodup : (pairs.map Prod.fst).Nodup) {pair : α × β} (hmem : pair ∈ pairs) :
    pairs.lookup pair.1 = some pair.2 := by
  obtain ⟨front, back, rfl⟩ := List.append_of_mem hmem
  refine List.lookup_eq_some_iff.mpr ⟨front, back, rfl, ?_⟩
  rw [List.map_append, List.map_cons] at hnodup
  intro other hother
  rw [bne_iff_ne]
  intro heq
  exact (List.nodup_append.mp hnodup).2.2 other.1 (List.mem_map_of_mem hother) pair.1
    List.mem_cons_self heq.symm

/-- Whether components are other ones with their automatic tags. -/
def AreTagged (start : Schema) (components tagged : List (Component CompiledType)) : Prop :=
  List.Forall₂ (fun pair tagged => pair.1.IsTagged start pair.2 tagged)
    (components.zip (automaticNumbers 0 (components.filter (!·.isAddition)).length
      (components.map Component.version))) tagged

theorem map_fst_zip_automaticNumbers (root addition : Nat)
    (components : List (Component CompiledType)) :
    (components.zip (automaticNumbers root addition (components.map Component.version))).map
      Prod.fst = components :=
  List.map_fst_zip (by rw [length_automaticNumbers, List.length_map])

theorem AreTagged.map_place {start : Schema} {components tagged : List (Component CompiledType)}
    (h : AreTagged start components tagged) :
    tagged.map Component.place = components.map Component.place := by
  conv => right; rw [← map_fst_zip_automaticNumbers 0 (components.filter (!·.isAddition)).length
    components, List.map_map]
  refine map_eq_map_of_forall₂ h ?_
  rintro pair - _ - ⟨type, -, -, rfl⟩
  rfl

/-- Components in the order of their automatic tags: those of the root, and then the extension
additions. -/
def tagOrder {τ : Type} (components : List (Component τ)) : List (Component τ) :=
  components.filter (!·.isAddition) ++ components.filter (·.isAddition)

theorem perm_tagOrder {τ : Type} (components : List (Component τ)) :
    (tagOrder components).Perm components := by
  rw [tagOrder]
  exact List.perm_append_comm.trans (List.filter_append_perm (·.isAddition) components)

theorem length_filter_root {τ : Type} (components : List (Component τ)) :
    (components.filter (!·.isAddition)).length =
      (components.map Component.version).countP (· ≤ 1) := by
  rw [List.countP_map, ← List.countP_eq_length_filter]
  exact List.countP_congr fun component _ => by simp [Component.isAddition]

/-- Components whose tagged types are looked up by their indexes have got their automatic tags. -/
theorem areTagged_of_lookup {start : Schema} {components : List (Component CompiledType)}
    {types : List (Nat × CompiledType)} (hindexes : (components.map Component.index).Nodup)
    (htags : List.Forall₂ (fun pair entry => entry.1 = pair.1.index ∧
      entry.2.IsContextTag pair.2 pair.1.type ∧ start.node? entry.2.handle = none)
        ((tagOrder components).zipIdx 0) types) :
    AreTagged start components (components.map fun component =>
      { component with type := (types.lookup component.index).getD component.type }) := by
  have hkeys := map_eq_map_of_forall₂ htags (f := Component.index ∘ Prod.fst)
    fun _ _ _ _ htag => htag.1
  rw [← List.map_map, List.zipIdx_map_fst] at hkeys
  have hnodup : (types.map Prod.fst).Nodup :=
    hkeys ▸ ((perm_tagOrder components).map Component.index).nodup_iff.mpr hindexes
  have htagged : ∀ pair ∈ components.zip (automaticNumbers 0
      (components.filter (!·.isAddition)).length (components.map Component.version)),
      pair.1.IsTagged start pair.2
        { pair.1 with type := (types.lookup pair.1.index).getD pair.1.type } := by
    intro pair hmem
    have hin : pair ∈ (tagOrder components).zipIdx 0 := by
      rw [tagOrder, List.zipIdx_append, Nat.zero_add]
      exact mem_zipIdx_of_mem_zip hmem
    obtain ⟨entry, hentry, hindex, htag, hnew⟩ := forall₂_exists_of_mem htags.flip hin
    have hlookup := lookup_eq_some_of_mem hnodup hentry
    rw [hindex] at hlookup
    exact ⟨entry.2, htag, hnew, by rw [hlookup, Option.getD_some]⟩
  have hsame := map_fst_zip_automaticNumbers 0 (components.filter (!·.isAddition)).length
    components
  rw [AreTagged]
  conv => right; rw [← hsame, List.map_map]
  exact List.forall₂_map_right_iff.mpr (List.forall₂_same.mpr htagged)

theorem keeps_tagAutomatically (start : Schema) (components : List (Component CompiledType))
    (hindexes : (components.map Component.index).Nodup) :
    Keeps (fun schema => (∀ component ∈ components, schema.Has component.type) ∧
        start.Extends schema)
      (tagAutomatically components) fun tagged schema =>
        (∀ component ∈ tagged, schema.Has component.type) ∧ AreTagged start components tagged ∧
          ∀ component ∈ components, component.type.HasBase := by
  have hmem (component : Component CompiledType) :
      component ∈ tagOrder components ↔ component ∈ components :=
    (perm_tagOrder components).mem_iff
  have htypes : Keeps (fun schema =>
      (∀ component ∈ components, schema.Has component.type) ∧ start.Extends schema) _ _ :=
    ((keeps_addContextTags start 0 (tagOrder components)).frame
      (persists_forall_has components)).imp (fun _ hbefore =>
        ⟨⟨by simpa only [hmem] using hbefore.1, hbefore.2⟩, hbefore.1⟩) fun _ _ _ => id
  refine htypes.bind fun types => (Keeps.pure _).imp (fun _ => id) ?_
  rintro _ _ - ⟨rfl, ⟨htypes, htags, hbases⟩, hcomponents⟩
  refine ⟨?_, areTagged_of_lookup hindexes htags, by simpa only [hmem] using hbases⟩
  intro component hcomponent
  obtain ⟨source, hsource, rfl⟩ := List.mem_map.mp hcomponent
  cases hlookup : types.lookup source.index with
  | none => simpa [hlookup] using hcomponents source hsource
  | some type =>
      obtain ⟨front, back, rfl, -⟩ := List.lookup_eq_some_iff.mp hlookup
      simpa [hlookup] using htypes (source.index, type) (by simp)

end AutomaticTags

end Asn1

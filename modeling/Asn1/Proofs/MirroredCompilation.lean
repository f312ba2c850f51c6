import Asn1.Proofs.MirroredSteps
import Asn1.Proofs.SettlingCalls
import Asn1.Proofs.ValueReferences

/-!
Compiling the same in two schemas that answer alike. A collection can even be declared differently
in the second one, with components written out that the first one includes from another collection:
it is enough that what the two declarations are flattened to is compiled alike.
-/

namespace Asn1

open Results Schema Compile

/-- Whether components of flattened declarations are compiled alike. Their defaults can differ if
they have the same canonical form. -/
structure FlatComponent.IsAlike (start : Schema) (component other : FlatComponent) : Prop where
  name : other.name = component.name
  type : other.type = component.type
  optional : other.optional = component.optional
  version : other.version = component.version
  default? : other.default? = component.default? ∨ ∃ inner,
    start.resolve component.type = .ok inner.handle ∧ start.Has inner ∧
      Option.Rel (fun value value' => ∃ canonical, inner.HasCanonicalIn start value canonical ∧
        inner.HasCanonicalIn start value' canonical) component.default? other.default?

theorem FlatComponent.IsAlike.refl (start : Schema) (component : FlatComponent) :
    component.IsAlike start component :=
  ⟨rfl, rfl, rfl, rfl, .inl rfl⟩

/-- Whether a schema includes the root components of another collection, which is compiled, as
components of a flattened declaration. -/
def Schema.IncludesAs (schema : Schema) (kind : CollectionKind) (version : Nat)
    (reference : TypeRef) (part : List FlatComponent) : Prop :=
  (kind = .sequence ∨ kind = .set) ∧ ∃ type base layout,
    schema.resolve reference = .ok type.handle ∧ schema.Has type ∧
      type.aliasBase? maxChain = some base ∧ base.layout? = some layout ∧ layout.kind = kind ∧
        part = (layout.components.filter (·.version = 1)).map (FlatComponent.ofComponent version)

/-- Whether the items of two declarations are the same but for inclusions in the first one, of which
`includes` says what they are flattened to. In their place the second one has components that are
written out. -/
inductive ComponentItem.Expands (includes : Nat → TypeRef → List FlatComponent → Prop)
    (alike : FlatComponent → FlatComponent → Prop) :
    List (Nat × ComponentItem) → List (Nat × ComponentItem) → Prop
  | nil : Expands includes alike [] []
  | keep (item : Nat × ComponentItem) {items others : List (Nat × ComponentItem)}
    (hitems : Expands includes alike items others) :
    Expands includes alike (item :: items) (item :: others)
  | writeOut {version : Nat} {reference : TypeRef} {part : List FlatComponent}
    {written : List (List ComponentDeclaration)} {items others : List (Nat × ComponentItem)}
    (hincludes : includes version reference part)
    (hpart : List.Forall₂ alike part (written.flatten.map (FlatComponent.ofDeclaration version)))
    (hitems : Expands includes alike items others) :
    Expands includes alike ((version, .componentsOf reference) :: items)
      (written.map (fun components => (version, .components components)) ++ others)

theorem ComponentItem.Expands.refl (includes : Nat → TypeRef → List FlatComponent → Prop)
    (alike : FlatComponent → FlatComponent → Prop) (items : List (Nat × ComponentItem)) :
    Expands includes alike items items := by
  induction items with
  | nil => exact .nil
  | cons item rest ih => exact .keep item ih

/-- Whether two declarations of collections differ only in that the second one writes out components
that the first one includes. This must not change whether there are automatic tags. -/
structure CollectionDeclaration.Corresponds (includes : Nat → TypeRef → List FlatComponent → Prop)
    (alike : FlatComponent → FlatComponent → Prop) (collection other : CollectionDeclaration) :
    Prop where
  kind : other.kind = collection.kind
  isExtensible : other.isExtensible = collection.isExtensible
  versionFault? : other.versionFault? = collection.versionFault?
  items : ComponentItem.Expands includes alike collection.items other.items
  addsTags : ∀ {flat others components}, List.Forall₂ alike flat others →
    other.addsTags others components = collection.addsTags flat components

theorem CollectionDeclaration.Corresponds.refl
    (includes : Nat → TypeRef → List FlatComponent → Prop) (collection : CollectionDeclaration) :
    collection.Corresponds includes (· = ·) collection := by
  refine ⟨rfl, rfl, rfl, .refl _ _ _, fun halike => ?_⟩
  rw [List.forall₂_eq_eq_eq] at halike
  rw [halike]

/-- What is asked of compiling the types that a declaration mentions: it does the same in schemas
that answer alike, and nothing where a type has been compiled. -/
structure CallsAlike (start : Schema) (related : Schema → Schema → Prop)
    (compileType : TypeCompiler) : Prop extends AnswerAlike start related where
  compiles : compileType.Compiles
  call : ∀ target, Mirrors related (fun _ => True) (fun _ => True) (· = ·) (compileType target)
    (compileType target)

section Compiling

variable {start : Schema} {related : Schema → Schema → Prop} {compileType : TypeCompiler}
  {pre pre' : Schema → Prop}

theorem Schema.AnswerAlike.mirrors_resolve (h : AnswerAlike start related) (reference : TypeRef) :
    Mirrors related pre pre' (· = ·) (ask (·.resolve reference)) (ask (·.resolve reference)) := by
  refine .ask ?_
  intro _ _ _ _ hrelated _ _
  exact h.resolve hrelated reference

theorem outcome_flatten_written (kind : CollectionKind) (version : Nat)
    (written : List (List ComponentDeclaration)) (items : List (Nat × ComponentItem))
    (schema : Schema) :
    (flatten compileType kind
      (written.map (fun components => (version, .components components)) ++ items)).outcome
        schema =
      (((flatten compileType kind items).outcome schema).1.map
        (written.flatten.map (FlatComponent.ofDeclaration version) ++ ·),
        ((flatten compileType kind items).outcome schema).2) := by
  induction written with
  | nil =>
      rcases hflatten : (flatten compileType kind items).outcome schema with ⟨_ | flat, after⟩
      · simp [hflatten, Except.map]
      · simp [hflatten, Except.map]
  | cons components rest ih =>
      rw [List.map_cons, List.cons_append, flatten, outcome_bind, ih]
      rcases (flatten compileType kind items).outcome schema with ⟨_ | flat, after⟩
      · rfl
      · simp [Except.map, outcome]
        rfl

theorem outcome_compileDefault (type : CompiledType) (name : String) (value : Value)
    (schema : Schema) :
    (compileDefault type name value).outcome schema =
      (match type.canonicalize schema.values (.top schema.view) value with
        | .ok form => .ok form.value
        | .error error => .error (.invalidDefault name error.message), schema) := by
  change Compile.outcome (match type.canonicalize schema.values (.top schema.view) value with
    | .ok form => pure form.value
    | .error error => throw (.invalidDefault name error.message)) schema = _
  cases type.canonicalize schema.values (.top schema.view) value <;> rfl

theorem outcome_compileDefault_of_canonicalize {schema : Schema} {type : CompiledType}
    {name : String} {value : Value} {form : CanonicalForm}
    (h : type.canonicalize schema.values (.top schema.view) value = .ok form) :
    (compileDefault type name value).outcome schema = (.ok form.value, schema) := by
  rw [outcome_compileDefault, h]

theorem Schema.IncludesAs.mono {schema after : Schema} {kind : CollectionKind} {version : Nat}
    {reference : TypeRef} {part : List FlatComponent}
    (h : schema.IncludesAs kind version reference part) (hextends : schema.Extends after) :
    after.IncludesAs kind version reference part := by
  obtain ⟨hlegal, type, base, layout, hresolve, hhas, hrest⟩ := h
  exact ⟨hlegal, type, base, layout, hextends.resolve hresolve, hextends.compiled hhas, hrest⟩

theorem outcome_rootComponentsOf_of_includesAs {schema : Schema} (h : schema.Consistent)
    (hdone : ∀ {type}, schema.Has type →
      (compileType type.handle).outcome schema = (.ok type, schema))
    {kind : CollectionKind} {version : Nat} {reference : TypeRef} {part : List FlatComponent}
    (hincludes : schema.IncludesAs kind version reference part) :
    (rootComponentsOf compileType kind version reference).outcome schema = (.ok part, schema) := by
  obtain ⟨hlegal, type, base, layout, hresolve, hhas, hbase, hlayout, hkind, rfl⟩ := hincludes
  have hskip := (h.skipAliases_eq_ok_iff_of_compiled hhas).mpr ⟨base, hbase, rfl⟩
  have hfound := (h.layout?_eq_of_aliasBase? hhas hbase).trans hlayout
  have hget : (get : Compile Schema).outcome schema = (.ok schema, schema) := rfl
  have hpure : (pure () : Compile Unit).outcome schema = (.ok (), schema) := rfl
  simp only [rootComponentsOf, discard_eq_bind, outcome_bind, outcome_ask, hresolve, hdone hhas,
    hpure, hskip, hget, hfound, if_pos (And.intro hlegal hkind)]
  rfl

namespace CallsAlike

variable (h : CallsAlike start related compileType)

include h

theorem mirrors_rootComponentsOf (kind : CollectionKind) (version : Nat) (reference : TypeRef) :
    Mirrors related (fun _ => True) (fun _ => True) (· = ·)
      (rootComponentsOf compileType kind version reference)
      (rootComponentsOf compileType kind version reference) := by
  refine .bind_same (Keeps.ask _) (Keeps.ask _) (h.mirrors_resolve reference) fun included => ?_
  have hkeeps := (h.compiles.keeps_resolved reference included).imp
    (fun _ (hbefore : _ ∧ True) => hbefore.1) fun _ _ _ => id
  refine .discard_bind hkeeps hkeeps (h.call included).anywhere fun type => ?_
  refine .bind_same (Keeps.ask _) (Keeps.ask _) (.ask ?_) fun base => .get_bind ?_
  · rintro left right hleft hright hrelated ⟨hhas, rfl, -⟩ ⟨hhas', -⟩
    exact skipAliases_eq_of_has hleft hright hhas hhas' (h.describe hrelated _)
  · rintro left right hleft hright hrelated ⟨hskip, hhas, rfl, -⟩ ⟨-, hhas', -⟩
    obtain ⟨found, hfound, rfl⟩ := (hleft.skipAliases_eq_ok_iff_of_compiled hhas).mp hskip
    rw [hleft.layout?_eq_of_aliasBase? hhas hfound, hright.layout?_eq_of_aliasBase? hhas' hfound,
      h.describe hrelated]
    cases found.layout? with
    | none => exact .error _ _ _
    | some layout =>
        simp only
        split
        · exact .ok rfl hrelated
        · exact .error _ _ _

theorem mirrors_flatten {kind : CollectionKind}
    {includes : Nat → TypeRef → List FlatComponent → Prop}
    (hincludes : ∀ {version reference part left right}, includes version reference part →
      related left right → left.Consistent →
        (rootComponentsOf compileType kind version reference).outcome left = (.ok part, left))
    {alike : FlatComponent → FlatComponent → Prop} (hrefl : ∀ component, alike component component)
    {items others : List (Nat × ComponentItem)}
    (hitems : ComponentItem.Expands includes alike items others) :
    Mirrors related (fun _ => True) (fun _ => True) (List.Forall₂ alike)
      (flatten compileType kind items) (flatten compileType kind others) := by
  have hsame (part : List FlatComponent) : List.Forall₂ alike part part :=
    List.forall₂_same.mpr fun component _ => hrefl component
  induction hitems with
  | nil => exact .pure .nil
  | @keep item items others _ ih =>
      obtain ⟨version, written | reference⟩ := item
      · exact .bind (keeps_flatten h.compiles kind items) (keeps_flatten h.compiles kind others) ih
          fun _ _ hrest => .pure (List.rel_append (hsame _) hrest)
      · have hkeeps := keeps_rootComponentsOf h.compiles kind version reference
        refine .bind_same hkeeps hkeeps (h.mirrors_rootComponentsOf kind version reference)
          fun part => ?_
        exact .bind (keeps_flatten h.compiles kind items).anywhere
          (keeps_flatten h.compiles kind others).anywhere ih.anywhere
            fun _ _ hrest => .pure (List.rel_append (hsame _) hrest)
  | @writeOut version reference part written items others hincluded hpart _ ih =>
      intro left right hleft hright hrelated _ _
      have hmirrored := ih left right hleft hright hrelated trivial trivial
      rw [outcome_flatten_written, flatten, outcome_bind, hincludes hincluded hrelated hleft]
      simp only [outcome_bind]
      generalize (flatten compileType kind items).outcome left = first at hmirrored
      generalize (flatten compileType kind others).outcome right = second at hmirrored
      cases hmirrored with
      | ok hrest hrelated => exact .ok (List.rel_append hpart hrest) hrelated
      | error error after last => exact .error error after last

theorem mirrors_compileDefault? (type : CompiledType) (name : String)
    {value? value'? : Option Value}
    (hdefault : value'? = value? ∨ start.Has type ∧ Option.Rel (fun value value' => ∃ canonical,
      type.HasCanonicalIn start value canonical ∧ type.HasCanonicalIn start value' canonical)
        value? value'?) :
    Mirrors related (·.Has type) pre' (· = ·) (value?.mapM (compileDefault type name))
      (value'?.mapM (compileDefault type name)) := by
  have hsome {value value' : Value}
      (hmirrors : Mirrors related (·.Has type) pre' (· = ·) (compileDefault type name value)
        (compileDefault type name value')) :
      Mirrors related (·.Has type) pre' (· = ·) ((some value).mapM (compileDefault type name))
        ((some value').mapM (compileDefault type name)) :=
    .bind_same (keeps_compileDefault type name value) (keeps_compileDefault type name value')
      hmirrors fun _ => .pure rfl
  rcases hdefault with rfl | ⟨hhas, hcanonical⟩
  · cases value'? with
    | none => exact .pure rfl
    | some value =>
        refine hsome fun left right hleft _ hrelated hhas _ => ?_
        rw [outcome_compileDefault, outcome_compileDefault, h.canonicalize hrelated hleft hhas]
        cases type.canonicalize left.values (.top left.view) value with
        | ok form => exact .ok rfl hrelated
        | error error => exact .error _ _ _
  · cases hcanonical with
    | none => exact .pure rfl
    | some hcanonical =>
        refine hsome fun left right hleft _ hrelated hhas' _ => ?_
        obtain ⟨_, ⟨form, hform, rfl⟩, form', hform', hsame⟩ := hcanonical
        have hlater {value : Value} {form : CanonicalForm}
            (hform : type.canonicalize start.values (.top start.view) value = .ok form) :
            type.canonicalize left.values (.top left.view) value = .ok form :=
          CompiledType.canonicalize_of_isWithin (hleft.isRegular hhas') (h.grows hrelated).values
            (h.passes hrelated hleft hhas) .top hform
        rw [outcome_compileDefault_of_canonicalize (hlater hform),
          outcome_compileDefault_of_canonicalize
            ((h.canonicalize hrelated hleft hhas' _).trans (hlater hform'))]
        exact .ok hsame.symm hrelated

theorem mirrors_compileComponent (index : Nat) {component other : FlatComponent}
    (halike : component.IsAlike start other) :
    Mirrors related (fun _ => True) (fun _ => True) (· = ·)
      (compileComponent compileType index component)
      (compileComponent compileType index other) := by
  rw [compileComponent, compileComponent, halike.name, halike.type, halike.optional, halike.version]
  refine .bind_same (Keeps.ask _) (Keeps.ask _) (h.mirrors_resolve component.type)
    fun target => ?_
  have hkeeps := (h.compiles.keeps_resolved component.type target).imp
    (fun _ (hbefore : _ ∧ True) => hbefore.1) fun _ _ _ => id
  refine .bind_same hkeeps hkeeps (h.call target).anywhere fun type => ?_
  refine .assume (other.default? = component.default? ∨ start.Has type ∧
    Option.Rel (fun value value' => ∃ canonical, type.HasCanonicalIn start value canonical ∧
      type.HasCanonicalIn start value' canonical) component.default? other.default?) ?_
        fun hdefault => ?_
  · rintro left right - hrelated ⟨hhas, rfl, hresolve⟩
    refine halike.default?.imp_right ?_
    rintro ⟨inner, hinner, hcompiled, hcanonical⟩
    have hgrows := h.grows hrelated
    have hsame := Except.ok.inj ((hgrows.resolve hinner).symm.trans hresolve)
    have heq : inner = type :=
      Except.ok.inj ((hgrows.compiled hcompiled).symm.trans (hsame ▸ hhas))
    exact heq ▸ ⟨hcompiled, hcanonical⟩
  · exact .bind_same (keeps_compileDefault? type component.name component.default?)
      (keeps_compileDefault? type component.name other.default?)
        ((h.mirrors_compileDefault? type component.name hdefault).imp (fun _ hbefore => hbefore.1)
          fun _ => id) fun _ => .pure rfl

theorem mirrors_compileComponents (index : Nat) {flat others : List FlatComponent}
    (halike : List.Forall₂ (FlatComponent.IsAlike start) flat others) :
    Mirrors related (fun _ => True) (fun _ => True) (· = ·)
      (compileComponents compileType index flat) (compileComponents compileType index others) := by
  induction halike generalizing index with
  | nil => exact .pure rfl
  | @cons component other rest rest' hfirst _ ih =>
      refine .bind_same (keeps_compileComponent h.compiles index component)
        (keeps_compileComponent h.compiles index other) (h.mirrors_compileComponent index hfirst)
          fun first => ?_
      exact .bind_same (keeps_compileComponents h.compiles (index + 1) rest).anywhere
        (keeps_compileComponents h.compiles (index + 1) rest').anywhere (ih (index + 1)).anywhere
          fun _ => .pure rfl

end CallsAlike

namespace Schema.AnswerAlike

variable (h : AnswerAlike start related)

include h

theorem mirrors_addContextTag (number : Nat) (inner : CompiledType) :
    Mirrors related (·.Has inner) (·.Has inner) (· = ·) (addContextTag number inner)
      (addContextTag number inner) := by
  refine .bind_same (Keeps.ask _) (Keeps.ask _) (.ask ?_) fun isChoice => .get_bind ?_
  · rintro left right hleft hright hrelated hhas hhas'
    exact isUntaggedChoice_eq_of_has hleft hright hhas hhas' (h.describe hrelated _)
  · rintro left right - - hrelated - -
    simp only [h.size hrelated]
    exact .ok rfl (h.push hrelated ⟨rfl, _, rfl, rfl, _, _, _, rfl⟩)

theorem mirrors_addContextTags (number : Nat) (components : List (Component CompiledType)) :
    Mirrors related (fun schema => ∀ component ∈ components, schema.Has component.type)
      (fun schema => ∀ component ∈ components, schema.Has component.type) (· = ·)
      (addContextTags number components) (addContextTags number components) := by
  induction components generalizing number with
  | nil => exact .pure rfl
  | cons component rest ih =>
      have hkeeps : Keeps (fun schema => ∀ other ∈ component :: rest, schema.Has other.type)
          (addContextTag number component.type) fun _ schema =>
            ∀ other ∈ rest, schema.Has other.type := by
        intro before hconsistent hhas
        obtain ⟨hfirst, hrest⟩ := List.forall_mem_cons.mp hhas
        obtain ⟨hleads, hafter, -⟩ := keeps_addContextTag before number component.type before
          hconsistent ⟨hfirst, .refl before⟩
        exact ⟨hleads, hafter, fun _ _ => persists_forall_has rest _ _ hleads.toExtends hrest⟩
      refine .bind_same hkeeps hkeeps ((h.mirrors_addContextTag number component.type).imp
        (fun _ hhas => (List.forall_mem_cons.mp hhas).1)
          fun _ hhas => (List.forall_mem_cons.mp hhas).1) fun type => ?_
      have hlater : Keeps (fun schema => ∀ other ∈ rest, schema.Has other.type)
          (addContextTags (number + 1) rest) fun _ _ => True := by
        intro before hconsistent hhas
        obtain ⟨hleads, hafter, -⟩ := keeps_addContextTags before (number + 1) rest before
          hconsistent ⟨hhas, .refl before⟩
        exact ⟨hleads, hafter, fun _ _ => trivial⟩
      exact .bind_same hlater hlater (ih (number + 1)) fun _ => .pure rfl

theorem mirrors_tagAutomatically (components : List (Component CompiledType)) :
    Mirrors related (fun schema => ∀ component ∈ components, schema.Has component.type)
      (fun schema => ∀ component ∈ components, schema.Has component.type) (· = ·)
      (tagAutomatically components) (tagAutomatically components) := by
  have hpre (schema : Schema) (hhas : ∀ component ∈ components, schema.Has component.type) :
      ∀ component ∈ tagOrder components, schema.Has component.type :=
    fun component hmem => hhas component ((perm_tagOrder components).mem_iff.mp hmem)
  have hkeeps : Keeps (fun schema => ∀ component ∈ components, schema.Has component.type)
      (addContextTags 0 (tagOrder components)) fun _ _ => True := by
    intro before hconsistent hhas
    obtain ⟨hleads, hafter, -⟩ := keeps_addContextTags before 0 (tagOrder components) before
      hconsistent ⟨hpre before hhas, .refl before⟩
    exact ⟨hleads, hafter, fun _ _ => trivial⟩
  exact .bind_same hkeeps hkeeps ((h.mirrors_addContextTags 0 (tagOrder components)).imp hpre hpre)
    fun _ => .pure rfl

theorem mirrors_findAllTags (components : List (Component CompiledType)) :
    Mirrors related (fun schema => ∀ component ∈ components, schema.Has component.type)
      (fun schema => ∀ component ∈ components, schema.Has component.type) (· = ·)
      (components.mapM findTags) (components.mapM findTags) := by
  refine .mapM (persists_forall_has components)
    (fun component hmem => (keeps_findTags component).imp (fun _ hall => hall component hmem)
      fun _ _ _ => id) fun component hmem => ?_
  refine .bind_same (Keeps.ask _) (Keeps.ask _) (.ask ?_) fun _ => .pure rfl
  intro left right hleft hright hrelated hhas hhas'
  exact firstTags_eq_of_has hleft hright (hhas component hmem) (hhas' component hmem)
    (h.describe hrelated _)

theorem mirrors_completeLayout {collection other : CollectionDeclaration}
    (hkind : other.kind = collection.kind)
    (hextensible : other.isExtensible = collection.isExtensible)
    (components : List (Component CompiledType)) :
    Mirrors related (fun schema => ∀ component ∈ components, schema.Has component.type)
      (fun schema => ∀ component ∈ components, schema.Has component.type) (· = ·)
      (completeLayout collection components) (completeLayout other components) := by
  rw [completeLayout, completeLayout, hkind, hextensible]
  refine .bind_same (keeps_findAllTags components) (keeps_findAllTags components)
    (h.mirrors_findAllTags components) fun found => ?_
  exact .bind_same (Keeps.refuse _) (Keeps.refuse _) (.refuse _) fun _ => .pure rfl

end Schema.AnswerAlike

section Collections

variable {compileType : TypeCompiler}

theorem nameFault?_eq_of_isAlike {flat others : List FlatComponent}
    (h : List.Forall₂ (FlatComponent.IsAlike start) flat others) (seen : List String) :
    FlatComponent.nameFault? seen others = FlatComponent.nameFault? seen flat := by
  induction h generalizing seen with
  | nil => rfl
  | cons hfirst _ ih => rw [FlatComponent.nameFault?, FlatComponent.nameFault?, hfirst.name, ih]

theorem keeps_compileCollection_true (h : compileType.Compiles)
    (collection : CollectionDeclaration) :
    Keeps (fun _ => True) (compileCollection compileType collection) fun _ _ => True := by
  intro before hconsistent _
  obtain ⟨hleads, hafter, -⟩ :=
    keeps_compileCollection h before collection before hconsistent (.refl before)
  exact ⟨hleads, hafter, fun _ _ => trivial⟩

theorem keeps_declaredComponents_has (h : compileType.Compiles)
    (collection : CollectionDeclaration) :
    Keeps (fun _ => True) (declaredComponents compileType collection) fun declared schema =>
      (declared.2.map Component.index).Nodup ∧
        ∀ component ∈ declared.2, schema.Has component.type := by
  intro before hconsistent _
  obtain ⟨hleads, hafter, hresult⟩ :=
    keeps_declaredComponents h before collection before hconsistent (.refl before)
  refine ⟨hleads, hafter, fun declared hdeclared => ?_⟩
  obtain ⟨-, -, hcompiled⟩ := hresult declared hdeclared
  exact ⟨nodup_index_of_places hcompiled.places, hcompiled.types⟩

theorem keeps_tagAutomatically_has {components : List (Component CompiledType)}
    (hindexes : (components.map Component.index).Nodup) :
    Keeps (fun schema => ∀ component ∈ components, schema.Has component.type)
      (tagAutomatically components) fun tagged schema =>
        ∀ component ∈ tagged, schema.Has component.type := by
  intro before hconsistent hhas
  obtain ⟨hleads, hafter, hresult⟩ := keeps_tagAutomatically before components hindexes before
    hconsistent ⟨hhas, .refl before⟩
  exact ⟨hleads, hafter, fun tagged htagged => (hresult tagged htagged).1⟩

end Collections

namespace CallsAlike

variable (h : CallsAlike start related compileType)

include h

theorem mirrors_declaredComponents {includes : Nat → TypeRef → List FlatComponent → Prop}
    {alike : FlatComponent → FlatComponent → Prop} {collection other : CollectionDeclaration}
    (hincludes : ∀ {version reference part left right}, includes version reference part →
      related left right → left.Consistent →
        (rootComponentsOf compileType collection.kind version reference).outcome left =
          (.ok part, left))
    (hrefl : ∀ component, alike component component)
    (halike : ∀ {component other}, alike component other → component.IsAlike start other)
    (hcorresponds : collection.Corresponds includes alike other) :
    Mirrors related (fun _ => True) (fun _ => True)
      (fun declared declared' => List.Forall₂ alike declared.1 declared'.1 ∧
        declared'.2 = declared.2)
      (declaredComponents compileType collection) (declaredComponents compileType other) := by
  rw [declaredComponents, declaredComponents, hcorresponds.versionFault?, hcorresponds.kind]
  refine .bind_same (Keeps.refuse _) (Keeps.refuse _) (.refuse _) fun _ => ?_
  refine .bind (keeps_flatten h.compiles collection.kind collection.items).anywhere
    (keeps_flatten h.compiles collection.kind other.items).anywhere
      (h.mirrors_flatten hincludes hrefl hcorresponds.items).anywhere fun flat others hflat => ?_
  rw [nameFault?_eq_of_isAlike (hflat.imp fun _ _ => halike)]
  refine .bind_same (Keeps.refuse _) (Keeps.refuse _) (.refuse _) fun _ => ?_
  exact .bind_same (keeps_compileComponents h.compiles 0 flat).anywhere
    (keeps_compileComponents h.compiles 0 others).anywhere
      (h.mirrors_compileComponents 0 (hflat.imp fun _ _ => halike)).anywhere
        fun _ => .pure ⟨hflat, rfl⟩

theorem mirrors_compileCollection {includes : Nat → TypeRef → List FlatComponent → Prop}
    {alike : FlatComponent → FlatComponent → Prop} {collection other : CollectionDeclaration}
    (hincludes : ∀ {version reference part left right}, includes version reference part →
      related left right → left.Consistent →
        (rootComponentsOf compileType collection.kind version reference).outcome left =
          (.ok part, left))
    (hrefl : ∀ component, alike component component)
    (halike : ∀ {component other}, alike component other → component.IsAlike start other)
    (hcorresponds : collection.Corresponds includes alike other) :
    Mirrors related (fun _ => True) (fun _ => True) (· = ·)
      (compileCollection compileType collection) (compileCollection compileType other) := by
  rw [compileCollection_eq, compileCollection_eq]
  refine .bind (keeps_declaredComponents_has h.compiles collection)
    (keeps_declaredComponents_has h.compiles other)
      (h.mirrors_declaredComponents hincludes hrefl halike hcorresponds) ?_
  rintro ⟨flat, components⟩ ⟨others, components'⟩ ⟨hflat, rfl⟩
  simp only [hcorresponds.addsTags hflat]
  have hcomplete (tagged : List (Component CompiledType)) :=
    h.mirrors_completeLayout hcorresponds.kind hcorresponds.isExtensible tagged
  refine .assume (components'.map Component.index).Nodup (fun _ _ _ _ hbefore => hbefore.1)
    fun hindexes => .imp ?_ (fun _ hbefore => hbefore.2) fun _ hbefore => hbefore.2
  split
  · exact .bind_same (keeps_tagAutomatically_has hindexes) (keeps_tagAutomatically_has hindexes)
      (h.mirrors_tagAutomatically components') hcomplete
  · refine .bind_same (Keeps.pure components') (Keeps.pure components') (.pure rfl) fun tagged => ?_
    refine .assume (tagged = components') (fun _ _ _ _ hbefore => hbefore.1) ?_
    rintro rfl
    exact (hcomplete tagged).imp (fun _ hbefore => hbefore.2) fun _ hbefore => hbefore.2

theorem mirrors_compileDefinition (definition : Definition) :
    Mirrors related (fun _ => True) (fun _ => True) (· = ·)
      (compileDefinition compileType definition) (compileDefinition compileType definition) := by
  have hkeeps (reference : TypeRef) (target : Handle) :=
    (h.compiles.keeps_resolved reference target).imp
      (fun _ (hbefore : _ ∧ True) => hbefore.1) fun _ _ _ => id
  cases definition with
  | builtin builtin => exact .pure rfl
  | «alias» reference =>
      refine .bind_same (Keeps.ask _) (Keeps.ask _) (h.mirrors_resolve reference)
        fun target => ?_
      exact .bind_same (hkeeps reference target) (hkeeps reference target)
        (h.call target).anywhere fun _ => .pure rfl
  | tagged tag method reference =>
      refine .bind_same (Keeps.ask _) (Keeps.ask _) (h.mirrors_resolve reference)
        fun inner => ?_
      refine .bind_same (hkeeps reference inner) (hkeeps reference inner)
        (h.call inner).anywhere fun type => ?_
      cases method with
      | explicit => exact .pure rfl
      | implicit =>
          refine .bind_same (Keeps.ask _) (Keeps.ask _) (.ask ?_) fun isChoice => .pure rfl
          rintro left right hleft hright hrelated ⟨hhas, rfl, -⟩ ⟨hhas', -⟩
          exact isUntaggedChoice_eq_of_has hleft hright hhas hhas' (h.describe hrelated _)
  | collection collection =>
      have hkept := (keeps_compileCollection_true h.compiles collection)
      have hincludes {version : Nat} {reference : TypeRef} {part : List FlatComponent}
          {left right : Schema} (hnone : False) : related left right → left.Consistent →
            (rootComponentsOf compileType collection.kind version reference).outcome left =
              (.ok part, left) :=
        hnone.elim
      exact .bind_same hkept hkept (h.mirrors_compileCollection hincludes (fun _ => rfl)
        (fun heq => heq ▸ .refl start _) (.refl _ collection)) fun _ => .pure rfl

end CallsAlike

section Nodes

variable {place handle : Handle} {allowed : SchemaNode → SchemaNode → Prop} {marked : List Handle}
  {node : SchemaNode}

/-- A type other than the one in which the schemas differ is marked and settled in both. -/
theorem mirrors_compileNode (hcalls : CallsAlike start
      (DiffersAt start place allowed (handle :: marked)) compileType) (hne : handle ≠ place) :
    Mirrors (DiffersAt start place allowed marked)
      (fun schema => schema.node? handle = some node ∧ node.status = .declared) (fun _ => True)
      (· = ·) (compileNode compileType handle node) (compileNode compileType handle node) := by
  rintro left right hleft hright hdiffers ⟨hnode, hdeclared⟩ -
  have hnode' := (hdiffers.node?_eq hne).trans hnode
  have hmark := extends_mark hnode hdeclared
  have hmarked := hleft.mark hnode hdeclared
  have hstart := hdiffers.compiling.declared hnode hdeclared
  have hextends := hdiffers.compiling.toExtends.trans hmark
  have hnew := hdiffers.not_mem_of_ne hnode (by simp [hdeclared])
  obtain ⟨hleads, -, hresult⟩ :=
    keeps_compileDefinition hcalls.compiles start node.declaration.definition _ hmarked hextends
  have hmirrored := hcalls.mirrors_compileDefinition node.declaration.definition _ _ hmarked
    (hright.mark hnode' hdeclared) (hdiffers.mark hnode hdeclared hne) trivial trivial
  have hsame := node?_marked hnode hleads
  rw [outcome_compileNode, outcome_compileNode]
  generalize (compileDefinition compileType node.declaration.definition).outcome
    (left.withNode handle { node with status := .validating }) = first at *
  generalize (compileDefinition compileType node.declaration.definition).outcome
    (right.withNode handle { node with status := .validating }) = second at hmirrored
  cases hmirrored with
  | error error after last => exact .error _ _ _
  | @ok compiled _ after last hresults hdiffers =>
      obtain rfl := hresults
      have helaborates := hresult _ rfl
      have hcomplete := extends_complete hsame helaborates
      exact .ok rfl (hdiffers.settle hnew hstart hsame hcomplete rfl
        (helaborates.resolvesTo.mono hcomplete) rfl trivial hne)

/-- Whatever is compiled, both schemas do the same if they do so where they come to the type in
which they differ. -/
theorem mirrors_compileWithin
    (hanswers : ∀ marked, AnswerAlike start (DiffersAt start place allowed marked))
    (hplace : ∀ steps marked, marked.Nodup → start.nodes.size < steps + marked.length →
      Mirrors (DiffersAt start place allowed marked) (fun _ => True) (fun _ => True) (· = ·)
        (compileWithin steps place) (compileWithin steps place))
    (steps : Nat) (hnodup : marked.Nodup) (hsteps : start.nodes.size < steps + marked.length) :
    Mirrors (DiffersAt start place allowed marked) (fun _ => True) (fun _ => True) (· = ·)
      (compileWithin steps handle) (compileWithin steps handle) := by
  induction steps generalizing marked handle with
  | zero =>
      rintro left right - - hdiffers - -
      change Mirrored _ _ (.error (.cyclicDefinition (left.describe handle)), left)
        (.error (.cyclicDefinition (right.describe handle)), right)
      rw [hdiffers.describe_eq]
      exact .error _ _ _
  | succ steps ih =>
      by_cases hne : handle = place
      · exact hne ▸ hplace (steps + 1) marked hnodup hsteps
      rintro left right hleft hright hdiffers - -
      rw [outcome_compileWithin_succ, outcome_compileWithin_succ, hdiffers.node?_eq hne,
        hdiffers.describe_eq]
      cases hnode : left.node? handle with
      | none => exact .error _ _ _
      | some node =>
          obtain ⟨name?, declaration, status⟩ := node
          cases status with
          | compiled type => exact .ok rfl hdiffers
          | failed => exact .error _ _ _
          | validating => exact .error _ _ _
          | declared =>
              have hnew := hdiffers.not_mem_of_ne hnode (by simp)
              exact mirrors_compileNode ⟨hanswers _,
                compiles_compileWithin steps, fun target => ih (List.nodup_cons.mpr ⟨hnew, hnodup⟩)
                  (by rw [List.length_cons]; omega)⟩ hne left right hleft hright hdiffers
                    ⟨hnode, rfl⟩ trivial

end Nodes

end Compiling

end Asn1

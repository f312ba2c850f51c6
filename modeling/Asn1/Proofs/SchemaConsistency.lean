import Asn1.Proofs.Conforming
import Asn1.Proofs.DeclaredLayouts

/-!
Consistent schemas: what is recorded about a compiled type agrees with its declaration and with the
types it was compiled from. In a consistent schema the tags that the schema finds for a compiled
type are those of its compiled form.
-/

namespace Asn1

open Results

/-- Whether a declaration, with its references resolved, is that of a compiled form. -/
def Definition.Describes : Definition → TypeForm CompiledType → Prop
  | .builtin b, .builtin b' => b = b'
  | .alias target, .alias type => target = .handle type.handle
  | .tagged tag method inner, .tagged tag' method' type =>
    tag = tag' ∧ method = method' ∧ inner = .handle type.handle
  | .collection declared, .collection layout =>
    layout.kind = declared.kind ∧ layout.extensible = declared.isExtensible
  | _, _ => False

@[elab_as_elim]
theorem Definition.Describes.induct
    {motive : ∀ definition form, Definition.Describes definition form → Prop}
    {definition : Definition} {form : TypeForm CompiledType} (h : definition.Describes form)
    (builtin : ∀ builtin, motive (.builtin builtin) (.builtin builtin) rfl)
    («alias» : ∀ target : CompiledType,
      motive (.alias (.handle target.handle)) (.alias target) rfl)
    (tagged : ∀ tag method (inner : CompiledType),
      motive (.tagged tag method (.handle inner.handle)) (.tagged tag method inner)
        ⟨rfl, rfl, rfl⟩)
    (collection : ∀ collection (layout : Layout CompiledType)
      (hkind : layout.kind = collection.kind)
      (hextensible : layout.extensible = collection.isExtensible),
        motive (.collection collection) (.collection layout) ⟨hkind, hextensible⟩) :
    motive definition form h := by
  cases definition <;> cases form <;> try exact h.elim
  · obtain rfl := h
    exact builtin _
  · obtain rfl := h
    exact «alias» _
  · obtain ⟨rfl, rfl, rfl⟩ := h
    exact tagged _ _ _
  · exact collection _ _ h.1 h.2

/-- Whether the tags in a layout are those that encodings of its components can start with. -/
def Layout.HasFirstTags (layout : Layout CompiledType) : Prop :=
  ∀ component ∈ layout.components, component.tags = component.type.firstTags

/-- Whether this holds of all layouts in a type. -/
def CompiledType.HasFirstTags (type : CompiledType) : Prop :=
  ∀ inner, type.Reaches inner → ∀ layout, inner.form = .collection layout → layout.HasFirstTags

theorem CompiledType.HasFirstTags.of_mk {info : TypeInfo} {form : TypeForm CompiledType}
    (h : CompiledType.HasFirstTags ⟨info, form⟩) :
    (∀ layout, form = .collection layout → layout.HasFirstTags) ∧
      ∀ inner ∈ form.types, inner.HasFirstTags :=
  forall_reaches_mk_iff.mp h

/-- Whether operations on the values of a form find what they need: a component for the elements of
a list, and nothing but the tags of its alternatives in front of a CHOICE. -/
def TypeForm.IsSound : TypeForm CompiledType → Prop
  | .builtin _ | .alias _ | .tagged _ .explicit _ => True
  | .tagged _ .implicit inner => inner.isUntaggedChoice = false
  | .collection layout => layout.kind.isList = true → layout.element? ≠ none

/-- Whether this holds of all forms in a type. -/
def CompiledType.IsSound (type : CompiledType) : Prop :=
  ∀ inner, type.Reaches inner → inner.form.IsSound

theorem CompiledType.IsSound.of_mk {info : TypeInfo} {form : TypeForm CompiledType}
    (h : CompiledType.IsSound ⟨info, form⟩) :
    form.IsSound ∧ ∀ inner ∈ form.types, inner.IsSound :=
  forall_reaches_mk_iff.mp h

namespace Schema

/-- What holds of a compiled type that a consistent schema records under a handle. -/
structure Holds (schema : Schema) (handle : Handle) (type : CompiledType) : Prop where
  node : ∃ node, schema.node? handle = some node ∧
    type.info = ⟨handle, node.name?, node.declaration.constraints⟩ ∧
    node.declaration.definition.Describes type.form
  types : ∀ inner ∈ type.form.types, schema.compiled inner.handle = .ok inner
  regular : ∀ layout, type.form = .collection layout → layout.IsRegular
  firstTags : ∀ layout, type.form = .collection layout → layout.HasFirstTags
  sound : type.form.IsSound
  grounded : schema.Grounded handle
  declared : ∀ layout, type.form = .collection layout →
    ∀ component ∈ layout.components, schema.OffersBase component.declared
  laidOut : ∀ layout, type.form = .collection layout → ∃ collection,
    schema.definition? handle = some (.collection collection) ∧
      schema.Arranges collection layout.components ∧
      (schema.TagsAutomatically collection → schema.LaysOut collection layout.components)

def Consistent (schema : Schema) : Prop :=
  ∀ handle type, schema.compiled handle = .ok type → schema.Holds handle type

variable {schema : Schema} {handle : Handle} {type : CompiledType}

theorem accept_eq_ok_iff {value : Value}
    (hcompiled : schema.compiled handle = .ok type) :
    schema.accept handle value = .ok () ↔
      type.accept schema.values (.top schema.view) value = .ok () := by
  rw [Schema.accept, hcompiled]
  rfl

theorem canonicalize_eq_ok_iff {value : Value} {form : CanonicalForm}
    (hcompiled : schema.compiled handle = .ok type) :
    schema.canonicalize handle value = .ok form ↔
      (∃ resolved, schema.values.resolve value = .ok resolved) ∧
        type.canonicalize schema.values (.top schema.view) value = .ok form := by
  rw [canonicalize, bind_unit_eq_ok_iff, discard_eq_ok_iff, hcompiled]
  rfl

theorem Holds.handle_eq (h : schema.Holds handle type) : type.handle = handle := by
  obtain ⟨node, -, hinfo, -⟩ := h.node
  rw [CompiledType.handle, hinfo]

theorem Consistent.compiled_handle (h : schema.Consistent)
    (hcompiled : schema.compiled handle = .ok type) : schema.compiled type.handle = .ok type := by
  rw [(h handle type hcompiled).handle_eq]
  exact hcompiled

theorem Consistent.compiled_of_reaches (h : schema.Consistent)
    (hcompiled : schema.compiled handle = .ok type) {inner : CompiledType}
    (hreaches : type.Reaches inner) : schema.compiled inner.handle = .ok inner := by
  induction hreaches with
  | refl => exact h.compiled_handle hcompiled
  | tail _ hdepends ih => exact (h _ _ ih).types _ hdepends

theorem Consistent.isRegular (h : schema.Consistent)
    (hcompiled : schema.compiled handle = .ok type) : type.IsRegular := by
  intro inner hreaches layout hform
  exact (h _ _ (h.compiled_of_reaches hcompiled hreaches)).regular layout hform

theorem Consistent.hasFirstTags (h : schema.Consistent)
    (hcompiled : schema.compiled handle = .ok type) : type.HasFirstTags := by
  intro inner hreaches layout hform
  exact (h _ _ (h.compiled_of_reaches hcompiled hreaches)).firstTags layout hform

theorem Consistent.isSound (h : schema.Consistent)
    (hcompiled : schema.compiled handle = .ok type) : type.IsSound := by
  intro inner hreaches
  exact (h _ _ (h.compiled_of_reaches hcompiled hreaches)).sound

theorem definition?_of_holds (h : schema.Holds handle type) :
    ∃ definition, schema.definition? handle = some definition ∧ definition.Describes type.form := by
  obtain ⟨node, hnode, -, hdescribes⟩ := h.node
  exact ⟨node.declaration.definition, by simp [definition?, hnode], hdescribes⟩

/-- What an alias stands for. -/
def aliasTarget? : Definition → Option TypeRef
  | .alias target => some target
  | _ => none

theorem skipAliases_eq_bind (schema : Schema) (handle : Handle) :
    schema.skipAliases handle =
      schema.resolve (.handle handle) >>= schema.follow aliasTarget? handle maxChain := by
  rw [skipAliases]
  rfl

theorem skipAliases_eq_ok_iff {base : Handle} :
    schema.skipAliases handle = .ok base ↔ (schema.node? handle).isSome = true ∧
      schema.follow aliasTarget? handle maxChain handle = .ok base := by
  rw [skipAliases_eq_bind, bind_eq_ok_iff]
  simp only [resolve_handle_eq_ok_iff]
  constructor
  · rintro ⟨_, ⟨rfl, hnode⟩, hfollow⟩
    exact ⟨hnode, hfollow⟩
  · rintro ⟨hnode, hfollow⟩
    exact ⟨handle, ⟨rfl, hnode⟩, hfollow⟩

theorem Consistent.follow_eq (h : schema.Consistent)
    (hcompiled : schema.compiled handle = .ok type) (origin : Handle) (count : Nat) :
    schema.follow aliasTarget? origin count handle =
      match type.aliasBase? count with
      | some base => .ok base.handle
      | none => .error (.cyclicDefinition (schema.describe origin)) := by
  induction count generalizing handle type with
  | zero => rfl
  | succ count ih =>
      have hholds := h _ _ hcompiled
      have hself := hholds.handle_eq
      obtain ⟨info, form⟩ := type
      obtain ⟨definition, hdefinition, hdescribes : definition.Describes form⟩ :=
        definition?_of_holds hholds
      rw [follow, hdefinition]
      cases hdescribes using Definition.Describes.induct with
      | «alias» inner =>
          have hinner := hholds.types inner TypeForm.target_mem_types
          obtain ⟨node, hnode, -⟩ := compiled_eq_ok_iff.mp hinner
          have hresolve : schema.resolve (.handle inner.handle) = .ok inner.handle :=
            resolve_handle_eq_ok_iff.mpr ⟨rfl, by simp [hnode]⟩
          simp only [Option.bind_some, aliasTarget?, hresolve]
          exact ih hinner
      | _ => exact congrArg Except.ok hself.symm

theorem Consistent.follow_aliases (h : schema.Consistent)
    (hcompiled : schema.compiled handle = .ok type) {origin base : Handle} {count : Nat}
    (hfollow : schema.follow aliasTarget? origin count handle = .ok base) :
    ∃ found, schema.compiled base = .ok found ∧ type.StandsFor found ∧
      ∀ target, found.form ≠ .alias target := by
  rw [h.follow_eq hcompiled] at hfollow
  cases hbase : type.aliasBase? count with
  | none =>
      rw [hbase] at hfollow
      contradiction
  | some found =>
      rw [hbase] at hfollow
      obtain rfl := Except.ok.inj hfollow
      obtain ⟨hstands, hnot⟩ := CompiledType.standsFor_of_aliasBase? hbase
      exact ⟨found, h.compiled_of_reaches hcompiled hstands.reaches, hstands, hnot⟩

theorem Consistent.skipAliases_eq_ok_iff_of_compiled (h : schema.Consistent)
    (hcompiled : schema.compiled handle = .ok type) {base : Handle} :
    schema.skipAliases handle = .ok base ↔
      ∃ found, type.aliasBase? maxChain = some found ∧ found.handle = base := by
  obtain ⟨node, hnode, -⟩ := compiled_eq_ok_iff.mp hcompiled
  rw [Schema.skipAliases_eq_ok_iff, h.follow_eq hcompiled, hnode]
  cases type.aliasBase? maxChain <;> simp

theorem skipAliases_of_collection {collection : CollectionDeclaration}
    (h : schema.definition? handle = some (.collection collection)) :
    schema.skipAliases handle = .ok handle := by
  obtain ⟨node, hnode, -⟩ := definition?_eq_some_iff.mp h
  refine skipAliases_eq_ok_iff.mpr ⟨by simp [hnode], ?_⟩
  rw [maxChain, follow, h]
  rfl

theorem layout?_of_collection {collection : CollectionDeclaration}
    (h : schema.definition? handle = some (.collection collection)) :
    schema.layout? handle = (schema.compiled handle).toOption.bind CompiledType.layout? := by
  rw [layout?, skipAliases_of_collection h]
  rfl

theorem Consistent.layout?_eq_some (h : schema.Consistent) {info : TypeInfo}
    {layout : Layout CompiledType}
    (hcompiled : schema.compiled handle = .ok ⟨info, .collection layout⟩) :
    schema.layout? handle = some layout := by
  obtain ⟨definition, hdefinition, hdescribes⟩ := definition?_of_holds (h _ _ hcompiled)
  cases definition with
  | collection collection =>
      rw [layout?_of_collection hdefinition, hcompiled]
      rfl
  | _ => exact hdescribes.elim

theorem Consistent.layout?_eq_of_aliasBase? (h : schema.Consistent) {base : CompiledType}
    (hcompiled : schema.compiled handle = .ok type)
    (hbase : type.aliasBase? maxChain = some base) :
    schema.layout? base.handle = base.layout? := by
  obtain ⟨hstands, hnot⟩ := CompiledType.standsFor_of_aliasBase? hbase
  have hfound := h.compiled_of_reaches hcompiled hstands.reaches
  have hskip := (h.skipAliases_eq_ok_iff_of_compiled hfound).mpr
    ⟨base, CompiledType.aliasBase?_of_not_alias hnot, rfl⟩
  rw [layout?, hskip]
  simp only [Except.toOption, Option.bind_some, hfound]

theorem Consistent.hasBase_of_skipAliases (h : schema.Consistent)
    (hcompiled : schema.compiled handle = .ok type) {base : Handle}
    (hskip : schema.skipAliases handle = .ok base) : type.HasBase := by
  obtain ⟨found, hfound, -⟩ := (h.skipAliases_eq_ok_iff_of_compiled hcompiled).mp hskip
  exact ⟨found, hfound⟩

theorem Consistent.exists_base (h : schema.Consistent)
    (hcompiled : schema.compiled handle = .ok type) (hbase : type.HasBase) :
    ∃ info form definition, schema.skipAliases handle = .ok info.handle ∧
      type.StandsFor ⟨info, form⟩ ∧ (∀ target, form ≠ .alias target) ∧
        schema.compiled info.handle = .ok ⟨info, form⟩ ∧
          schema.definition? info.handle = some definition ∧ definition.Describes form := by
  obtain ⟨⟨info, form⟩, hbase⟩ := hbase
  have hskip := (h.skipAliases_eq_ok_iff_of_compiled hcompiled).mpr ⟨_, hbase, rfl⟩
  obtain ⟨hstands, hnot⟩ := CompiledType.standsFor_of_aliasBase? hbase
  have hfound := h.compiled_of_reaches hcompiled hstands.reaches
  obtain ⟨definition, hdefinition, hdescribes⟩ := definition?_of_holds (h _ _ hfound)
  exact ⟨info, form, definition, hskip, hstands, hnot, hfound, hdefinition, hdescribes⟩

theorem Consistent.firstTags_eq_ok (h : schema.Consistent)
    (hcompiled : schema.compiled handle = .ok type) (hbase : type.HasBase) :
    schema.firstTags handle = .ok type.firstTags := by
  obtain ⟨info, form, definition, hskip, hstands, hnot, hfound, hdefinition, hdescribes⟩ :=
    h.exists_base hcompiled hbase
  rw [Schema.firstTags, hskip, ← hstands.firstTags_eq]
  simp only [bind, Except.bind, hdefinition]
  cases hdescribes using Definition.Describes.induct with
  | builtin builtin =>
      rw [CompiledType.firstTags_builtin]
      rfl
  | «alias» target => exact absurd rfl (hnot target)
  | tagged tag method inner =>
      rw [CompiledType.firstTags_tagged]
      rfl
  | collection collection layout hkind =>
      rw [CompiledType.firstTags_collection, hkind]
      simp only [h.layout?_eq_some hfound]
      cases collection.kind.tag? <;> rfl

theorem Consistent.firstTags_eq_ok_iff (h : schema.Consistent)
    (hcompiled : schema.compiled handle = .ok type) {tags : List Tag} :
    schema.firstTags handle = .ok tags ↔ type.HasBase ∧ tags = type.firstTags := by
  constructor
  · intro htags
    obtain ⟨base, hskip, -⟩ := bind_eq_ok_iff.mp htags
    have hbase := h.hasBase_of_skipAliases hcompiled hskip
    exact ⟨hbase, Except.ok.inj (htags.symm.trans (h.firstTags_eq_ok hcompiled hbase))⟩
  · rintro ⟨hbase, rfl⟩
    exact h.firstTags_eq_ok hcompiled hbase

theorem Consistent.isUntaggedChoice_eq_ok (h : schema.Consistent)
    (hcompiled : schema.compiled handle = .ok type) (hbase : type.HasBase) :
    schema.isUntaggedChoice handle = .ok type.isUntaggedChoice := by
  obtain ⟨info, form, definition, hskip, hstands, hnot, -, hdefinition, hdescribes⟩ :=
    h.exists_base hcompiled hbase
  rw [Schema.isUntaggedChoice, hskip, ← hstands.isUntaggedChoice_eq]
  simp only [bind, Except.bind, hdefinition]
  cases hdescribes using Definition.Describes.induct with
  | builtin builtin =>
      rw [CompiledType.isUntaggedChoice_builtin]
      rfl
  | «alias» target => exact absurd rfl (hnot target)
  | tagged tag method inner =>
      rw [CompiledType.isUntaggedChoice_tagged]
      rfl
  | collection collection layout hkind =>
      rw [CompiledType.isUntaggedChoice_collection, hkind]
      rfl

theorem Consistent.isUntaggedChoice_eq_ok_iff (h : schema.Consistent)
    (hcompiled : schema.compiled handle = .ok type) {isChoice : Bool} :
    schema.isUntaggedChoice handle = .ok isChoice ↔
      type.HasBase ∧ isChoice = type.isUntaggedChoice := by
  constructor
  · intro hchoice
    obtain ⟨base, hskip, -⟩ := bind_eq_ok_iff.mp hchoice
    have hbase := h.hasBase_of_skipAliases hcompiled hskip
    exact ⟨hbase, Except.ok.inj (hchoice.symm.trans (h.isUntaggedChoice_eq_ok hcompiled hbase))⟩
  · rintro ⟨hbase, rfl⟩
    exact h.isUntaggedChoice_eq_ok hcompiled hbase

end Schema

end Asn1

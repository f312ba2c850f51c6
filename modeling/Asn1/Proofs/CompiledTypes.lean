import Asn1.CompiledType
import Mathlib.Data.List.Chain
import Mathlib.Logic.Relation

namespace Asn1

namespace TypeForm

variable {ρ σ τ : Type}

theorem map_map (f : ρ → σ) (g : σ → τ) (form : TypeForm ρ) :
    (form.map f).map g = form.map fun type => g (f type) := by
  cases form with
  | collection layout =>
      simp only [map, Layout.map, List.map_map]
      rfl
  | _ => rfl

theorem types_map (f : σ → τ) (form : TypeForm σ) : (form.map f).types = form.types.map f := by
  cases form with
  | collection layout =>
      simp only [map, types, Layout.map, List.map_map]
      rfl
  | _ => rfl

theorem target_mem_types {target : τ} : target ∈ (TypeForm.alias target).types :=
  List.mem_singleton_self target

theorem inner_mem_types {tag : Tag} {method : TagMethod} {inner : τ} :
    inner ∈ (TypeForm.tagged tag method inner).types :=
  List.mem_singleton_self inner

theorem type_mem_types {layout : Layout τ} {component : Component τ}
    (h : component ∈ layout.components) : component.type ∈ (TypeForm.collection layout).types :=
  List.mem_map_of_mem h

end TypeForm

theorem CollectionKind.tag?_eq_none_iff {kind : CollectionKind} :
    kind.tag? = none ↔ kind = .choice := by
  cases kind <;> simp [tag?]

theorem CollectionKind.isList_of_choice {kind : CollectionKind} (h : kind = .choice) :
    kind.isList = false := by
  rw [h]
  rfl

namespace CompiledType

@[elab_as_elim]
theorem formInduct {motive : CompiledType → Prop}
    (builtin : ∀ info builtin, motive ⟨info, .builtin builtin⟩)
    («alias» : ∀ info target, motive target → motive ⟨info, .alias target⟩)
    (tagged : ∀ info tag method inner, motive inner → motive ⟨info, .tagged tag method inner⟩)
    (collection : ∀ info layout, (∀ component ∈ layout.components, motive component.type) →
      motive ⟨info, .collection layout⟩)
    (type : CompiledType) : motive type := by
  induction type using CompiledType.induct with
  | mk info form ih =>
      cases form with
      | builtin leaf => exact builtin info leaf
      | «alias» target => exact «alias» info target (ih target TypeForm.target_mem_types)
      | tagged tag method inner =>
          exact tagged info tag method inner (ih inner TypeForm.inner_mem_types)
      | collection layout =>
          exact collection info layout fun component hmem =>
            ih component.type (TypeForm.type_mem_types hmem)

/-- Whether the form of one type holds the other. -/
def DependsOn (outer inner : CompiledType) : Prop :=
  inner ∈ outer.form.types

/-- Whether a type is the other one or leads to it through the types that it holds. -/
def Reaches : CompiledType → CompiledType → Prop :=
  Relation.ReflTransGen DependsOn

theorem Reaches.refl (type : CompiledType) : type.Reaches type :=
  Relation.ReflTransGen.refl

theorem Reaches.of_mem {info : TypeInfo} {form : TypeForm CompiledType} {inner type : CompiledType}
    (hmem : inner ∈ form.types) (h : inner.Reaches type) : Reaches ⟨info, form⟩ type :=
  Relation.ReflTransGen.head hmem h

/-- What holds of all types in a type holds of the type and of all types in those it holds. -/
theorem forall_reaches_mk_iff {property : CompiledType → Prop} {info : TypeInfo}
    {form : TypeForm CompiledType} :
    (∀ type, Reaches ⟨info, form⟩ type → property type) ↔
      property ⟨info, form⟩ ∧
        ∀ inner ∈ form.types, ∀ type, inner.Reaches type → property type := by
  constructor
  · intro h
    exact ⟨h _ (Reaches.refl _), fun inner hmem type hreaches => h type (.of_mem hmem hreaches)⟩
  · rintro ⟨hself, hinner⟩ type hreaches
    rcases Relation.ReflTransGen.cases_head hreaches with rfl | ⟨inner, hmem, hrest⟩
    · exact hself
    · exact hinner inner hmem type hrest

/-- Whether no chain of types, each of which holds the next one, is longer than the limit. -/
def NestsWithin (limit : Nat) (type : CompiledType) : Prop :=
  ∀ chain, List.IsChain DependsOn (type :: chain) → (type :: chain).length ≤ limit

theorem nestsWithin_mk_iff {limit : Nat} {info : TypeInfo} {form : TypeForm CompiledType} :
    NestsWithin limit ⟨info, form⟩ ↔
      ∃ rest, limit = rest + 1 ∧ ∀ inner ∈ form.types, NestsWithin rest inner := by
  constructor
  · intro h
    have hpos : 1 ≤ limit := h [] (.singleton _)
    obtain ⟨rest, rfl⟩ := Nat.exists_eq_add_of_le' hpos
    refine ⟨rest, rfl, ?_⟩
    intro inner hmem chain hchain
    have hlen := h (inner :: chain) (.cons_cons hmem hchain)
    simpa using hlen
  · rintro ⟨rest, rfl, hinner⟩ chain hchain
    cases hchain with
    | singleton => exact Nat.le_add_left _ _
    | cons_cons hmem hchain => exact Nat.succ_le_succ (hinner _ hmem _ hchain)

/-- The tags that an encoding of a type can start with, given those of the types it holds. -/
def firstTagsStep (_ : TypeInfo) : TypeForm (Unit → List Tag) → Unit → List Tag
  | .builtin builtin, _ => [builtin.tag]
  | .alias target, _ => target ()
  | .tagged tag _ _, _ => [tag]
  | .collection layout, _ =>
    match layout.kind.tag? with
    | some tag => [tag]
    | none => layout.components.flatMap Component.tags

/-- The tags that an encoding of a type can start with. -/
def firstTags (type : CompiledType) : List Tag :=
  type.interpret firstTagsStep ()

theorem firstTags_builtin (info : TypeInfo) (builtin : Builtin) :
    firstTags ⟨info, .builtin builtin⟩ = [builtin.tag] := by
  rw [firstTags, interpret_mk]
  rfl

theorem firstTags_alias (info : TypeInfo) (target : CompiledType) :
    firstTags ⟨info, .alias target⟩ = target.firstTags := by
  rw [firstTags, interpret_mk]
  rfl

theorem firstTags_tagged (info : TypeInfo) (tag : Tag) (method : TagMethod) (inner : CompiledType) :
    firstTags ⟨info, .tagged tag method inner⟩ = [tag] := by
  rw [firstTags, interpret_mk]
  rfl

theorem firstTags_collection (info : TypeInfo) (layout : Layout CompiledType) :
    firstTags ⟨info, .collection layout⟩ =
      match layout.kind.tag? with
      | some tag => [tag]
      | none => layout.components.flatMap Component.tags := by
  have hmap (f : CompiledType → Unit → List Tag) :
      (layout.components.map (Component.map f)).flatMap Component.tags =
        layout.components.flatMap Component.tags := by
    rw [List.flatMap_map]
    rfl
  rw [firstTags, interpret_mk]
  change (match layout.kind.tag? with
    | some tag => [tag]
    | none => (layout.components.map (Component.map _)).flatMap Component.tags) = _
  rw [hmap]

/-- Whether a type is a CHOICE without a tag of its own, given whether the types it holds are. -/
def isUntaggedChoiceStep (_ : TypeInfo) : TypeForm (Unit → Bool) → Unit → Bool
  | .builtin _, _ => false
  | .alias target, _ => target ()
  | .tagged _ _ _, _ => false
  | .collection layout, _ => layout.kind = .choice

/-- Whether a type is a CHOICE without a tag of its own. -/
def isUntaggedChoice (type : CompiledType) : Bool :=
  type.interpret isUntaggedChoiceStep ()

theorem isUntaggedChoice_builtin (info : TypeInfo) (builtin : Builtin) :
    isUntaggedChoice ⟨info, .builtin builtin⟩ = false := by
  rw [isUntaggedChoice, interpret_mk]
  rfl

theorem isUntaggedChoice_alias (info : TypeInfo) (target : CompiledType) :
    isUntaggedChoice ⟨info, .alias target⟩ = target.isUntaggedChoice := by
  rw [isUntaggedChoice, interpret_mk]
  rfl

theorem isUntaggedChoice_tagged (info : TypeInfo) (tag : Tag) (method : TagMethod)
    (inner : CompiledType) : isUntaggedChoice ⟨info, .tagged tag method inner⟩ = false := by
  rw [isUntaggedChoice, interpret_mk]
  rfl

theorem isUntaggedChoice_collection (info : TypeInfo) (layout : Layout CompiledType) :
    isUntaggedChoice ⟨info, .collection layout⟩ = decide (layout.kind = .choice) := by
  rw [isUntaggedChoice, interpret_mk]
  rfl

end CompiledType

namespace Layout

variable {σ τ : Type} (f : σ → τ) (layout : Layout σ)

@[simp]
theorem kind_map : (layout.map f).kind = layout.kind :=
  rfl

theorem find?_map_component (components : List (Component σ)) (p : Component σ → Bool)
    (q : Component τ → Bool) (h : ∀ component, q (component.map f) = p component) :
    (components.map (Component.map f)).find? q = (components.find? p).map (Component.map f) := by
  rw [List.find?_map]
  congr 2
  funext component
  exact h component

theorem component?_map (name : String) :
    (layout.map f).component? name = (layout.component? name).map (Component.map f) := by
  apply find?_map_component f layout.components _ _
  intro _
  rfl

theorem componentByTag?_map (tag : Tag) :
    (layout.map f).componentByTag? tag = (layout.componentByTag? tag).map (Component.map f) := by
  apply find?_map_component f layout.components _ _
  intro _
  rfl

theorem componentByTagFrom?_map (start : Nat) (tag : Tag) :
    (layout.map f).componentByTagFrom? start tag =
      (layout.componentByTagFrom? start tag).map (Component.map f) := by
  change ((layout.components.map (Component.map f)).drop start).find? _ = _
  rw [← List.map_drop]
  exact find?_map_component f _ _ _ fun _ => rfl

theorem element?_map : (layout.map f).element? = layout.element?.map (Component.map f) := by
  change (layout.components.map (Component.map f)).head? = _
  rw [List.head?_map]
  rfl

theorem element?_map_of_some {layout : Layout σ} {element : Component σ}
    (h : layout.element? = some element) :
    (layout.map f).element? = some (element.map f) := by
  rw [element?_map, h, Option.map_some]

theorem isAllOptional_map : (layout.map f).isAllOptional = layout.isAllOptional := by
  change (layout.components.map (Component.map f)).all _ = _
  rw [List.all_map]
  rfl

theorem extensionRange?_map : (layout.map f).extensionRange? = layout.extensionRange? := by
  have hindexes : ((layout.map f).components.filter Component.isAddition).map Component.index =
      (layout.components.filter Component.isAddition).map Component.index := by
    change ((layout.components.map (Component.map f)).filter Component.isAddition).map _ = _
    rw [List.filter_map, List.map_map]
    rfl
  rw [extensionRange?, hindexes]
  rfl

theorem allowsUnknown_map (previous? : Option Nat) :
    (layout.map f).allowsUnknown previous? = layout.allowsUnknown previous? := by
  have hrange : (layout.map f).inExtensionRange = layout.inExtensionRange := by
    funext index
    rw [inExtensionRange, extensionRange?_map]
    rfl
  rw [allowsUnknown, hrange]
  rfl

theorem missingRequired?_map (after? before? : Option Nat) (version : Nat) :
    (layout.map f).missingRequired? after? before? version =
      (layout.missingRequired? after? before? version).map (Component.map f) := by
  have hlength : (layout.map f).components.length = layout.components.length :=
    List.length_map _
  rw [missingRequired?, missingRequired?, hlength]
  split
  · change (((layout.components.map (Component.map f)).take _).drop _).find? _ = _
    rw [← List.map_take, ← List.map_drop]
    exact find?_map_component f _ _ _ fun _ => rfl
  · rfl

theorem mem_components_of_element? {τ : Type} {layout : Layout τ} {element : Component τ}
    (h : layout.element? = some element) : element ∈ layout.components :=
  List.mem_of_head? h

end Layout

end Asn1

import Asn1.Layout.Ambiguity
import Asn1.Proofs.LayoutVersions
import Asn1.Proofs.Lookups

/-!
Compiled types up to the handles that were given out last. Automatic tagging adds types while others
are being compiled, so that their handles depend on what has been compiled before. Nothing that is
asked of a compiled type depends on the handles of such types, which just put a tag on another one.
-/

namespace Asn1

section Maps

variable {σ τ : Type} (f : σ → τ)

theorem throughRequired_map (components : List (Component σ)) :
    throughRequired (components.map (Component.map f)) =
      (throughRequired components).map (Component.map f) := by
  induction components with
  | nil => rfl
  | cons component rest ih =>
      rw [List.map_cons, throughRequired, throughRequired, ih]
      change (if component.isRequired then _ else _) = _
      split <;> rfl

theorem clash?_map (components : List (Component σ)) :
    clash? (components.map (Component.map f)) = clash? components := by
  rw [clash?, clash?, namedTags, namedTags, List.flatMap_map]
  rfl

theorem runClash?_map (components : List (Component σ)) :
    runClash? (components.map (Component.map f)) = runClash? components := by
  induction components with
  | nil => rfl
  | cons component rest ih =>
      rw [List.map_cons, runClash?, runClash?, ih, ← List.map_cons, throughRequired_map, clash?_map]
      rfl

theorem ambiguity?_map (kind : CollectionKind) (components : List (Component σ)) :
    ambiguity? kind (components.map (Component.map f)) = ambiguity? kind components := by
  cases kind with
  | set | choice => exact clash?_map f components
  | sequence => exact runClash?_map f components
  | sequenceOf | setOf => rfl

end Maps

/-- A handle, where those from `bound` on are not told apart. -/
def Handle.upTo (bound : Nat) (handle : Handle) : Handle :=
  ⟨min handle.index bound⟩

def TypeInfo.upTo (bound : Nat) (info : TypeInfo) : TypeInfo :=
  { info with handle := info.handle.upTo bound }

theorem TypeInfo.upTo_of_lt {bound : Nat} {info : TypeInfo} (h : info.handle.index < bound) :
    info.upTo bound = info := by
  rw [upTo, Handle.upTo, min_eq_left h.le]

namespace CompiledType

/-- A type in which handles from `bound` on are not told apart. -/
def upTo (bound : Nat) (type : CompiledType) : CompiledType :=
  type.interpret (fun info form (_ : Unit) => ⟨info.upTo bound, form.map (· ())⟩) ()

variable {bound : Nat} {info : TypeInfo} {form : TypeForm CompiledType} {type other : CompiledType}

theorem upTo_mk : upTo bound ⟨info, form⟩ = ⟨info.upTo bound, form.map (upTo bound)⟩ := by
  rw [upTo, interpret_mk, TypeForm.map_map]
  rfl

theorem form_upTo : (type.upTo bound).form = type.form.map (upTo bound) := by
  obtain ⟨info, form⟩ := type
  rw [upTo_mk]
  rfl

theorem isAnonymousTag_upTo : (type.upTo bound).isAnonymousTag = type.isAnonymousTag := by
  obtain ⟨info, form⟩ := type
  rw [upTo_mk]
  cases form <;> rfl

theorem layout?_upTo : (type.upTo bound).layout? = type.layout?.map (Layout.map (upTo bound)) := by
  obtain ⟨info, form⟩ := type
  rw [upTo_mk]
  cases form <;> rfl

theorem firstTags_upTo : (type.upTo bound).firstTags = type.firstTags := by
  induction type using formInduct with
  | builtin info builtin => rw [upTo_mk, TypeForm.map, firstTags_builtin, firstTags_builtin]
  | «alias» info target ih => rw [upTo_mk, TypeForm.map, firstTags_alias, firstTags_alias, ih]
  | tagged info tag method inner ih =>
      rw [upTo_mk, TypeForm.map, firstTags_tagged, firstTags_tagged]
  | collection info layout ih =>
      rw [upTo_mk, TypeForm.map, firstTags_collection, firstTags_collection, Layout.map,
        List.flatMap_map]
      rfl

theorem isUntaggedChoice_upTo : (type.upTo bound).isUntaggedChoice = type.isUntaggedChoice := by
  induction type using formInduct with
  | builtin info builtin =>
      rw [upTo_mk, TypeForm.map, isUntaggedChoice_builtin, isUntaggedChoice_builtin]
  | «alias» info target ih =>
      rw [upTo_mk, TypeForm.map, isUntaggedChoice_alias, isUntaggedChoice_alias, ih]
  | tagged info tag method inner ih =>
      rw [upTo_mk, TypeForm.map, isUntaggedChoice_tagged, isUntaggedChoice_tagged]
  | collection info layout ih =>
      rw [upTo_mk, TypeForm.map, isUntaggedChoice_collection, isUntaggedChoice_collection]
      rfl

theorem StandsFor.upTo (bound : Nat) (h : type.StandsFor other) :
    (type.upTo bound).StandsFor (other.upTo bound) := by
  refine Relation.ReflTransGen.lift _ (fun outer inner hform => ?_) _ _ h
  change (outer.upTo bound).form = .alias (inner.upTo bound)
  rw [form_upTo, hform]
  rfl

theorem aliasBase?_upTo (count : Nat) :
    (type.upTo bound).aliasBase? count = (type.aliasBase? count).map (upTo bound) := by
  induction count generalizing type with
  | zero => rfl
  | succ count ih =>
      obtain ⟨info, form⟩ := type
      rw [upTo_mk]
      cases form with
      | «alias» target => exact ih
      | _ => exact congrArg some upTo_mk.symm

theorem exists_aliasBase?_of_upTo_eq (h : type.upTo bound = other.upTo bound) {count : Nat}
    {base : CompiledType} (hbase : type.aliasBase? count = some base) :
    ∃ found, other.aliasBase? count = some found ∧ base.upTo bound = found.upTo bound := by
  have hmap : (other.upTo bound).aliasBase? count = _ := aliasBase?_upTo count
  rw [← h, aliasBase?_upTo, hbase] at hmap
  obtain ⟨found, hfound, heq⟩ := Option.map_eq_some_iff.mp hmap.symm
  exact ⟨found, hfound, heq.symm⟩

theorem HasBase.of_upTo_eq (hbase : type.HasBase) (h : type.upTo bound = other.upTo bound) :
    other.HasBase := by
  obtain ⟨base, hbase⟩ := hbase
  obtain ⟨found, hfound, -⟩ := exists_aliasBase?_of_upTo_eq h hbase
  exact ⟨found, hfound⟩

section Values

/-- Whether the types from `bound` on that are in a type just put a tag on another one. -/
def OnlyTagsFrom (bound : Nat) (type : CompiledType) : Prop :=
  ∀ inner, type.Reaches inner → bound ≤ inner.handle.index → inner.info.constraints = [] ∧
    ∃ tag method tagged, inner.form = .tagged tag method tagged

theorem canonicalize_withType (values : NamedValues) (scope : Scope)
    (type? : Option (Handle × String)) (value : Value) :
    type.canonicalize values { scope with type? } value = type.canonicalize values scope value := by
  obtain ⟨info, form⟩ := type
  rw [canonicalize, canonicalize, interpret_mk, interpret_mk]
  rfl

/-- Canonical forms do not depend on the handles of types that only put tags on others. -/
theorem canonicalize_upTo (h : type.OnlyTagsFrom bound) (values : NamedValues) (scope : Scope)
    (value : Value) :
    (type.upTo bound).canonicalize values scope value = type.canonicalize values scope value := by
  induction type using CompiledType.induct generalizing scope value with
  | mk info form ih =>
      obtain ⟨hself, hinner⟩ := forall_reaches_mk_iff.mp h
      have hmap : (form.map (upTo bound)).map (interpret (canonicalizeStep values)) =
          form.map (interpret (canonicalizeStep values)) := by
        rw [TypeForm.map_map]
        refine TypeForm.map_congr fun inner hmem => ?_
        funext ⟨scope, value⟩
        exact ih inner hmem (hinner inner hmem) scope value
      rw [upTo_mk, canonicalize, canonicalize, interpret_mk, interpret_mk, hmap]
      by_cases hlt : info.handle.index < bound
      · rw [TypeInfo.upTo_of_lt hlt]
      · obtain ⟨hconstraints, tag, method, tagged, hform⟩ := hself (not_lt.mp hlt)
        change info.constraints = [] at hconstraints
        change form = .tagged tag method tagged at hform
        subst hform
        -- The inner type does not see which type it is entered from.
        have hsame (resolved : Value) : tagged.canonicalize values _ resolved = _ :=
          canonicalize_withType values (scope.typed info.handle info.description)
            ((scope.typed (info.upTo bound).handle (info.upTo bound).description).type?) resolved
        simp only [canonicalizeStep, TypeForm.map, TypeInfo.upTo, hconstraints]
        refine congrArg _ (funext fun resolved => ?_)
        exact congrArg (· >>= _) (hsame resolved)

theorem canonicalize_of_upTo_eq (h : type.upTo bound = other.upTo bound)
    (htype : type.OnlyTagsFrom bound) (hother : other.OnlyTagsFrom bound) (values : NamedValues)
    (scope : Scope) (value : Value) :
    type.canonicalize values scope value = other.canonicalize values scope value := by
  rw [← canonicalize_upTo htype, h, canonicalize_upTo hother]

end Values

end CompiledType

/-- What is included from a collection is said by the declarations of its components, not by their
types. -/
theorem FlatComponent.map_ofComponent_layout_map (f : CompiledType → CompiledType)
    (layout : Layout CompiledType) (version : Nat) :
    ((layout.map f).components.filter (·.version = 1)).map (ofComponent version) =
      (layout.components.filter (·.version = 1)).map (ofComponent version) := by
  rw [Layout.map, List.filter_map, List.map_map]
  rfl

end Asn1

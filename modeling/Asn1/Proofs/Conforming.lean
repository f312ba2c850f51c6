import Asn1.CanonicalForm
import Asn1.Conformance
import Asn1.Proofs.Walking

namespace Asn1

open Results

namespace NamedValues

variable {values : NamedValues}

theorem resolve_of_not_isReference {value : Value} (h : value.isReference = false) :
    values.resolve value = .ok value := by
  cases value <;> first | rfl | simp [Value.isReference] at h

theorem eq_of_resolve {value resolved : Value} (hreference : value.isReference = false)
    (h : values.resolve value = .ok resolved) : value = resolved := by
  rw [resolve_of_not_isReference hreference] at h
  exact Except.ok.inj h

theorem isReference_of_follow {origin : String} {count : Nat} {value resolved : Value}
    (h : values.follow origin count value = .ok resolved) : resolved.isReference = false := by
  induction count generalizing value with
  | zero => simp [follow] at h
  | succ count ih =>
      rw [follow.eq_def] at h
      cases value with
      | reference name =>
          simp only at h
          cases hlookup : values.lookup name with
          | none => simp [hlookup] at h
          | some target => exact ih (by simpa [hlookup] using h)
      | _ =>
          obtain rfl := Except.ok.inj h
          rfl

theorem isReference_of_resolve {value resolved : Value} (h : values.resolve value = .ok resolved) :
    resolved.isReference = false := by
  cases value with
  | reference name => exact isReference_of_follow h
  | _ =>
      obtain rfl := Except.ok.inj h
      rfl

end NamedValues

/-- Whether a constraint is one on sizes or integers, not one made by the user of the library. -/
def Constraint.isRange : Constraint → Bool
  | .size _ | .value _ => true
  | .custom _ _ => false

theorem SizeRange.check_eq_ok_iff {range : SizeRange} {value : Value} :
    range.check value = .ok () ↔ ∃ size, value.size? = some size ∧ range.contains size = true := by
  rw [check]
  cases value.size? with
  | none => simp
  | some size => simp

theorem ValueRange.check_eq_ok_iff {range : ValueRange} {value : Value} :
    range.check value = .ok () ↔ ∃ i, value = .integer i ∧ range.contains i = true := by
  cases value <;> simp [check]

/-- Whether constraints on sizes and integers cannot tell two values apart. -/
def Value.IsAlike (a b : Value) : Prop :=
  a.size? = b.size? ∧ ∀ i, a = .integer i ↔ b = .integer i

theorem Value.IsAlike.refl (value : Value) : value.IsAlike value := by
  refine ⟨rfl, ?_⟩
  intro _
  rfl

theorem Constraint.check_eq_ok_iff_of_isAlike {constraint : Constraint}
    (hrange : constraint.isRange = true) {a b : Value} (h : a.IsAlike b) (scope scope' : Scope) :
    constraint.check scope a = .ok () ↔ constraint.check scope' b = .ok () := by
  cases constraint with
  | size range =>
      change range.check a = .ok () ↔ range.check b = .ok ()
      rw [SizeRange.check_eq_ok_iff, SizeRange.check_eq_ok_iff, h.1]
  | value range =>
      change range.check a = .ok () ↔ range.check b = .ok ()
      rw [ValueRange.check_eq_ok_iff, ValueRange.check_eq_ok_iff]
      exact exists_congr fun i => and_congr_left fun _ => h.2 i
  | custom check => simp [isRange] at hrange

namespace CompiledType

/-- Whether the layouts of all collections in a type are regular. -/
def IsRegular (type : CompiledType) : Prop :=
  ∀ inner, type.Reaches inner → ∀ layout, inner.form = .collection layout → layout.IsRegular

/-- Whether all constraints in a type are on sizes and integers. -/
def HasRangesOnly (type : CompiledType) : Prop :=
  ∀ inner, type.Reaches inner → ∀ constraint ∈ inner.info.constraints, constraint.isRange = true

variable {info : TypeInfo} {form : TypeForm CompiledType}

theorem IsRegular.of_mk (h : IsRegular ⟨info, form⟩) :
    (∀ layout, form = .collection layout → layout.IsRegular) ∧
      ∀ inner ∈ form.types, inner.IsRegular :=
  forall_reaches_mk_iff.mp h

theorem HasRangesOnly.of_mk (h : HasRangesOnly ⟨info, form⟩) :
    (∀ constraint ∈ info.constraints, constraint.isRange = true) ∧
      ∀ inner ∈ form.types, inner.HasRangesOnly :=
  forall_reaches_mk_iff.mp h

end CompiledType

section Accepting

variable (values : NamedValues) (scope : Scope)

/-- Whether the items of a list value conform to the type of its elements. -/
def Layout.AcceptsItems (layout : Layout CompiledType) (value : Value) : Prop :=
  ∃ element items, layout.element? = some element ∧ value = .list items ∧
    ∀ item ∈ items, element.type.accept values scope item = .ok ()

/-- Whether the layout admits the entries of a collection value and their values conform to the
types of the components that they name. -/
def Layout.AcceptsEntries (layout : Layout CompiledType) (value : Value) : Prop :=
  ∃ entries, value = .collection entries ∧ layout.Admits entries ∧
    ∀ entry ∈ entries, ∀ component, layout.component? entry.1 = some component →
      component.type.accept values (scope.walking entries) entry.2 = .ok ()

/-- Whether a value that is no reference conforms to a form of type. -/
def TypeForm.Accepts : TypeForm CompiledType → Value → Prop
  | .builtin b, value => b.accept value = .ok ()
  | .alias target, value => target.accept values scope value = .ok ()
  | .tagged _ _ inner, value => inner.accept values scope value = .ok ()
  | .collection layout, value =>
    if layout.kind.isList then layout.AcceptsItems values scope value
    else layout.AcceptsEntries values scope value

variable {values scope}

theorem Layout.items_eq_ok_iff {τ : Type} {layout : Layout τ} {value : Value} {items : List Value} :
    layout.items value = .ok items ↔ value = .list items := by
  cases value <;> simp [Layout.items]

theorem Layout.entries_eq_ok_iff {τ : Type} {layout : Layout τ} {value : Value}
    {entries : Entries} : layout.entries value = .ok entries ↔ value = .collection entries := by
  cases value <;> simp [Layout.entries]

theorem Layout.accept_list_iff {layout : Layout CompiledType} (hlist : layout.kind.isList = true)
    {value : Value} :
    (layout.map fun type => type.interpret (acceptStep values)).accept scope value = .ok () ↔
      layout.AcceptsItems values scope value := by
  rw [Layout.accept, Layout.AcceptsItems]
  change (if layout.kind.isList = true then _ else _) = _ ↔ _
  rw [if_pos hlist, element?_map]
  cases layout.element? with
  | none => simp
  | some element =>
      simp only [Option.map_some, bind_eq_ok_iff, items_eq_ok_iff, forM_eq_ok_iff,
        Option.some.injEq]
      constructor
      · rintro ⟨items, rfl, hall⟩
        exact ⟨element, items, rfl, rfl, hall⟩
      · rintro ⟨_, items, rfl, rfl, hall⟩
        exact ⟨items, rfl, hall⟩

theorem Layout.accept_entries_iff {layout : Layout CompiledType} (hregular : layout.IsRegular)
    (hlist : layout.kind.isList = false) {value : Value} :
    (layout.map fun type => type.interpret (acceptStep values)).accept scope value = .ok () ↔
      layout.AcceptsEntries values scope value := by
  rw [Layout.accept, if_neg (by simp [hlist, Layout.map])]
  simp only [bind_eq_ok_iff, entries_eq_ok_iff, discard_eq_ok_iff, walk_map,
    walk_eq_ok_iff hregular hlist, Visits, List.forall₂_iff_get]
  constructor
  · rintro ⟨entries, hvalue, results, hadmits, hlen, hvisits⟩
    refine ⟨entries, hvalue, hadmits, ?_⟩
    intro entry hentry component hfind
    obtain ⟨i, hi, rfl⟩ := List.getElem_of_mem hentry
    have hvisit := hvisits i hi (hlen ▸ hi)
    simp only [List.get_eq_getElem, hfind] at hvisit
    exact hvisit
  · rintro ⟨entries, hvalue, hadmits, hall⟩
    refine ⟨entries, hvalue, entries.map fun _ => (), hadmits, by simp, ?_⟩
    intro i hi _
    simp only [List.get_eq_getElem]
    cases hfind : layout.component? entries[i].1 with
    | none => rfl
    | some component => exact hall _ (List.getElem_mem hi) component hfind

theorem Layout.accept_congr {layout : Layout CompiledType} {f g : CompiledType → Acceptor}
    {scope scope' : Scope} {value : Value}
    (hitems : ∀ component ∈ layout.components, ∀ items, value = .list items → ∀ item ∈ items,
      f component.type (scope, item) = g component.type (scope', item))
    (hentries : ∀ component ∈ layout.components, ∀ entries, value = .collection entries →
      ∀ entry ∈ entries, f component.type (scope.walking entries, entry.2) =
        g component.type (scope'.walking entries, entry.2)) :
    (layout.map f).accept scope value = (layout.map g).accept scope' value := by
  have hkind (f : CompiledType → Acceptor) : (layout.map f).kind = layout.kind := rfl
  rw [Layout.accept, Layout.accept, hkind, hkind, element?_map, element?_map]
  split
  · cases helement : layout.element? with
    | none => rfl
    | some element =>
        have hmem := Layout.mem_components_of_element? helement
        cases value with
        | list items => exact forM_congr fun item hitem => hitems element hmem items rfl item hitem
        | _ => rfl
  · cases value with
    | collection entries =>
        show discard ((layout.map f).walk _ entries) = discard ((layout.map g).walk _ entries)
        rw [walk_map, walk_map]
        congr 1
        refine walk_congr fun entry hentry => ?_
        cases hfind : layout.component? entry.1 with
        | none => rfl
        | some component =>
            exact hentries component (mem_components_of_component? hfind) entries rfl entry hentry
    | _ => rfl

/-- Whether a value conforms to a form of type depends on the named values and the context only in
so far as it does for the types that it holds. -/
theorem TypeForm.Accepts.imp {form : TypeForm CompiledType} {value : Value}
    (h : form.Accepts values scope value) {values' : NamedValues} {scope' : Scope}
    (hinner : ∀ inner ∈ form.types,
      (∀ {value}, inner.accept values scope value = .ok () →
        inner.accept values' scope' value = .ok ()) ∧
      ∀ entries {value}, inner.accept values (scope.walking entries) value = .ok () →
        inner.accept values' (scope'.walking entries) value = .ok ()) :
    form.Accepts values' scope' value := by
  cases form with
  | builtin builtin => exact h
  | «alias» target => exact (hinner target target_mem_types).1 h
  | tagged tag method inner => exact (hinner inner inner_mem_types).1 h
  | collection layout =>
      rw [TypeForm.Accepts] at h ⊢
      split at h
      · next hlist =>
        obtain ⟨element, items, helement, hvalue, hall⟩ := h
        have hmem := type_mem_types (Layout.mem_components_of_element? helement)
        rw [if_pos hlist]
        exact ⟨element, items, helement, hvalue,
          fun item hitem => (hinner _ hmem).1 (hall item hitem)⟩
      · next hlist =>
        obtain ⟨entries, hvalue, hadmits, hall⟩ := h
        rw [if_neg hlist]
        refine ⟨entries, hvalue, hadmits, fun entry hentry component hfind => ?_⟩
        have hmem := type_mem_types (Layout.mem_components_of_component? hfind)
        exact (hinner _ hmem).2 entries (hall entry hentry component hfind)

/-- A value conforms to a type if what it stands for conforms to the form and the constraints. -/
theorem CompiledType.accept_mk_iff {info : TypeInfo} {form : TypeForm CompiledType}
    (hregular : ∀ layout, form = .collection layout → layout.IsRegular) {value : Value} :
    CompiledType.accept ⟨info, form⟩ values scope value = .ok () ↔
      ∃ resolved, values.resolve value = .ok resolved ∧
        form.Accepts values (scope.typed info.handle info.description) resolved ∧
        ∀ constraint ∈ info.constraints,
          constraint.check (scope.typed info.handle info.description) resolved = .ok () := by
  rw [CompiledType.accept, interpret_mk, acceptStep, bind_eq_ok_iff]
  refine exists_congr fun resolved => and_congr_right fun _ => ?_
  cases form with
  | collection layout =>
      refine bind_unit_eq_ok_iff.trans (and_congr ?_ forM_eq_ok_iff)
      rw [TypeForm.Accepts]
      split
      · next hlist => exact Layout.accept_list_iff hlist
      · next hlist => exact Layout.accept_entries_iff (hregular layout rfl) (by simpa using hlist)
  | _ => exact bind_unit_eq_ok_iff.trans (and_congr Iff.rfl forM_eq_ok_iff)

theorem CompiledType.accept_mk_iff_of_not_isReference {info : TypeInfo}
    {form : TypeForm CompiledType}
    (hregular : ∀ layout, form = .collection layout → layout.IsRegular) {value : Value}
    (hreference : value.isReference = false) :
    CompiledType.accept ⟨info, form⟩ values scope value = .ok () ↔
      form.Accepts values (scope.typed info.handle info.description) value ∧
        ∀ constraint ∈ info.constraints,
          constraint.check (scope.typed info.handle info.description) value = .ok () := by
  rw [accept_mk_iff hregular, NamedValues.resolve_of_not_isReference hreference]
  simp only [Except.ok.injEq, exists_eq_left']

theorem CompiledType.accepts_collection_of_accept {info : TypeInfo} {layout : Layout CompiledType}
    (hregular : layout.IsRegular) {value : Value} (hreference : value.isReference = false)
    (h : CompiledType.accept ⟨info, .collection layout⟩ values scope value = .ok ()) :
    (TypeForm.collection layout).Accepts values (scope.typed info.handle info.description) value := by
  have hform : ∀ other, TypeForm.collection layout = .collection other → other.IsRegular := by
    rintro _ ⟨⟩
    exact hregular
  exact ((accept_mk_iff_of_not_isReference hform hreference).mp h).1

theorem TypeForm.accepts_list_iff {layout : Layout CompiledType}
    (hlist : layout.kind.isList = true) {element : Component CompiledType}
    (helement : layout.element? = some element) {items : List Value} :
    (TypeForm.collection layout).Accepts values scope (.list items) ↔
      ∀ item ∈ items, element.type.accept values scope item = .ok () := by
  rw [Accepts, if_pos hlist]
  constructor
  · rintro ⟨found, _, hfound, ⟨⟩, hall⟩
    obtain rfl : element = found := Option.some.inj (helement.symm.trans hfound)
    exact hall
  · intro hall
    exact ⟨element, items, helement, rfl, hall⟩

theorem TypeForm.accepts_entries_iff {layout : Layout CompiledType}
    (hlist : layout.kind.isList = false) {entries : Entries} :
    (TypeForm.collection layout).Accepts values scope (.collection entries) ↔
      layout.Admits entries ∧
        ∀ entry ∈ entries, ∀ component, layout.component? entry.1 = some component →
          component.type.accept values (scope.walking entries) entry.2 = .ok () := by
  rw [Accepts, if_neg (by simp [hlist])]
  constructor
  · rintro ⟨_, ⟨⟩, haccepts⟩
    exact haccepts
  · intro haccepts
    exact ⟨entries, rfl, haccepts⟩

theorem CompiledType.not_accept_captured {type : CompiledType} (hregular : type.IsRegular)
    {values : NamedValues} {scope : Scope} {captured : Captured} :
    type.accept values scope (.captured captured) ≠ .ok () := by
  induction type using CompiledType.induct generalizing scope with
  | mk info form ih =>
      obtain ⟨hlayout, htypes⟩ := hregular.of_mk
      intro h
      obtain ⟨haccepts, -⟩ := (accept_mk_iff_of_not_isReference hlayout rfl).mp h
      cases form with
      | builtin builtin => cases builtin <;> exact absurd haccepts (by rintro ⟨⟩)
      | «alias» target =>
          exact ih target TypeForm.target_mem_types (htypes _ TypeForm.target_mem_types) haccepts
      | tagged tag method inner =>
          exact ih inner TypeForm.inner_mem_types (htypes _ TypeForm.inner_mem_types) haccepts
      | collection layout =>
          rw [TypeForm.Accepts] at haccepts
          split at haccepts
          · obtain ⟨_, _, _, ⟨⟩, _⟩ := haccepts
          · obtain ⟨_, ⟨⟩, _⟩ := haccepts

theorem Layout.component?_eq_none_of_accept_captured {layout : Layout CompiledType}
    (htypes : ∀ component ∈ layout.components, component.type.IsRegular) {name : String}
    {captured : Captured} (haccept : ∀ component, layout.component? name = some component →
      component.type.accept values scope (.captured captured) = .ok ()) :
    layout.component? name = none := by
  by_contra hsome
  obtain ⟨component, hfind⟩ := Option.ne_none_iff_exists'.mp hsome
  exact CompiledType.not_accept_captured
    (htypes component (List.mem_of_find?_eq_some hfind)) (haccept component hfind)

end Accepting

section Canonicalizing

variable (values : NamedValues) (scope : Scope)

/-- The canonical forms of the items of a list value. -/
def Layout.CanonicalizesItems (layout : Layout CompiledType) (value : Value)
    (canonical : CanonicalForm) : Prop :=
  ∃ element items forms, layout.element? = some element ∧ value = .list items ∧
    List.Forall₂ (fun item form => element.type.canonicalize values scope item = .ok form)
      items forms ∧ canonical = .ofItems forms

/-- What becomes of an entry of a collection value. -/
def Layout.CanonicalizesEntry (layout : Layout CompiledType) (entry : String × Value)
    (result : Option CanonicalEntry) : Prop :=
  match layout.component? entry.1 with
  | none => result = some ⟨none, entry.1, ⟨entry.2, false⟩⟩
  | some component => ∃ form, component.type.canonicalize values scope entry.2 = .ok form ∧
      result = if component.default? = some form.value then none
        else some ⟨some component.index, entry.1, form⟩

/-- The canonical form of a collection value, made from what becomes of its entries. -/
def Layout.CanonicalizesEntries (layout : Layout CompiledType) (value : Value)
    (canonical : CanonicalForm) : Prop :=
  ∃ entries results, value = .collection entries ∧ layout.Admits entries ∧
    List.Forall₂ (layout.CanonicalizesEntry values (scope.walking entries)) entries results ∧
      canonical = .ofEntries layout.kind results

/-- The canonical form that a value which is no reference has for a form of type. -/
def TypeForm.Canonicalizes : TypeForm CompiledType → Value → CanonicalForm → Prop
  | .builtin b, value, canonical => b.accept value = .ok () ∧ canonical = ⟨value, false⟩
  | .alias target, value, canonical => target.canonicalize values scope value = .ok canonical
  | .tagged _ _ inner, value, canonical => inner.canonicalize values scope value = .ok canonical
  | .collection layout, value, canonical =>
    if layout.kind.isList then layout.CanonicalizesItems values scope value canonical
    else layout.CanonicalizesEntries values scope value canonical

variable {values scope}

theorem Layout.canonicalize_list_iff {layout : Layout CompiledType}
    (hlist : layout.kind.isList = true) {value : Value} {canonical : CanonicalForm} :
    (layout.map fun type => type.interpret (canonicalizeStep values)).canonicalize scope value =
        .ok canonical ↔
      layout.CanonicalizesItems values scope value canonical := by
  rw [Layout.canonicalize, Layout.CanonicalizesItems]
  change (if layout.kind.isList = true then _ else _) = _ ↔ _
  rw [if_pos hlist, element?_map]
  cases layout.element? with
  | none => simp
  | some element =>
      simp only [Option.map_some, bind_eq_ok_iff, items_eq_ok_iff, mapM_eq_ok_iff, pure_eq_ok_iff,
        Option.some.injEq]
      constructor
      · rintro ⟨items, rfl, forms, hforms, rfl⟩
        exact ⟨element, items, forms, rfl, rfl, hforms, rfl⟩
      · rintro ⟨_, items, forms, rfl, rfl, hforms, rfl⟩
        exact ⟨items, rfl, forms, hforms, rfl⟩

theorem Layout.canonicalizeEntry_eq_ok_iff {layout : Layout CompiledType} {entry : String × Value}
    {result : Option CanonicalEntry} :
    canonicalizeEntry scope ((layout.component? entry.1).map
        (Component.map fun type => type.interpret (canonicalizeStep values))) entry = .ok result ↔
      layout.CanonicalizesEntry values scope entry result := by
  rw [CanonicalizesEntry]
  cases layout.component? entry.1 with
  | none =>
      change pure _ = Except.ok result ↔ _
      rw [pure_eq_ok_iff, eq_comm]
  | some component =>
      change (do
        let form ← component.type.canonicalize values scope entry.2
        if component.default? = some form.value then return none
        return some ⟨some component.index, entry.1, form⟩) = Except.ok result ↔ _
      rw [bind_eq_ok_iff]
      refine exists_congr fun form => and_congr_right fun _ => ?_
      split
      · rw [pure_eq_ok_iff, eq_comm]
      · rw [pure_eq_ok_iff, eq_comm]

theorem Layout.canonicalize_entries_iff {layout : Layout CompiledType}
    (hregular : layout.IsRegular) (hlist : layout.kind.isList = false) {value : Value}
    {canonical : CanonicalForm} :
    (layout.map fun type => type.interpret (canonicalizeStep values)).canonicalize scope value =
        .ok canonical ↔
      layout.CanonicalizesEntries values scope value canonical := by
  rw [Layout.canonicalize, if_neg (by simp [hlist, Layout.map])]
  simp only [bind_eq_ok_iff, entries_eq_ok_iff, pure_eq_ok_iff, walk_map,
    walk_eq_ok_iff hregular hlist, Visits, canonicalizeEntry_eq_ok_iff]
  constructor
  · rintro ⟨entries, rfl, results, ⟨hadmits, hresults⟩, rfl⟩
    exact ⟨entries, results, rfl, hadmits, hresults, rfl⟩
  · rintro ⟨entries, results, rfl, hadmits, hresults, rfl⟩
    exact ⟨entries, rfl, results, ⟨hadmits, hresults⟩, rfl⟩

theorem Layout.canonicalize_congr {layout : Layout CompiledType}
    {f g : CompiledType → Canonicalizer}
    {scope scope' : Scope} {value : Value}
    (hitems : ∀ component ∈ layout.components, ∀ item,
      f component.type (scope, item) = g component.type (scope', item))
    (hentries : ∀ component ∈ layout.components, ∀ entries item,
      f component.type (scope.walking entries, item) =
        g component.type (scope'.walking entries, item)) :
    (layout.map f).canonicalize scope value = (layout.map g).canonicalize scope' value := by
  have hkind (f : CompiledType → Canonicalizer) : (layout.map f).kind = layout.kind := rfl
  rw [Layout.canonicalize, Layout.canonicalize, hkind, hkind, element?_map, element?_map]
  split
  · cases helement : layout.element? with
    | none => rfl
    | some element =>
        have hmem := Layout.mem_components_of_element? helement
        simp only [Option.map_some, Component.map, hitems element hmem]
        rfl
  · refine congrArg _ (funext fun entries => congrArg (· >>= _) ?_)
    rw [walk_map, walk_map]
    refine walk_congr fun entry _ => ?_
    cases hfind : layout.component? entry.1 with
    | none => rfl
    | some component =>
        have hmem := mem_components_of_component? hfind
        exact congrArg (· >>= _) (hentries component hmem entries entry.2)

/-- The canonical form for a form of type depends on the named values and the context only in so
far as those for the types that it holds do. These are entered from the same context, or from one
where a collection value is being walked. -/
theorem TypeForm.Canonicalizes.imp {form : TypeForm CompiledType} {value : Value}
    {canonical : CanonicalForm} (h : form.Canonicalizes values scope value canonical)
    {values' : NamedValues} {scope' : Scope}
    (hinner : ∀ inner ∈ form.types,
      (∀ {value result}, inner.canonicalize values scope value = .ok result →
        inner.canonicalize values' scope' value = .ok result) ∧
      ∀ entries {value result},
        inner.canonicalize values (scope.walking entries) value = .ok result →
          inner.canonicalize values' (scope'.walking entries) value = .ok result) :
    form.Canonicalizes values' scope' value canonical := by
  cases form with
  | builtin builtin => exact h
  | «alias» target => exact (hinner target target_mem_types).1 h
  | tagged tag method inner => exact (hinner inner inner_mem_types).1 h
  | collection layout =>
      rw [TypeForm.Canonicalizes] at h ⊢
      split at h
      · next hlist =>
        obtain ⟨element, items, forms, helement, hvalue, hforms, heq⟩ := h
        rw [if_pos hlist]
        have hmem := type_mem_types (Layout.mem_components_of_element? helement)
        exact ⟨element, items, forms, helement, hvalue,
          hforms.imp fun _ _ hitem => (hinner _ hmem).1 hitem, heq⟩
      · next hlist =>
        obtain ⟨entries, results, hvalue, hadmits, hresults, heq⟩ := h
        rw [if_neg hlist]
        refine ⟨entries, results, hvalue, hadmits, hresults.imp ?_, heq⟩
        intro entry result hentry
        rw [Layout.CanonicalizesEntry] at hentry ⊢
        cases hfind : layout.component? entry.1 with
        | none => simpa only [hfind] using hentry
        | some component =>
            simp only [hfind] at hentry ⊢
            obtain ⟨form, hform, heq⟩ := hentry
            have hmem := type_mem_types (Layout.mem_components_of_component? hfind)
            exact ⟨form, (hinner _ hmem).2 entries hform, heq⟩

theorem TypeForm.Canonicalizes.unique {form : TypeForm CompiledType} {value : Value}
    {canonical other : CanonicalForm} (h : form.Canonicalizes values scope value canonical)
    {values' : NamedValues} {scope' : Scope}
    (h' : form.Canonicalizes values' scope' value other)
    (hinner : ∀ inner ∈ form.types, ∀ {scope scope' : Scope} {value result result'},
      inner.canonicalize values scope value = .ok result →
        inner.canonicalize values' scope' value = .ok result' → result = result') :
    canonical = other := by
  cases form with
  | builtin builtin => exact h.2.trans h'.2.symm
  | «alias» target => exact hinner target target_mem_types h h'
  | tagged tag method inner => exact hinner inner inner_mem_types h h'
  | collection layout =>
      rw [TypeForm.Canonicalizes] at h h'
      split at h
      · next hlist =>
        rw [if_pos hlist] at h'
        obtain ⟨element, items, forms, helement, rfl, hforms, rfl⟩ := h
        obtain ⟨_, _, forms', helement', ⟨⟩, hforms', rfl⟩ := h'
        obtain rfl := Option.some.inj (helement.symm.trans helement')
        have hmem := type_mem_types (Layout.mem_components_of_element? helement)
        rw [eq_of_forall₂ hforms hforms' fun _ _ _ => hinner _ hmem]
      · next hlist =>
        rw [if_neg hlist] at h'
        obtain ⟨entries, results, rfl, -, hresults, rfl⟩ := h
        obtain ⟨_, results', ⟨⟩, -, hresults', rfl⟩ := h'
        rw [eq_of_forall₂ hresults hresults' fun entry result result' hresult hresult' => ?_]
        rw [Layout.CanonicalizesEntry] at hresult hresult'
        cases hfind : layout.component? entry.1 with
        | none =>
            simp only [hfind] at hresult hresult'
            rw [hresult, hresult']
        | some component =>
            simp only [hfind] at hresult hresult'
            obtain ⟨form, hform, rfl⟩ := hresult
            obtain ⟨form', hform', rfl⟩ := hresult'
            rw [hinner _ (type_mem_types (Layout.mem_components_of_component? hfind)) hform hform']

theorem CompiledType.canonicalize_mk_iff {info : TypeInfo} {form : TypeForm CompiledType}
    (hregular : ∀ layout, form = .collection layout → layout.IsRegular) {value : Value}
    {result : CanonicalForm} :
    CompiledType.canonicalize ⟨info, form⟩ values scope value = .ok result ↔
      ∃ resolved canonical, values.resolve value = .ok resolved ∧
        form.Canonicalizes values (scope.typed info.handle info.description) resolved canonical ∧
        (∀ constraint ∈ info.constraints, constraint.check
          (scope.typed info.handle info.description) canonical.value = .ok ()) ∧
        result = ⟨canonical.value, canonical.changed || value.isReference⟩ := by
  have hconstraints (found : Except ValueError CanonicalForm) :
      (do
        let canonical ← found
        info.constraints.forM (·.check (scope.typed info.handle info.description) canonical.value)
        return (⟨canonical.value, canonical.changed || value.isReference⟩ : CanonicalForm)) =
          .ok result ↔
      ∃ canonical, found = .ok canonical ∧
        (∀ constraint ∈ info.constraints, constraint.check
          (scope.typed info.handle info.description) canonical.value = .ok ()) ∧
        result = ⟨canonical.value, canonical.changed || value.isReference⟩ := by
    rw [bind_eq_ok_iff]
    refine exists_congr fun canonical => and_congr_right fun _ => ?_
    rw [bind_unit_eq_ok_iff, forM_eq_ok_iff, pure_eq_ok_iff, eq_comm (a := result)]
  rw [CompiledType.canonicalize, interpret_mk, canonicalizeStep, bind_eq_ok_iff]
  refine exists_congr fun resolved => ?_
  rw [exists_and_left]
  refine and_congr_right fun _ => ?_
  cases form with
  | builtin builtin =>
      refine (bind_unit_eq_ok_iff.trans (and_congr_right fun _ =>
        hconstraints (.ok ⟨resolved, false⟩))).trans ?_
      simp only [TypeForm.Canonicalizes, Except.ok.injEq, ← exists_and_left, and_assoc,
        eq_comm (a := (⟨resolved, false⟩ : CanonicalForm))]
  | collection layout =>
      refine (hconstraints _).trans (exists_congr fun canonical => and_congr_left fun _ => ?_)
      rw [TypeForm.Canonicalizes]
      split
      · next hlist => exact Layout.canonicalize_list_iff hlist
      · next hlist =>
        exact Layout.canonicalize_entries_iff (hregular layout rfl) (by simpa using hlist)
  | _ => exact hconstraints _

end Canonicalizing

end Asn1

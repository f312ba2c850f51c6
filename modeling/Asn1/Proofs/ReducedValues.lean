import Asn1.Proofs.SetOrder

namespace Asn1

open Results

namespace Results

theorem exists_map_eq_of_forall₂ {α β γ : Type} {relation : α → γ → Prop} {f : γ → β} {as : List α}
    {bs : List β} (h : List.Forall₂ (fun a b => ∃ c, relation a c ∧ f c = b) as bs) :
    ∃ cs, List.Forall₂ relation as cs ∧ cs.map f = bs := by
  induction h with
  | nil => exact ⟨[], .nil, rfl⟩
  | cons hhead _ ih =>
      obtain ⟨c, hc, rfl⟩ := hhead
      obtain ⟨cs, hcs, rfl⟩ := ih
      exact ⟨c :: cs, .cons hc hcs, rfl⟩

end Results

namespace Layout

variable {σ τ : Type}

/-- Whether an entry is written just like the default of the component that it names. -/
def isDefault (layout : Layout τ) (entry : String × Value) : Bool :=
  (layout.component? entry.1).any fun component => component.default? = some entry.2

theorem SameEntry.imp {layout : Layout τ} {same same' : τ → Value → Value → Prop}
    {entry other : String × Value} (h : layout.SameEntry same entry other)
    (himp : ∀ component ∈ layout.components, ∀ value value',
      same component.type value value' → same' component.type value value') :
    layout.SameEntry same' entry other := by
  obtain ⟨hname, hvalue⟩ := h
  refine ⟨hname, ?_⟩
  cases hfind : layout.component? entry.1 with
  | none => simpa only [hfind] using hvalue
  | some component =>
      simp only [hfind] at hvalue
      exact himp component (mem_components_of_component? hfind) _ _ hvalue

section Replacement

variable (f : σ → τ) (layout : Layout σ)

theorem entryIndex?_map : (layout.map f).entryIndex? = layout.entryIndex? := by
  funext entry
  rw [entryIndex?, component?_map, Option.map_map]
  rfl

theorem isUnknown_map : (layout.map f).isUnknown = layout.isUnknown := by
  funext entry
  rw [isUnknown, component?_map, Option.isNone_map]
  rfl

theorem isDefault_map : (layout.map f).isDefault = layout.isDefault := by
  funext entry
  rw [isDefault, component?_map, Option.any_map]
  rfl

theorem isArrangement_map_iff {kept sorted : Entries} :
    (layout.map f).IsArrangement kept sorted ↔ layout.IsArrangement kept sorted := by
  have hordered : (layout.map f).IsStrictlyOrdered sorted ↔ layout.IsStrictlyOrdered sorted := by
    rw [IsStrictlyOrdered, entryIndex?_map, IsStrictlyOrdered]
  constructor
  · rintro ⟨hperm, hunknown, hset, hsame⟩
    rw [isUnknown_map] at hunknown
    exact ⟨hperm, hunknown, fun hkind => hordered.mp (hset hkind), hsame⟩
  · rintro ⟨hperm, hunknown, hset, hsame⟩
    rw [← isUnknown_map f] at hunknown
    exact ⟨hperm, hunknown, fun hkind => hordered.mpr (hset hkind), hsame⟩

end Replacement

end Layout

namespace CompiledType

/-- Which parts of a value are matched to which of the types in its type. -/
inductive Matches : CompiledType → Value → CompiledType → Value → Prop
  | refl (type : CompiledType) (value : Value) : Matches type value type value
  | alias {info : TypeInfo} {target inner : CompiledType} {value part : Value}
    (h : Matches target value inner part) : Matches ⟨info, .alias target⟩ value inner part
  | tagged {info : TypeInfo} {tag : Tag} {method : TagMethod} {type inner : CompiledType}
    {value part : Value} (h : Matches type value inner part) :
    Matches ⟨info, .tagged tag method type⟩ value inner part
  | item {info : TypeInfo} {layout : Layout CompiledType} {element : Component CompiledType}
    {items : List Value} {item : Value} {inner : CompiledType} {part : Value}
    (helement : layout.element? = some element) (hitem : item ∈ items)
    (h : Matches element.type item inner part) :
    Matches ⟨info, .collection layout⟩ (.list items) inner part
  | entry {info : TypeInfo} {layout : Layout CompiledType} {entries : Entries}
    {entry : String × Value} {component : Component CompiledType} {inner : CompiledType}
    {part : Value} (hentry : entry ∈ entries) (hfind : layout.component? entry.1 = some component)
    (h : Matches component.type entry.2 inner part) :
    Matches ⟨info, .collection layout⟩ (.collection entries) inner part

end CompiledType

section Canonical

variable (values : NamedValues) (scope : Scope)

/-- Whether a value of a type has a certain canonical form in a context, marked or not. -/
def CompiledType.CanonicalizesTo (type : CompiledType) (value result : Value) : Prop :=
  ∃ form, type.canonicalize values scope value = .ok form ∧ form.value = result

/-- Whether a value that is no reference has a certain canonical form for a form of type. -/
def TypeForm.CanonicalizesTo (form : TypeForm CompiledType) (value result : Value) : Prop :=
  ∃ canonical, form.Canonicalizes values scope value canonical ∧ canonical.value = result

variable {values scope} {layout : Layout CompiledType}

theorem CompiledType.canonicalizesTo_mk_iff {info : TypeInfo} {form : TypeForm CompiledType}
    (hregular : ∀ layout, form = .collection layout → layout.IsRegular) {value result : Value} :
    CanonicalizesTo values scope ⟨info, form⟩ value result ↔
      ∃ resolved, values.resolve value = .ok resolved ∧
        form.CanonicalizesTo values (scope.typed info.handle info.description) resolved result ∧
        ∀ constraint ∈ info.constraints,
          constraint.check (scope.typed info.handle info.description) result = .ok () := by
  simp only [CanonicalizesTo, TypeForm.CanonicalizesTo, canonicalize_mk_iff hregular]
  constructor
  · rintro ⟨_, ⟨resolved, canonical, hresolve, hcanonical, hchecks, rfl⟩, rfl⟩
    exact ⟨resolved, hresolve, ⟨canonical, hcanonical, rfl⟩, hchecks⟩
  · rintro ⟨resolved, hresolve, ⟨canonical, hcanonical, rfl⟩, hchecks⟩
    exact ⟨_, ⟨resolved, canonical, hresolve, hcanonical, hchecks, rfl⟩, rfl⟩

theorem TypeForm.canonicalizesTo_list_iff (hlist : layout.kind.isList = true)
    {value result : Value} :
    (TypeForm.collection layout).CanonicalizesTo values scope value result ↔
      ∃ element items results, layout.element? = some element ∧ value = .list items ∧
        List.Forall₂ (element.type.CanonicalizesTo values scope) items results ∧
          result = .list results := by
  rw [CanonicalizesTo]
  simp only [Canonicalizes, if_pos hlist, Layout.CanonicalizesItems]
  constructor
  · rintro ⟨_, ⟨element, items, forms, helement, rfl, hforms, rfl⟩, rfl⟩
    refine ⟨element, items, _, helement, rfl, ?_, rfl⟩
    rw [List.forall₂_map_right_iff]
    exact hforms.imp fun _ form hform => ⟨form, hform, rfl⟩
  · rintro ⟨element, items, results, helement, rfl, hresults, rfl⟩
    obtain ⟨forms, hforms, rfl⟩ := exists_map_eq_of_forall₂ hresults
    exact ⟨_, ⟨element, items, forms, helement, rfl, hforms, rfl⟩, rfl⟩

theorem Layout.kept_cons_eq_filter_cons {name : String} {component : Component CompiledType}
    {form : CanonicalForm} {results : List (Option CanonicalEntry)} {reduced : Entries}
    (hfind : layout.component? name = some component)
    (hkept : (results.filterMap id).map CanonicalEntry.entry =
      reduced.filter fun entry => !layout.isDefault entry) :
    (((if component.default? = some form.value then none
      else some ⟨some component.index, name, form⟩) :: results).filterMap id).map
        CanonicalEntry.entry =
      ((name, form.value) :: reduced).filter fun entry => !layout.isDefault entry := by
  by_cases hdefault : component.default? = some form.value
  · rw [if_pos hdefault, List.filter_cons_of_neg (by simp [isDefault, hfind, hdefault]), ← hkept]
    rfl
  · rw [if_neg hdefault, List.filter_cons_of_pos (by simp [isDefault, hfind, hdefault]), ← hkept]
    rfl

theorem Layout.exists_reduced_of_canonicalizesEntry {entries : Entries}
    {results : List (Option CanonicalEntry)}
    (hresults : List.Forall₂ (layout.CanonicalizesEntry values scope) entries results) :
    ∃ reduced, List.Forall₂ (layout.SameEntry (·.CanonicalizesTo values scope)) entries reduced ∧
      (results.filterMap id).map CanonicalEntry.entry =
        reduced.filter fun entry => !layout.isDefault entry := by
  induction hresults with
  | nil => exact ⟨[], .nil, rfl⟩
  | @cons entry result rest _ hentry _ ih =>
      obtain ⟨reduced, hreduced, hkept⟩ := ih
      rw [CanonicalizesEntry] at hentry
      cases hfind : layout.component? entry.1 with
      | none =>
          simp only [hfind] at hentry
          subst hentry
          have hdefault : layout.isDefault entry = false := by simp [isDefault, hfind]
          refine ⟨entry :: reduced, .cons ⟨rfl, by simp only [hfind]⟩ hreduced, ?_⟩
          rw [List.filter_cons_of_pos (by simp [hdefault]), ← hkept]
          rfl
      | some component =>
          simp only [hfind] at hentry
          obtain ⟨form, hform, rfl⟩ := hentry
          have hsame : layout.SameEntry (·.CanonicalizesTo values scope) entry
              (entry.1, form.value) := ⟨rfl, by simpa only [hfind] using ⟨form, hform, rfl⟩⟩
          exact ⟨(entry.1, form.value) :: reduced, .cons hsame hreduced,
            kept_cons_eq_filter_cons hfind hkept⟩

theorem Layout.exists_canonicalizesEntry_of_reduced {entries reduced : Entries}
    (hreduced : List.Forall₂ (layout.SameEntry (·.CanonicalizesTo values scope)) entries reduced) :
    ∃ results, List.Forall₂ (layout.CanonicalizesEntry values scope) entries results ∧
      (results.filterMap id).map CanonicalEntry.entry =
        reduced.filter fun entry => !layout.isDefault entry := by
  induction hreduced with
  | nil => exact ⟨[], .nil, rfl⟩
  | @cons entry other rest _ hentry _ ih =>
      obtain ⟨results, hresults, hkept⟩ := ih
      obtain ⟨hname, hvalue⟩ := hentry
      obtain ⟨name, value⟩ := other
      obtain rfl : entry.1 = name := hname
      cases hfind : layout.component? entry.1 with
      | none =>
          simp only [hfind] at hvalue
          obtain rfl := hvalue
          have hentry : layout.CanonicalizesEntry values scope entry
              (some ⟨none, entry.1, ⟨entry.2, false⟩⟩) := by
            simp only [CanonicalizesEntry, hfind]
          refine ⟨_, .cons hentry hresults, ?_⟩
          rw [List.filter_cons_of_pos (by simp [isDefault, hfind]), ← hkept]
          rfl
      | some component =>
          simp only [hfind] at hvalue
          obtain ⟨form, hform, rfl⟩ := hvalue
          have hentry : layout.CanonicalizesEntry values scope entry
              (if component.default? = some form.value then none
                else some ⟨some component.index, entry.1, form⟩) := by
            simp only [CanonicalizesEntry, hfind]
            exact ⟨form, hform, rfl⟩
          exact ⟨_, .cons hentry hresults, kept_cons_eq_filter_cons hfind hkept⟩

theorem TypeForm.canonicalizesTo_entries_iff (hlist : layout.kind.isList = false)
    {value result : Value} :
    (TypeForm.collection layout).CanonicalizesTo values scope value result ↔
      ∃ entries reduced sorted, value = .collection entries ∧ layout.Admits entries ∧
        List.Forall₂ (layout.SameEntry (·.CanonicalizesTo values (scope.walking entries))) entries
          reduced ∧
        layout.IsArrangement (reduced.filter fun entry => !layout.isDefault entry) sorted ∧
          result = .collection sorted := by
  rw [CanonicalizesTo]
  simp only [Canonicalizes, hlist, Bool.false_eq_true, if_false, Layout.CanonicalizesEntries]
  constructor
  · rintro ⟨_, ⟨entries, results, rfl, hadmits, hresults, rfl⟩, rfl⟩
    obtain ⟨sorted, hvalue, harranged⟩ := Layout.exists_isArrangement_ofEntries hadmits hresults
    obtain ⟨reduced, hreduced, hkept⟩ := Layout.exists_reduced_of_canonicalizesEntry hresults
    exact ⟨entries, reduced, sorted, rfl, hadmits, hreduced, hkept ▸ harranged, hvalue⟩
  · rintro ⟨entries, reduced, sorted, rfl, hadmits, hreduced, harranged, rfl⟩
    obtain ⟨results, hresults, hkept⟩ := Layout.exists_canonicalizesEntry_of_reduced hreduced
    obtain ⟨sorted', hvalue, harranged'⟩ := Layout.exists_isArrangement_ofEntries hadmits hresults
    obtain rfl := harranged.eq (hkept ▸ harranged')
    exact ⟨_, ⟨entries, results, rfl, hadmits, hresults, rfl⟩, hvalue⟩

end Canonical

/-- What a value that is no reference is reduced to by a form of type. -/
def TypeForm.reduces : TypeForm (Value → Value → Prop) → Value → Value → Prop
  | .builtin _, value, result => result = value
  | .alias target, value, result => target value result
  | .tagged _ _ inner, value, result => inner value result
  | .collection layout, .list items, result => ∃ element results,
      layout.element? = some element ∧ List.Forall₂ element.type items results ∧
        result = .list results
  | .collection layout, .collection entries, result => ∃ reduced sorted,
      List.Forall₂ (layout.SameEntry id) entries reduced ∧
        layout.IsArrangement (reduced.filter fun entry => !layout.isDefault entry) sorted ∧
          result = .collection sorted
  | .collection _, _, _ => False

namespace CompiledType

def reducesStep (values : NamedValues) (_ : TypeInfo) (form : TypeForm (Value → Value → Prop))
    (value result : Value) : Prop :=
  ∃ resolved, values.resolve value = .ok resolved ∧ form.reduces resolved result

/-- What a value of a type is reduced to: wherever it is matched to a type it is what references
lead to, and each collection holds exactly those of the reduced entries that are not written like
their default, in the order of the kind. -/
def ReducesTo (type : CompiledType) (values : NamedValues) : Value → Value → Prop :=
  type.interpret (reducesStep values)

variable {values : NamedValues} {info : TypeInfo}

theorem reducesTo_mk_iff {form : TypeForm CompiledType} {value result : Value} :
    ReducesTo ⟨info, form⟩ values value result ↔
      ∃ resolved, values.resolve value = .ok resolved ∧
        (form.map fun type => type.ReducesTo values).reduces resolved result := by
  rw [ReducesTo, interpret_mk]
  rfl

variable {layout : Layout CompiledType}

theorem reduces_list_iff {items : List Value} {result : Value} :
    ((TypeForm.collection layout).map fun type => type.ReducesTo values).reduces (.list items)
        result ↔
      ∃ element results, layout.element? = some element ∧
        List.Forall₂ (element.type.ReducesTo values) items results ∧ result = .list results := by
  change (∃ element results,
    (layout.map fun type => type.ReducesTo values).element? = some element ∧ _) ↔ _
  rw [Layout.element?_map]
  cases layout.element? <;> simp [Component.map]

theorem reduces_entries_iff {entries : Entries} {result : Value} :
    ((TypeForm.collection layout).map fun type => type.ReducesTo values).reduces
        (.collection entries) result ↔
      ∃ reduced sorted,
        List.Forall₂ (layout.SameEntry fun type => type.ReducesTo values) entries reduced ∧
          layout.IsArrangement (reduced.filter fun entry => !layout.isDefault entry) sorted ∧
            result = .collection sorted := by
  have hsame : (layout.map fun type => type.ReducesTo values).SameEntry id =
      layout.SameEntry fun type => type.ReducesTo values := by
    funext entry other
    exact propext Layout.sameEntry_map
  change (∃ reduced sorted,
    List.Forall₂ ((layout.map fun type => type.ReducesTo values).SameEntry id) entries reduced ∧
      Layout.IsArrangement (layout.map _) (reduced.filter fun entry =>
        !Layout.isDefault (layout.map fun type => type.ReducesTo values) entry) sorted ∧ _) ↔ _
  rw [hsame, Layout.isDefault_map]
  simp only [Layout.isArrangement_map_iff]

theorem ReducesTo.exists_of_collection {value result : Value}
    (h : ReducesTo ⟨info, .collection layout⟩ values value result) :
    (∃ items element results, values.resolve value = .ok (.list items) ∧
      layout.element? = some element ∧
        List.Forall₂ (element.type.ReducesTo values) items results ∧ result = .list results) ∨
    ∃ entries reduced sorted, values.resolve value = .ok (.collection entries) ∧
      List.Forall₂ (layout.SameEntry fun type => type.ReducesTo values) entries reduced ∧
        layout.IsArrangement (reduced.filter fun entry => !layout.isDefault entry) sorted ∧
          result = .collection sorted := by
  obtain ⟨resolved, hresolve, hreduces⟩ := reducesTo_mk_iff.mp h
  cases resolved with
  | list items =>
      obtain ⟨element, results, hreduces⟩ := reduces_list_iff.mp hreduces
      exact .inl ⟨items, element, results, hresolve, hreduces⟩
  | collection entries =>
      obtain ⟨reduced, sorted, hreduces⟩ := reduces_entries_iff.mp hreduces
      exact .inr ⟨entries, reduced, sorted, hresolve, hreduces⟩
  | _ => exact hreduces.elim

theorem rightUnique_sameEntry (hunique : ∀ component ∈ layout.components,
      Relator.RightUnique (component.type.ReducesTo values)) :
    Relator.RightUnique (layout.SameEntry fun type => type.ReducesTo values) := by
  rintro entry ⟨name, first⟩ ⟨name', second⟩ ⟨hname, hfirst⟩ ⟨hname', hsecond⟩
  refine Prod.ext (hname.symm.trans hname') ?_
  cases hfind : layout.component? entry.1 with
  | none =>
      simp only [hfind] at hfirst hsecond
      exact hfirst.symm.trans hsecond
  | some component =>
      simp only [hfind] at hfirst hsecond
      exact hunique _ (Layout.mem_components_of_component? hfind) hfirst hsecond

theorem rightUnique_reducesTo (type : CompiledType) :
    Relator.RightUnique (type.ReducesTo values) := by
  induction type using CompiledType.induct with
  | mk info form ih =>
      intro value first second hfirst hsecond
      obtain ⟨resolved, hresolve, hfirst⟩ := reducesTo_mk_iff.mp hfirst
      obtain ⟨_, hresolve', hsecond⟩ := reducesTo_mk_iff.mp hsecond
      obtain rfl := Except.ok.inj (hresolve.symm.trans hresolve')
      cases form with
      | builtin builtin => exact hfirst.trans hsecond.symm
      | «alias» target => exact ih target TypeForm.target_mem_types hfirst hsecond
      | tagged tag method inner => exact ih inner TypeForm.inner_mem_types hfirst hsecond
      | collection layout =>
          have hunique (component) (hmem : component ∈ layout.components) :
              Relator.RightUnique (component.type.ReducesTo values) :=
            ih _ (TypeForm.type_mem_types hmem)
          cases resolved with
          | list items =>
              obtain ⟨element, results, helement, hresults, rfl⟩ := reduces_list_iff.mp hfirst
              obtain ⟨_, results', helement', hresults', rfl⟩ := reduces_list_iff.mp hsecond
              obtain rfl := Option.some.inj (helement.symm.trans helement')
              have hmem := Layout.mem_components_of_element? helement
              rw [List.right_unique_forall₂' (hunique _ hmem) hresults hresults']
          | collection entries =>
              obtain ⟨reduced, sorted, hreduced, hsorted, rfl⟩ := reduces_entries_iff.mp hfirst
              obtain ⟨reduced', sorted', hreduced', hsorted', rfl⟩ :=
                reduces_entries_iff.mp hsecond
              obtain rfl := List.right_unique_forall₂' (rightUnique_sameEntry hunique) hreduced
                hreduced'
              rw [hsorted.eq hsorted']
          | _ => exact hfirst.elim

theorem reducesTo_of_canonicalizesTo {type : CompiledType} (hregular : type.IsRegular)
    {scope : Scope} {value result : Value} (h : type.CanonicalizesTo values scope value result) :
    type.ReducesTo values value result := by
  induction type using CompiledType.induct generalizing scope value result with
  | mk info form ih =>
      obtain ⟨hlayout, htypes⟩ := hregular.of_mk
      obtain ⟨resolved, hresolve, hform, -⟩ := (canonicalizesTo_mk_iff hlayout).mp h
      refine reducesTo_mk_iff.mpr ⟨resolved, hresolve, ?_⟩
      cases form with
      | builtin builtin =>
          obtain ⟨_, ⟨-, rfl⟩, rfl⟩ := hform
          rfl
      | «alias» target =>
          exact ih target TypeForm.target_mem_types (htypes _ TypeForm.target_mem_types) hform
      | tagged tag method inner =>
          exact ih inner TypeForm.inner_mem_types (htypes _ TypeForm.inner_mem_types) hform
      | collection layout =>
          have hcomponent {scope : Scope} (component) (hmem : component ∈ layout.components)
              (value result) (h : component.type.CanonicalizesTo values scope value result) :
              component.type.ReducesTo values value result :=
            ih _ (TypeForm.type_mem_types hmem) (htypes _ (TypeForm.type_mem_types hmem)) h
          cases hlist : layout.kind.isList with
          | true =>
              obtain ⟨element, items, results, helement, rfl, hresults, rfl⟩ :=
                (TypeForm.canonicalizesTo_list_iff hlist).mp hform
              have hmem := Layout.mem_components_of_element? helement
              exact reduces_list_iff.mpr
                ⟨element, results, helement, hresults.imp (hcomponent element hmem), rfl⟩
          | false =>
              obtain ⟨entries, reduced, sorted, rfl, -, hreduced, harranged, rfl⟩ :=
                (TypeForm.canonicalizesTo_entries_iff hlist).mp hform
              exact reduces_entries_iff.mpr ⟨reduced, sorted,
                hreduced.imp fun _ _ hentry => hentry.imp hcomponent, harranged, rfl⟩

theorem ReducesTo.exists_of_matches {type inner : CompiledType} {value result part : Value}
    (h : type.ReducesTo values value result) (hmatches : type.Matches result inner part) :
    ∃ source, inner.ReducesTo values source part := by
  induction hmatches generalizing value with
  | refl => exact ⟨value, h⟩
  | «alias» _ ih =>
      obtain ⟨resolved, -, htarget⟩ := reducesTo_mk_iff.mp h
      exact ih htarget
  | tagged _ ih =>
      obtain ⟨resolved, -, hinner⟩ := reducesTo_mk_iff.mp h
      exact ih hinner
  | item helement hitem _ ih =>
      rcases h.exists_of_collection with
        ⟨items, element, results, -, hother, hresults, ⟨⟩⟩ | ⟨_, _, _, -, -, -, ⟨⟩⟩
      obtain rfl := Option.some.inj (helement.symm.trans hother)
      obtain ⟨source, -, hsource⟩ := forall₂_exists_of_mem hresults hitem
      exact ih hsource
  | @entry _ layout _ entry component _ _ hentry hfind _ ih =>
      rcases h.exists_of_collection with
        ⟨_, _, _, -, -, -, ⟨⟩⟩ | ⟨entries, reduced, sorted, -, hreduced, hsorted, ⟨⟩⟩
      have hmem := List.mem_of_mem_filter (hsorted.perm.subset hentry)
      obtain ⟨source, -, hname, hsource⟩ := forall₂_exists_of_mem hreduced hmem
      simp only [hname, hfind] at hsource
      exact ih hsource

/-- No collection in a reduced value holds an entry that is written like its default, and SETs are
in order. -/
theorem ReducesTo.of_matches_entries {type : CompiledType} {value result : Value}
    (h : type.ReducesTo values value result) {entries : Entries}
    (hmatches : type.Matches result ⟨info, .collection layout⟩ (.collection entries)) :
    (layout.kind = .set → layout.IsStrictlyOrdered entries) ∧
      ∀ entry ∈ entries, layout.isDefault entry = false := by
  obtain ⟨source, hsource⟩ := h.exists_of_matches hmatches
  rcases hsource.exists_of_collection with
    ⟨_, _, _, -, -, -, ⟨⟩⟩ | ⟨_, reduced, sorted, -, -, hsorted, ⟨⟩⟩
  refine ⟨hsorted.ordered, fun entry hentry => ?_⟩
  have hkept := (List.mem_filter.mp (hsorted.perm.subset hentry)).2
  simpa using hkept

section Unchanged

variable {scope : Scope}

theorem kept_eq_of_unchanged {entries : Entries} {results : List (Option CanonicalEntry)}
    (hresults : List.Forall₂ (layout.CanonicalizesEntry values scope) entries results)
    (hsame : ∀ component ∈ layout.components, ∀ value form,
      component.type.canonicalize values scope value = .ok form → form.changed = false →
        form.value = value)
    (hsome : ∀ result ∈ results, result.isNone = false)
    (hunchanged : ∀ kept ∈ results.filterMap id, kept.form.changed = false) :
    (results.filterMap id).map CanonicalEntry.entry = entries := by
  induction hresults with
  | nil => rfl
  | @cons entry result rest _ hentry _ ih =>
      obtain ⟨hresult, hrestSome⟩ := List.forall_mem_cons.mp hsome
      rw [Layout.CanonicalizesEntry] at hentry
      cases hfind : layout.component? entry.1 with
      | none =>
          simp only [hfind] at hentry
          subst hentry
          obtain ⟨-, hrest⟩ := List.forall_mem_cons.mp hunchanged
          exact congrArg _ (ih hrestSome hrest)
      | some component =>
          simp only [hfind] at hentry
          obtain ⟨form, hform, rfl⟩ := hentry
          split at hresult
          · contradiction
          · next hdefault =>
            rw [if_neg hdefault] at hunchanged ⊢
            obtain ⟨hsameForm, hrest⟩ := List.forall_mem_cons.mp hunchanged
            have hmem := Layout.mem_components_of_component? hfind
            have hvalue := hsame component hmem _ _ hform hsameForm
            have hhead : CanonicalEntry.entry ⟨some component.index, entry.1, form⟩ = entry :=
              Prod.ext rfl hvalue
            exact congrArg₂ _ hhead (ih hrestSome hrest)

theorem eq_of_changed_eq_false {type : CompiledType} (hregular : type.IsRegular) {value : Value}
    {form : CanonicalForm} (h : type.canonicalize values scope value = .ok form)
    (hunchanged : form.changed = false) : form.value = value := by
  induction type using CompiledType.induct generalizing scope value form with
  | mk info typeForm ih =>
      obtain ⟨hlayout, htypes⟩ := hregular.of_mk
      obtain ⟨resolved, canonical, hresolve, hform, -, rfl⟩ := (canonicalize_mk_iff hlayout).mp h
      obtain ⟨hcanonical, hreference⟩ := Bool.or_eq_false_iff.mp hunchanged
      obtain rfl := NamedValues.eq_of_resolve hreference hresolve
      show canonical.value = value
      cases typeForm with
      | builtin builtin =>
          obtain ⟨-, rfl⟩ := hform
          rfl
      | «alias» target =>
          have hmem : target ∈ (TypeForm.alias target).types := TypeForm.target_mem_types
          exact ih target hmem (htypes _ hmem) hform hcanonical
      | tagged tag method inner =>
          have hmem : inner ∈ (TypeForm.tagged tag method inner).types := TypeForm.inner_mem_types
          exact ih inner hmem (htypes _ hmem) hform hcanonical
      | collection layout =>
          rw [TypeForm.Canonicalizes] at hform
          split at hform
          · obtain ⟨element, items, forms, helement, rfl, hforms, rfl⟩ := hform
            have hmem := TypeForm.type_mem_types (Layout.mem_components_of_element? helement)
            have hall : ∀ form ∈ forms, form.changed = false := by
              simpa [CanonicalForm.ofItems] using hcanonical
            have hitems : forms.map CanonicalForm.value = items.map id :=
              map_eq_map_of_forall₂ hforms fun _ _ form hmemForm hitem =>
                ih _ hmem (htypes _ hmem) hitem (hall form hmemForm)
            rw [CanonicalForm.ofItems, hitems, List.map_id]
          · obtain ⟨entries, results, rfl, -, hresults, rfl⟩ := hform
            rw [CanonicalForm.ofEntries] at hcanonical ⊢
            simp only [Bool.or_eq_false_iff, List.any_eq_false, Bool.not_eq_true] at hcanonical
            obtain ⟨⟨hsorted, hsome⟩, hentries⟩ := hcanonical
            simp only [hsorted]
            refine congrArg _ (kept_eq_of_unchanged hresults ?_ hsome hentries)
            intro component hmem _ _ hform
            have hmem := TypeForm.type_mem_types hmem
            exact ih _ hmem (htypes _ hmem) hform

/-- The mark tells whether a canonical form differs from the value that it was made from. -/
theorem changed_eq_false_iff {type : CompiledType} (hregular : type.IsRegular) {value : Value}
    {form : CanonicalForm} (h : type.canonicalize values scope value = .ok form) :
    form.changed = false ↔ form.value = value := by
  refine ⟨eq_of_changed_eq_false hregular h, fun hvalue => ?_⟩
  have hcanonical := isCanonical_of_canonicalize hregular h
  rw [hvalue] at hcanonical
  rw [eq_of_canonicalize_of_isCanonical hregular hcanonical h]

end Unchanged

end CompiledType

namespace Schema

variable {schema : Schema} {handle : Handle} {type : CompiledType} {value : Value}
  {form : CanonicalForm}

/-- A canonical form is marked as unchanged exactly if it is the value that it was made from. Its
SETs are in order and none of its entries is written like a default, and it is the one value that
the value is reduced to. -/
theorem Reachable.canonicalize_reduces (hschema : schema.Reachable)
    (hcompiled : schema.compiled handle = .ok type)
    (hform : schema.canonicalize handle value = .ok form) :
    (form.changed = false ↔ form.value = value) ∧
    (∀ info layout entries,
      type.Matches form.value ⟨info, .collection layout⟩ (.collection entries) →
        (layout.kind = .set → layout.IsStrictlyOrdered entries) ∧
          ∀ entry ∈ entries, ∀ component, layout.component? entry.1 = some component →
            component.default? ≠ some entry.2) ∧
    ∀ other, type.ReducesTo schema.values value other ↔ other = form.value := by
  have hregular := hschema.consistent.isRegular hcompiled
  obtain ⟨-, htype⟩ := (canonicalize_eq_ok_iff hcompiled).mp hform
  have hreduces := CompiledType.reducesTo_of_canonicalizesTo hregular ⟨form, htype, rfl⟩
  refine ⟨CompiledType.changed_eq_false_iff hregular htype, ?_, fun other => ⟨?_, ?_⟩⟩
  · intro info layout entries hmatches
    obtain ⟨hordered, hdefaults⟩ := hreduces.of_matches_entries hmatches
    refine ⟨hordered, fun entry hentry component hfind hdefault => ?_⟩
    have hkept := hdefaults entry hentry
    simp [Layout.isDefault, hfind, hdefault] at hkept
  · exact fun hother => CompiledType.rightUnique_reducesTo type hother hreduces
  · rintro rfl
    exact hreduces

/-- A reference to a default goes, and the unknown entry comes last. -/
theorem canonicalize_reduces_extensibleSet :
    let schema : Schema := { extensibleSet with values := [("no", .boolean false)] }
    let type : CompiledType := ⟨⟨⟨2⟩, none, []⟩, .collection extensibleSetLayout⟩
    let one : Value := .integer ⟨1, by decide, by decide⟩
    let value : Value := .collection [("u", .null), ("b", .reference "no"), ("a", one)]
    schema.canonicalize ⟨2⟩ value = .ok ⟨.collection [("a", one), ("u", .null)], true⟩ ∧
      extensibleSetLayout.IsStrictlyOrdered [("a", one), ("u", .null)] ∧
      type.ReducesTo schema.values value (.collection [("a", one), ("u", .null)]) := by
  intro schema type one value
  have hreachable : schema.Reachable := .defineValue reachable_extensibleSet rfl
  have hform : schema.canonicalize ⟨2⟩ value =
      .ok ⟨.collection [("a", one), ("u", .null)], true⟩ := by
    let a : CanonicalEntry := ⟨none, "u", ⟨.null, false⟩⟩
    let b : CanonicalEntry := ⟨some 0, "a", ⟨one, false⟩⟩
    let form := CanonicalForm.ofEntries .set [some a, none, some b]
    have hsorted : form = ⟨.collection [("a", one), ("u", .null)], true⟩ :=
      CanonicalForm.ofEntries_pair (a := a) (b := b) rfl rfl
    have hcompiled : schema.compiled ⟨2⟩ = .ok type := rfl
    refine (canonicalize_eq_ok_iff hcompiled).mpr ⟨⟨value, rfl⟩, ?_⟩
    change Except.ok (CanonicalForm.mk form.value (form.changed || false)) = _
    rw [hsorted]
    rfl
  obtain ⟨-, hlevels, hreduces⟩ := Reachable.canonicalize_reduces hreachable rfl hform
  exact ⟨hform, (hlevels _ _ _ (.refl _ _)).1 rfl, (hreduces _).mpr rfl⟩

end Schema

end Asn1

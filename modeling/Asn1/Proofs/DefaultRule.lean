import Asn1.Proofs.DecodedForms
import Asn1.Proofs.TypeComparison

/-!
Defaults that are decoded. The restricted encoding rules leave out components that equal their
defaults, which the decoder checks on the values as they are read, while defaults and what is
written are in canonical form. The two agree as long as nothing has to be brought into order.
-/

namespace Asn1

open Read Results

/-- Whether the canonical form of a value is the default of a component. -/
def Component.EqualsDefault (component : Component CompiledType) (values : NamedValues)
    (value : Value) : Prop :=
  ∃ form, component.type.canonicalize values .top value = .ok form ∧
    component.default? = some form.value

namespace Layout

variable {σ τ : Type}

/-- Whether two entries have the same name and values that are the same to the component that it
names. -/
def SameEntry (layout : Layout τ) (same : τ → Value → Value → Prop) (entry other : String × Value) :
    Prop :=
  entry.1 = other.1 ∧
    match layout.component? entry.1 with
    | some component => same component.type entry.2 other.2
    | none => entry.2 = other.2

theorem sameEntry_map {f : σ → τ} {layout : Layout σ} {same : τ → Value → Value → Prop}
    {entry other : String × Value} : (layout.map f).SameEntry same entry other ↔
      layout.SameEntry (fun type => same (f type)) entry other := by
  rw [SameEntry, SameEntry, component?_map]
  cases layout.component? entry.1 <;> rfl

theorem Admits.eq_of_name_eq {layout : Layout τ} {entries : Entries} (h : layout.Admits entries)
    {a b : String × Value} (ha : a ∈ entries) (hb : b ∈ entries) (hname : a.1 = b.1)
    {component : Component τ} (hfind : layout.component? a.1 = some component) : a = b := by
  have hunique (hpairwise : (layout.known entries).Pairwise (·.index ≠ ·.index)) : a = b := by
    by_contra hne
    have hsymm : Std.Symm fun a b : String × Value => ∀ first, layout.component? a.1 = some first →
        ∀ second, layout.component? b.1 = some second → first.index ≠ second.index :=
      ⟨fun _ _ h first hfirst second hsecond => (h second hsecond first hfirst).symm⟩
    have hdiffer := (List.pairwise_filterMap.mp hpairwise).forall ha hb hne
    exact hdiffer component hfind component (hname ▸ hfind) rfl
  rw [Admits] at h
  cases hkind : layout.kind with
  | sequence =>
      simp only [hkind] at h
      exact hunique (h.2.1.imp Nat.ne_of_lt)
  | set =>
      simp only [hkind] at h
      exact hunique h.2.1
  | choice =>
      simp only [hkind] at h
      obtain ⟨entry, rfl⟩ := List.length_eq_one_iff.mp h.2
      rw [List.mem_singleton.mp ha, List.mem_singleton.mp hb]
  | sequenceOf => simp only [hkind, and_false] at h
  | setOf => simp only [hkind, and_false] at h

end Layout

namespace CompiledType

def isCheckedStep (_ : TypeInfo) : TypeForm (Value → Prop) → Value → Prop
  | .builtin _, value => value.isReference = false
  | .alias target, value => target value
  | .tagged _ _ inner, value => inner value
  | .collection layout, .list items => ∀ element, layout.element? = some element →
      ∀ item ∈ items, element.type item
  | .collection layout, .collection entries =>
    ∀ entry ∈ entries, ∀ component, layout.component? entry.1 = some component →
      (layout.kind ≠ .choice → component.default? ≠ some entry.2) ∧ component.type entry.2
  | .collection _, value => value.isReference = false

/-- Whether a value holds no references where it is matched to the type, and in SEQUENCEs and SETs
no component that is written just like its default. -/
def IsChecked (type : CompiledType) : Value → Prop :=
  type.interpret isCheckedStep

def rearrangesStep (_ : TypeInfo) : TypeForm (Value → Value → Prop) → Value → Value → Prop
  | .builtin _, value, other => value = other
  | .alias target, value, other => target value other
  | .tagged _ _ inner, value, other => inner value other
  | .collection layout, .list items, .list others => ∃ element, layout.element? = some element ∧
      List.Forall₂ element.type items others
  | .collection layout, .collection entries, .collection others =>
    ∃ matched, List.Forall₂ (layout.SameEntry id) entries matched ∧ matched.Perm others ∧
      (layout.kind ≠ .set → matched = others)
  | .collection _, _, _ => False

/-- Whether another value of a type holds the same entries at every level, no more and no fewer,
where those of a SET may stand in another order. -/
def Rearranges (type : CompiledType) : Value → Value → Prop :=
  type.interpret rearrangesStep

section Forms

variable {info : TypeInfo} {value other : Value}

theorem isChecked_builtin_iff {builtin : Builtin} :
    IsChecked ⟨info, .builtin builtin⟩ value ↔ value.isReference = false := by
  rw [IsChecked, interpret_mk]
  rfl

theorem isChecked_alias_iff {target : CompiledType} :
    IsChecked ⟨info, .alias target⟩ value ↔ target.IsChecked value := by
  rw [IsChecked, interpret_mk]
  rfl

theorem isChecked_tagged_iff {tag : Tag} {method : TagMethod} {inner : CompiledType} :
    IsChecked ⟨info, .tagged tag method inner⟩ value ↔ inner.IsChecked value := by
  rw [IsChecked, interpret_mk]
  rfl

theorem isChecked_list_iff {layout : Layout CompiledType} {items : List Value} :
    IsChecked ⟨info, .collection layout⟩ (.list items) ↔
      ∀ element, layout.element? = some element → ∀ item ∈ items, element.type.IsChecked item := by
  rw [IsChecked, interpret_mk]
  change (∀ element, (layout.map (interpret isCheckedStep)).element? = some element → _) ↔ _
  rw [Layout.element?_map]
  cases layout.element? <;> simp [Component.map, IsChecked]

theorem isChecked_entries_iff {layout : Layout CompiledType} {entries : Entries} :
    IsChecked ⟨info, .collection layout⟩ (.collection entries) ↔
      ∀ entry ∈ entries, ∀ component, layout.component? entry.1 = some component →
        (layout.kind ≠ .choice → component.default? ≠ some entry.2) ∧
          component.type.IsChecked entry.2 := by
  rw [IsChecked, interpret_mk]
  change (∀ entry ∈ entries, ∀ component,
    (layout.map (interpret isCheckedStep)).component? entry.1 = some component →
      (layout.kind ≠ .choice → _) ∧ _) ↔ _
  simp only [forall_component?_map_iff]
  rfl

theorem IsChecked.isReference {type : CompiledType} (h : type.IsChecked value) :
    value.isReference = false := by
  induction type using formInduct with
  | builtin info builtin => exact isChecked_builtin_iff.mp h
  | «alias» info target ih => exact ih (isChecked_alias_iff.mp h)
  | tagged info tag method inner ih => exact ih (isChecked_tagged_iff.mp h)
  | collection info layout ih =>
      rw [IsChecked, interpret_mk] at h
      cases value with
      | reference name => exact h
      | _ => rfl

theorem rearranges_builtin_iff {builtin : Builtin} :
    Rearranges ⟨info, .builtin builtin⟩ value other ↔ value = other := by
  rw [Rearranges, interpret_mk]
  rfl

theorem rearranges_alias_iff {target : CompiledType} :
    Rearranges ⟨info, .alias target⟩ value other ↔ target.Rearranges value other := by
  rw [Rearranges, interpret_mk]
  rfl

theorem rearranges_tagged_iff {tag : Tag} {method : TagMethod} {inner : CompiledType} :
    Rearranges ⟨info, .tagged tag method inner⟩ value other ↔ inner.Rearranges value other := by
  rw [Rearranges, interpret_mk]
  rfl

theorem rearranges_list_iff {layout : Layout CompiledType} {items others : List Value} :
    Rearranges ⟨info, .collection layout⟩ (.list items) (.list others) ↔
      ∃ element, layout.element? = some element ∧
        List.Forall₂ element.type.Rearranges items others := by
  rw [Rearranges, interpret_mk]
  change (∃ element, (layout.map (interpret rearrangesStep)).element? = some element ∧ _) ↔ _
  rw [Layout.element?_map]
  cases layout.element? <;> simp [Component.map, Rearranges]

theorem rearranges_entries_iff {layout : Layout CompiledType} {entries others : Entries} :
    Rearranges ⟨info, .collection layout⟩ (.collection entries) (.collection others) ↔
      ∃ matched, List.Forall₂ (layout.SameEntry Rearranges) entries matched ∧
        matched.Perm others ∧ (layout.kind ≠ .set → matched = others) := by
  have hsame : (layout.map (interpret rearrangesStep)).SameEntry id =
      layout.SameEntry Rearranges := by
    funext entry other
    exact propext Layout.sameEntry_map
  rw [Rearranges, interpret_mk]
  change (∃ matched, List.Forall₂ ((layout.map (interpret rearrangesStep)).SameEntry id) entries
    matched ∧ matched.Perm others ∧ (layout.kind ≠ .set → matched = others)) ↔ _
  rw [hsame]

theorem Rearranges.exists_of_collection {layout : Layout CompiledType}
    (h : Rearranges ⟨info, .collection layout⟩ value other) :
    (∃ items others, value = .list items ∧ other = .list others) ∨
      ∃ entries others, value = .collection entries ∧ other = .collection others := by
  rw [Rearranges, interpret_mk] at h
  change rearrangesStep info (.collection (layout.map (interpret rearrangesStep))) value other at h
  cases value with
  | list items =>
      cases other with
      | list others => exact .inl ⟨items, others, rfl, rfl⟩
      | _ => exact h.elim
  | collection entries =>
      cases other with
      | collection others => exact .inr ⟨entries, others, rfl, rfl⟩
      | _ => exact h.elim
  | _ => cases other <;> exact h.elim

end Forms

/-- Without SETs there is only one order. -/
theorem Rearranges.eq {type : CompiledType} (hsets : ∀ inner, type.Reaches inner → ∀ layout,
      inner.form = .collection layout → layout.kind ≠ .set) {value other : Value}
    (h : type.Rearranges value other) : value = other := by
  induction type using formInduct generalizing value other with
  | builtin info builtin => exact rearranges_builtin_iff.mp h
  | «alias» info target ih =>
      obtain ⟨-, hinner⟩ := forall_reaches_mk_iff.mp hsets
      exact ih (hinner _ TypeForm.target_mem_types) (rearranges_alias_iff.mp h)
  | tagged info tag method inner ih =>
      obtain ⟨-, hinner⟩ := forall_reaches_mk_iff.mp hsets
      exact ih (hinner _ TypeForm.inner_mem_types) (rearranges_tagged_iff.mp h)
  | collection info layout ih =>
      obtain ⟨hkind, hinner⟩ := forall_reaches_mk_iff.mp hsets
      have hcomponent {component : Component CompiledType} (hmem : component ∈ layout.components)
          {value other : Value} (h : component.type.Rearranges value other) : value = other :=
        ih _ hmem (hinner _ (TypeForm.type_mem_types hmem)) h
      rcases h.exists_of_collection with
        ⟨items, others, rfl, rfl⟩ | ⟨entries, others, rfl, rfl⟩
      · obtain ⟨element, helement, hitems⟩ := rearranges_list_iff.mp h
        have heq := hitems.imp fun _ _ => hcomponent (Layout.mem_components_of_element? helement)
        rw [List.forall₂_eq_eq_eq] at heq
        rw [heq]
      · obtain ⟨matched, hmatched, -, hsame⟩ := rearranges_entries_iff.mp h
        obtain rfl := hsame (hkind layout rfl)
        have heq : List.Forall₂ Eq entries matched := by
          refine hmatched.imp fun entry other hentry => ?_
          obtain ⟨hname, hvalue⟩ := hentry
          refine Prod.ext hname ?_
          cases hfind : layout.component? entry.1 with
          | some component =>
              simp only [hfind] at hvalue
              exact hcomponent (Layout.mem_components_of_component? hfind) hvalue
          | none => simpa only [hfind] using hvalue
        rw [List.forall₂_eq_eq_eq] at heq
        rw [heq]

/-- The entries that a value of a type holds at any level, each with the component that it names and
the kind of the collection that it is in. -/
inductive HoldsEntry (kind : CollectionKind) (component : Component CompiledType) (inner : Value) :
    CompiledType → Value → Prop
  | alias {info : TypeInfo} {target : CompiledType} {value : Value}
    (h : HoldsEntry kind component inner target value) :
    HoldsEntry kind component inner ⟨info, .alias target⟩ value
  | tagged {info : TypeInfo} {tag : Tag} {method : TagMethod} {type : CompiledType} {value : Value}
    (h : HoldsEntry kind component inner type value) :
    HoldsEntry kind component inner ⟨info, .tagged tag method type⟩ value
  | item {info : TypeInfo} {layout : Layout CompiledType} {element : Component CompiledType}
    {items : List Value} {item : Value} (helement : layout.element? = some element)
    (hitem : item ∈ items) (h : HoldsEntry kind component inner element.type item) :
    HoldsEntry kind component inner ⟨info, .collection layout⟩ (.list items)
  | entry {info : TypeInfo} {layout : Layout CompiledType} {entries : Entries} {name : String}
    (hkind : layout.kind = kind) (hentry : (name, inner) ∈ entries)
    (hfind : layout.component? name = some component) :
    HoldsEntry kind component inner ⟨info, .collection layout⟩ (.collection entries)
  | within {info : TypeInfo} {layout : Layout CompiledType} {entries : Entries}
    {entry : String × Value} {outer : Component CompiledType} (hentry : entry ∈ entries)
    (hfind : layout.component? entry.1 = some outer)
    (h : HoldsEntry kind component inner outer.type entry.2) :
    HoldsEntry kind component inner ⟨info, .collection layout⟩ (.collection entries)

section Held

variable {kind : CollectionKind} {component : Component CompiledType} {type : CompiledType}
  {inner value : Value}

theorem HoldsEntry.exists_layout (h : HoldsEntry kind component inner type value) :
    ∃ outer layout, type.Reaches outer ∧ outer.form = .collection layout ∧ layout.kind = kind ∧
      component ∈ layout.components := by
  induction h with
  | «alias» _ ih =>
      obtain ⟨outer, layout, hreaches, hrest⟩ := ih
      exact ⟨outer, layout, .of_mem TypeForm.target_mem_types hreaches, hrest⟩
  | tagged _ ih =>
      obtain ⟨outer, layout, hreaches, hrest⟩ := ih
      exact ⟨outer, layout, .of_mem TypeForm.inner_mem_types hreaches, hrest⟩
  | item helement _ _ ih =>
      obtain ⟨outer, layout, hreaches, hrest⟩ := ih
      have hmem := TypeForm.type_mem_types (Layout.mem_components_of_element? helement)
      exact ⟨outer, layout, .of_mem hmem hreaches, hrest⟩
  | entry hkind hentry hfind =>
      exact ⟨_, _, .refl _, rfl, hkind, List.mem_of_find?_eq_some hfind⟩
  | within _ hfind _ ih =>
      obtain ⟨outer, layout, hreaches, hrest⟩ := ih
      have hmem := TypeForm.type_mem_types (Layout.mem_components_of_component? hfind)
      exact ⟨outer, layout, .of_mem hmem hreaches, hrest⟩

theorem IsChecked.default?_ne (hchecked : type.IsChecked value)
    (h : HoldsEntry kind component inner type value) (hkind : kind ≠ .choice) :
    component.default? ≠ some inner := by
  induction h with
  | «alias» _ ih => exact ih (isChecked_alias_iff.mp hchecked)
  | tagged _ ih => exact ih (isChecked_tagged_iff.mp hchecked)
  | item helement hitem _ ih =>
      exact ih (isChecked_list_iff.mp hchecked _ helement _ hitem)
  | entry hlayout hentry hfind =>
      exact (isChecked_entries_iff.mp hchecked _ hentry _ hfind).1 (hlayout ▸ hkind)
  | within hentry hfind _ ih =>
      exact ih (isChecked_entries_iff.mp hchecked _ hentry _ hfind).2

end Held

section Reading

variable {rules : EncodingRules} {values : NamedValues} {layout : Layout CompiledType}
  {header : Header} {tag? : Option Tag} {depth position : Nat} {octets : Octets} {value : Value}

/-- An accepted entry that names a component was read as one, and a SEQUENCE or SET does not hold it
if it is read just like its default. -/
theorem ReadsCollection.exists_reads (hregular : layout.IsRegular)
    (htypes : ∀ component ∈ layout.components, component.type.IsRegular)
    (hrules : rules.isRestricted = true) {entries : Entries} (hvalue : value = .collection entries)
    (h : ReadsCollection layout rules header depth position tag? octets value)
    {entry : String × Value} (hentry : entry ∈ entries) {scope : Scope}
    (haccept : ∀ component, layout.component? entry.1 = some component →
      component.type.accept values scope entry.2 = .ok ())
    {component : Component CompiledType} (hfind : layout.component? entry.1 = some component) :
    (layout.kind ≠ .choice → component.default? ≠ some entry.2) ∧
      ∃ header position octets,
        (component.type.read rules ⟨header, none, depth⟩).Reads position octets entry.2 := by
  have hknown {name : String} {inner : Value} {header : Header} {position : Nat} {octets : Octets}
      (heq : entry = (name, inner)) :
      ¬(Decoder.readUnknown rules header depth).Reads position octets (name, inner) := by
    rintro hunknown
    obtain ⟨copied, -, hcopied⟩ := Decoder.reads_readUnknown_iff.mp hunknown
    obtain rfl := heq.trans hcopied
    have hnone := Layout.component?_eq_none_of_accept_captured htypes haccept
    exact absurd (hnone.symm.trans hfind) (by simp)
  have hunique {previous? : Option Nat} {tag : Tag} {other : Component CompiledType}
      (hmatch : layout.match? previous? tag = some other) (hname : entry.1 = other.name) :
      other = component := by
    have hother := hregular.component?_eq_some_iff.mpr
      ⟨Layout.mem_components_of_match? hmatch, hname.symm⟩
    exact Option.some.inj (hother.symm.trans hfind)
  cases h with
  | list => exact absurd hvalue (by simp)
  | entries htag hlist hheader helements =>
      obtain rfl := Value.collection.inj hvalue
      obtain ⟨_, _, header, _, _, _, -, -, hreads⟩ := helements.exists_of_mem hentry
      cases hmatch : layout.match? _ header.tag with
      | some other =>
          obtain ⟨hname, -, hinner, hdefault⟩ := (reads_component_iff hmatch).mp hreads
          obtain rfl := hunique hmatch hname
          exact ⟨fun _ => hdefault hrules, _, _, _, hinner⟩
      | none =>
          obtain ⟨-, -, hunknown⟩ := (reads_unknown_iff hmatch).mp hreads
          exact absurd hunknown (hknown rfl)
  | alternative hkind hmatch hinner =>
      obtain rfl := Value.collection.inj hvalue
      rw [List.mem_singleton] at hentry
      rw [← Layout.match?_of_ne_sequence (by simp [hkind]) none] at hmatch
      obtain rfl := hunique hmatch (by rw [hentry])
      exact ⟨fun h => absurd hkind h, _, _, _, by rwa [hentry]⟩
  | unknown hkind hmatch hallows hunknown =>
      obtain rfl := Value.collection.inj hvalue
      exact absurd hunknown (hknown (List.mem_singleton.mp hentry))

/-- Whatever is read under restricted rules is checked, if it is accepted. -/
theorem isChecked_of_reads {type : CompiledType} (hregular : type.IsRegular)
    (hrules : rules.isRestricted = true)
    (hreads : (type.read rules ⟨header, tag?, depth⟩).Reads position octets value) {scope : Scope}
    (haccept : type.accept values scope value = .ok ()) : type.IsChecked value := by
  induction hreads using readsInduct generalizing scope with
  | builtin h => exact isChecked_builtin_iff.mpr (isReference_of_reads h)
  | «alias» h _ ih =>
      have htarget := hregular.of_mk.2 _ TypeForm.target_mem_types
      exact isChecked_alias_iff.mpr (ih htarget (accepts_of_reads hregular h haccept))
  | implicit _ h _ ih =>
      have hinner := hregular.of_mk.2 _ TypeForm.inner_mem_types
      exact isChecked_tagged_iff.mpr (ih hinner (accepts_of_reads hregular h haccept))
  | explicit _ h _ _ _ _ ih =>
      have hinner := hregular.of_mk.2 _ TypeForm.inner_mem_types
      exact isChecked_tagged_iff.mpr (ih hinner (accepts_of_reads hregular h haccept))
  | collection layout h ih =>
      obtain ⟨hlayout, htypes⟩ := hregular.of_mk
      have hinner (component) (hmem : component ∈ layout.components) :=
        htypes component.type (TypeForm.type_mem_types hmem)
      have haccepts := accepts_of_reads hregular h haccept
      have hcollection := readsCollection_of_reads h
      rw [TypeForm.Accepts] at haccepts
      split at haccepts
      · obtain ⟨element, items, helement, rfl, hall⟩ := haccepts
        cases hcollection with
        | list htag hlist hfound hheader helements =>
            obtain rfl := Option.some.inj (helement.symm.trans hfound)
            have hmem := Layout.mem_components_of_element? helement
            refine isChecked_list_iff.mpr fun other hother item hitem => ?_
            obtain rfl := Option.some.inj (helement.symm.trans hother)
            obtain ⟨_, _, _, _, _, _, -, -, hreads⟩ := helements.exists_of_mem hitem
            exact ih _ hmem ((Decoder.reads_readItem_iff (isLocal_read _ _)).mp hreads)
              (hinner _ hmem) (hall item hitem)
      · obtain ⟨entries, rfl, -, hall⟩ := haccepts
        refine isChecked_entries_iff.mpr fun entry hentry component hfind => ?_
        obtain ⟨hdefault, _, _, _, hreads⟩ := hcollection.exists_reads (hlayout layout rfl) hinner
          hrules rfl hentry (hall entry hentry) hfind
        have hmem := Layout.mem_components_of_component? hfind
        exact ⟨hdefault, ih _ hmem hreads (hinner _ hmem) (hall entry hentry component hfind)⟩

end Reading

section Canonicalizing

variable {values : NamedValues} {scope : Scope} {type : CompiledType} {value : Value}
  {result : CanonicalForm}

theorem canonicalize_of_scope (hregular : type.IsRegular) (hranges : type.HasRangesOnly)
    (h : type.canonicalize values scope value = .ok result) (scope' : Scope) :
    type.canonicalize values scope' value = .ok result := by
  induction type using CompiledType.induct generalizing scope scope' value result with
  | mk info form ih =>
      obtain ⟨hlayout, htypes⟩ := hregular.of_mk
      obtain ⟨hconstraints, hinner⟩ := hranges.of_mk
      obtain ⟨resolved, canonical, hresolve, hform, hchecks, rfl⟩ :=
        (canonicalize_mk_iff hlayout).mp h
      refine (canonicalize_mk_iff hlayout).mpr ⟨resolved, canonical, hresolve, ?_, ?_, rfl⟩
      · refine hform.imp fun inner hmem => ?_
        have hany {scope scope' : Scope} {value : Value} {result : CanonicalForm}
            (h : inner.canonicalize values scope value = .ok result) :=
          ih inner hmem (htypes inner hmem) (hinner inner hmem) h scope'
        exact ⟨hany, fun _ => hany⟩
      · intro constraint hmem
        exact (Constraint.check_eq_ok_iff_of_isAlike (hconstraints constraint hmem)
          (Value.IsAlike.refl _) _ _).mp (hchecks constraint hmem)

theorem equalsDefault_of_canonicalize {component : Component CompiledType}
    (hregular : component.type.IsRegular) (hranges : component.type.HasRangesOnly)
    (h : component.type.canonicalize values scope value = .ok result) :
    component.EqualsDefault values value ↔ component.default? = some result.value := by
  have htop := canonicalize_of_scope hregular hranges h .top
  constructor
  · rintro ⟨form, hform, hdefault⟩
    rwa [Except.ok.inj (htop.symm.trans hform)]
  · exact fun hdefault => ⟨result, htop, hdefault⟩

variable {layout : Layout CompiledType} {entries : Entries} {results : List (Option CanonicalEntry)}

theorem forall₂_sameEntry_of_kept
    (hresults : List.Forall₂ (layout.CanonicalizesEntry values scope) entries results)
    (hkept : ∀ entry ∈ entries, ∀ component, layout.component? entry.1 = some component →
      ∀ form, component.type.canonicalize values scope entry.2 = .ok form →
        component.type.Rearranges entry.2 form.value ∧ component.default? ≠ some form.value) :
    List.Forall₂ (layout.SameEntry Rearranges) entries
      ((results.filterMap id).map CanonicalEntry.entry) := by
  induction hresults with
  | nil => exact .nil
  | @cons entry result rest _ hentry _ ih =>
      rw [List.forall_mem_cons] at hkept
      obtain ⟨hkeptEntry, hkept⟩ := hkept
      have hrest := ih hkept
      rw [Layout.CanonicalizesEntry] at hentry
      cases hfind : layout.component? entry.1 with
      | none =>
          simp only [hfind] at hentry
          subst hentry
          exact .cons ⟨rfl, by simp only [hfind]; rfl⟩ hrest
      | some component =>
          simp only [hfind] at hentry
          obtain ⟨form, hform, rfl⟩ := hentry
          obtain ⟨hsame, hdefault⟩ := hkeptEntry component hfind form hform
          rw [if_neg hdefault]
          exact .cons ⟨rfl, by simp only [hfind]; exact hsame⟩ hrest

/-- The canonical form of a value without references rearranges it, unless an entry becomes its
default of which everything is kept. -/
theorem rearranges_of_canonicalize (hregular : type.IsRegular) (hchecked : type.IsChecked value)
    (h : type.canonicalize values scope value = .ok result)
    (hdefaults : ∀ kind component inner, HoldsEntry kind component inner type value →
      ∀ scope form, component.type.canonicalize values scope inner = .ok form →
        component.type.Rearranges inner form.value → component.default? ≠ some form.value) :
    type.Rearranges value result.value := by
  induction type using CompiledType.induct generalizing scope value result with
  | mk info form ih =>
      obtain ⟨hlayout, htypes⟩ := hregular.of_mk
      obtain ⟨resolved, canonical, hresolve, hform, -, rfl⟩ := (canonicalize_mk_iff hlayout).mp h
      obtain rfl := NamedValues.eq_of_resolve hchecked.isReference hresolve
      show Rearranges ⟨info, form⟩ value canonical.value
      cases form with
      | builtin builtin =>
          obtain ⟨-, rfl⟩ := hform
          exact rearranges_builtin_iff.mpr rfl
      | «alias» target =>
          have hmem : target ∈ (TypeForm.alias target).types := TypeForm.target_mem_types
          exact rearranges_alias_iff.mpr (ih target hmem (htypes _ hmem)
            (isChecked_alias_iff.mp hchecked) hform
            fun kind component inner hholds => hdefaults kind component inner (.alias hholds))
      | tagged tag method inner =>
          have hmem : inner ∈ (TypeForm.tagged tag method inner).types := TypeForm.inner_mem_types
          exact rearranges_tagged_iff.mpr (ih inner hmem (htypes _ hmem)
            (isChecked_tagged_iff.mp hchecked) hform
            fun kind component inner hholds => hdefaults kind component inner (.tagged hholds))
      | collection layout =>
          rw [TypeForm.Canonicalizes] at hform
          split at hform
          · obtain ⟨element, items, forms, helement, rfl, hforms, rfl⟩ := hform
            have hmem := TypeForm.type_mem_types (Layout.mem_components_of_element? helement)
            refine rearranges_list_iff.mpr ⟨element, helement, ?_⟩
            rw [List.forall₂_map_right_iff]
            refine forall₂_imp_of_mem hforms fun item hitem _ _ hitemForm => ?_
            exact ih _ hmem (htypes _ hmem)
              (isChecked_list_iff.mp hchecked element helement item hitem) hitemForm
              fun kind component inner hholds =>
                hdefaults kind component inner (.item helement hitem hholds)
          · obtain ⟨entries, results, rfl, -, hresults, rfl⟩ := hform
            obtain ⟨kept, hvalue, hperm, hsame, -⟩ :=
              CanonicalForm.exists_ofEntries layout.kind results
            have hmatched := forall₂_sameEntry_of_kept hresults
              fun entry hentry component hfind form hform => by
                have hmem := TypeForm.type_mem_types (Layout.mem_components_of_component? hfind)
                have hinner := ih _ hmem (htypes _ hmem)
                  (isChecked_entries_iff.mp hchecked entry hentry component hfind).2 hform
                  fun kind component inner hholds =>
                    hdefaults kind component inner (.within hentry hfind hholds)
                exact ⟨hinner, hdefaults layout.kind component entry.2
                  (.entry rfl hentry hfind) _ form hform hinner⟩
            show Rearranges _ _ (CanonicalForm.ofEntries layout.kind results).value
            rw [hvalue]
            refine rearranges_entries_iff.mpr ⟨_, hmatched, (hperm.symm.map _), fun hkind => ?_⟩
            rw [hsame hkind]

theorem exists_canonical_of_rearranges {info : TypeInfo} {canonical : CanonicalForm}
    (hform :
      (TypeForm.collection layout).Canonicalizes values scope (.collection entries) canonical)
    (hsame : Rearranges ⟨info, .collection layout⟩ (.collection entries) canonical.value)
    {entry : String × Value} (hentry : entry ∈ entries) {component : Component CompiledType}
    (hfind : layout.component? entry.1 = some component) :
    ∃ form, component.type.canonicalize values (scope.walking entries) entry.2 = .ok form ∧
      component.default? ≠ some form.value ∧ component.type.Rearranges entry.2 form.value := by
  rw [TypeForm.Canonicalizes] at hform
  split at hform
  · obtain ⟨_, _, _, -, ⟨⟩, -⟩ := hform
  obtain ⟨_, results, ⟨⟩, hadmits, hresults, rfl⟩ := hform
  obtain ⟨kept, hkept, hperm, -⟩ := CanonicalForm.exists_ofEntries layout.kind results
  rw [hkept] at hsame
  obtain ⟨matched, hmatched, hsame, -⟩ := rearranges_entries_iff.mp hsame
  have hlength : (results.filterMap id).length = results.length := by
    rw [← hperm.length_eq, ← hresults.length_eq, hmatched.length_eq, hsame.length_eq,
      List.length_map]
  have hall := List.filterMap_length_eq_length.mp hlength
  obtain ⟨result, hresult, hfate⟩ := forall₂_exists_of_mem hresults.flip hentry
  change layout.CanonicalizesEntry values _ entry result at hfate
  rw [Layout.CanonicalizesEntry] at hfate
  simp only [hfind] at hfate
  obtain ⟨form, hform, rfl⟩ := hfate
  have hdefault : component.default? ≠ some form.value := by
    intro hdefault
    have hsome := hall _ hresult
    simp [hdefault] at hsome
  refine ⟨form, hform, hdefault, ?_⟩
  -- What the entry is matched to stems from an entry of the same name, which can only be itself.
  obtain ⟨other, hother, hentrySame⟩ := forall₂_exists_of_mem hmatched.flip hentry
  obtain ⟨hname, hvalue⟩ := hentrySame
  simp only [hfind] at hvalue
  obtain ⟨found, hfound, rfl⟩ := List.mem_map.mp (hsame.subset hother)
  obtain ⟨source, hsource, hsourceName, -, -, hknown⟩ :=
    Layout.exists_of_mem_kept hresults (hperm.subset hfound)
  obtain rfl := hadmits.eq_of_name_eq hentry hsource (hname.trans hsourceName) hfind
  obtain ⟨hfoundForm, -⟩ := hknown component hfind
  obtain rfl := Except.ok.inj (hform.symm.trans hfoundForm)
  exact hvalue

/-- If a value is rearranged by its canonical form, none of its entries becomes its default. -/
theorem not_equalsDefault_of_rearranges (hregular : type.IsRegular) (hranges : type.HasRangesOnly)
    (hchecked : type.IsChecked value) (h : type.canonicalize values scope value = .ok result)
    (hsame : type.Rearranges value result.value) {kind : CollectionKind}
    {component : Component CompiledType} {inner : Value}
    (hholds : HoldsEntry kind component inner type value) :
    ¬component.EqualsDefault values inner := by
  induction type using CompiledType.induct generalizing scope value result with
  | mk info form ih =>
      obtain ⟨hlayout, htypes⟩ := hregular.of_mk
      obtain ⟨-, hrangesInner⟩ := hranges.of_mk
      obtain ⟨resolved, canonical, hresolve, hform, -, rfl⟩ := (canonicalize_mk_iff hlayout).mp h
      obtain rfl := NamedValues.eq_of_resolve hchecked.isReference hresolve
      change Rearranges ⟨info, form⟩ value canonical.value at hsame
      cases hholds with
      | @«alias» _ target _ hholds =>
          have hmem : target ∈ (TypeForm.alias target).types := TypeForm.target_mem_types
          exact ih target hmem (htypes _ hmem) (hrangesInner _ hmem)
            (isChecked_alias_iff.mp hchecked) hform (rearranges_alias_iff.mp hsame) hholds
      | @tagged _ tag method inner _ hholds =>
          have hmem : inner ∈ (TypeForm.tagged tag method inner).types := TypeForm.inner_mem_types
          exact ih inner hmem (htypes _ hmem) (hrangesInner _ hmem)
            (isChecked_tagged_iff.mp hchecked) hform (rearranges_tagged_iff.mp hsame) hholds
      | @item _ layout element items item helement hitem hholds =>
          rw [TypeForm.Canonicalizes] at hform
          split at hform
          · obtain ⟨_, _, forms, hother, ⟨⟩, hforms, rfl⟩ := hform
            obtain rfl := Option.some.inj (helement.symm.trans hother)
            have hmem := TypeForm.type_mem_types (Layout.mem_components_of_element? helement)
            obtain ⟨_, hother, hitems⟩ := rearranges_list_iff.mp hsame
            obtain rfl := Option.some.inj (helement.symm.trans hother)
            rw [List.forall₂_map_right_iff] at hitems
            obtain ⟨i, hi, rfl⟩ := List.getElem_of_mem hitem
            have hi' : i < forms.length := hforms.length_eq ▸ hi
            exact ih _ hmem (htypes _ hmem) (hrangesInner _ hmem)
              (isChecked_list_iff.mp hchecked element helement _ hitem) (hforms.get hi hi')
              (hitems.get hi hi') hholds
          · obtain ⟨_, _, ⟨⟩, -⟩ := hform
      | @entry _ layout entries name hkind hentry hfind =>
          obtain ⟨form, hformEntry, hdefault, -⟩ :=
            exists_canonical_of_rearranges hform hsame hentry hfind
          have hmem := TypeForm.type_mem_types (List.mem_of_find?_eq_some hfind)
          rwa [equalsDefault_of_canonicalize (htypes _ hmem) (hrangesInner _ hmem) hformEntry]
      | @within _ layout entries entry outer hentry hfind hholds =>
          obtain ⟨form, hformEntry, -, hsameEntry⟩ :=
            exists_canonical_of_rearranges hform hsame hentry hfind
          have hmem := TypeForm.type_mem_types (Layout.mem_components_of_component? hfind)
          exact ih _ hmem (htypes _ hmem) (hrangesInner _ hmem)
            (isChecked_entries_iff.mp hchecked entry hentry outer hfind).2 hformEntry hsameEntry
            hholds

/-- A canonical form leaves out nothing exactly if no entry becomes its default. -/
theorem rearranges_canonical_iff (hregular : type.IsRegular) (hranges : type.HasRangesOnly)
    (hchecked : type.IsChecked value) (h : type.canonicalize values scope value = .ok result) :
    type.Rearranges value result.value ↔ ∀ kind component inner,
      HoldsEntry kind component inner type value → ¬component.EqualsDefault values inner := by
  constructor
  · intro hsame kind component inner hholds
    exact not_equalsDefault_of_rearranges hregular hranges hchecked h hsame hholds
  · intro hdefaults
    refine rearranges_of_canonicalize hregular hchecked h ?_
    intro kind component inner hholds scope form hform _ hdefault
    obtain ⟨outer, layout, hreaches, hlayout, -, hmem⟩ := hholds.exists_layout
    obtain ⟨info, _⟩ := outer
    obtain rfl := hlayout
    have hreachesType := hreaches.tail (TypeForm.type_mem_types hmem)
    have hregularType : component.type.IsRegular :=
      fun inner hinner => hregular inner (hreachesType.trans hinner)
    have hrangesType : component.type.HasRangesOnly :=
      fun inner hinner => hranges inner (hreachesType.trans hinner)
    exact hdefaults kind component inner hholds
      ((equalsDefault_of_canonicalize hregularType hrangesType hform).mpr hdefault)

/-- Whether defaults have one form only: no alternative of a CHOICE has one, and no component that
has one holds a SET. -/
def HasOrderedDefaults (type : CompiledType) : Prop :=
  ∀ outer, type.Reaches outer → ∀ layout, outer.form = .collection layout →
    ∀ component ∈ layout.components, component.default? ≠ none →
      layout.kind ≠ .choice ∧ ∀ inner, component.type.Reaches inner → ∀ layout,
        inner.form = .collection layout → layout.kind ≠ .set

/-- Where defaults have one form only, checked values keep all entries. -/
theorem rearranges_of_hasOrderedDefaults (hregular : type.IsRegular)
    (hordered : type.HasOrderedDefaults) (hchecked : type.IsChecked value)
    (h : type.canonicalize values scope value = .ok result) :
    type.Rearranges value result.value := by
  refine rearranges_of_canonicalize hregular hchecked h ?_
  intro kind component inner hholds scope form _ hsame hdefault
  obtain ⟨outer, layout, hreaches, hlayout, rfl, hmem⟩ := hholds.exists_layout
  obtain ⟨hkind, hsets⟩ :=
    hordered outer hreaches layout hlayout component hmem (by simp [hdefault])
  obtain rfl := hsame.eq hsets
  exact hchecked.default?_ne hholds hkind hdefault

end Canonicalizing

end CompiledType

namespace Schema

variable {schema : Schema} {handle : Handle} {type : CompiledType} {decoder : Decoder}
  {octets : Octets} {value : Value}

/-- Under restricted rules, no component is decoded that is written just like its default. The
canonical form of what was decoded keeps all entries exactly if none of them becomes its default
there, which is so if defaults have one form only. -/
theorem Reachable.decode_keeps_entries (hschema : schema.Reachable)
    (hcompiled : schema.compiled handle = .ok type) (hranges : type.HasRangesOnly)
    (hrules : decoder.rules.isRestricted = true)
    (hdecode : schema.decode handle decoder octets = .ok value) :
    ∃ form, schema.canonicalize handle value = .ok form ∧
      (∀ kind component inner, type.HoldsEntry kind component inner value → kind ≠ .choice →
        component.default? ≠ some inner) ∧
      (type.Rearranges value form.value ↔ ∀ kind component inner,
        type.HoldsEntry kind component inner value →
          ¬component.EqualsDefault schema.values inner) ∧
      (type.HasOrderedDefaults → type.Rearranges value form.value) := by
  have hregular := hschema.consistent.isRegular hcompiled
  obtain ⟨outer, header, content, form, rfl, -, hreads, haccept, hform, hcanonicalize⟩ :=
    hschema.exists_canonical_of_decode hcompiled hranges hdecode
  have hchecked := CompiledType.isChecked_of_reads hregular hrules hreads haccept
  refine ⟨form, hcanonicalize, ?_, ?_, ?_⟩
  · exact fun kind component inner hholds hkind => hchecked.default?_ne hholds hkind
  · exact CompiledType.rearranges_canonical_iff hregular hranges hchecked hform
  · exact fun hordered =>
      CompiledType.rearranges_of_hasOrderedDefaults hregular hordered hchecked hform

/-- A value that holds something else than the default of `b` keeps it. -/
theorem decode_keeps_entries_defaultedSequence :
    let type : CompiledType := ⟨⟨⟨2⟩, none, []⟩, .collection defaultedLayout⟩
    let value : Value :=
      .collection [("b", .boolean true), ("x", .integer ⟨5, by decide, by decide⟩)]
    defaultedSequence.decode ⟨2⟩ ⟨.der, 2⟩ [0x30, 0x06, 0x01, 0x01, 0xff, 0x02, 0x01, 0x05] =
        .ok value ∧
      type.HasOrderedDefaults ∧ type.Rearranges value value := by
  intro type value
  have hdecode : defaultedSequence.decode ⟨2⟩ ⟨.der, 2⟩
      [0x30, 0x06, 0x01, 0x01, 0xff, 0x02, 0x01, 0x05] = .ok value := by decide +kernel
  have hordered : type.HasOrderedDefaults := by
    refine forall_reaches_defaultedLayout ?_ (by rintro _ ⟨⟩) (by rintro _ ⟨⟩)
    rintro _ ⟨⟩
    simp [defaultedLayout, CompiledType.forall_reaches_mk_iff, TypeForm.types, CompiledType.form]
  obtain ⟨form, hform, -, -, hkeeps⟩ := Reachable.decode_keeps_entries
    (reachable_extendedSequence _ _ _) compiled_defaultedSequence hasRangesOnly_defaultedLayout
    rfl hdecode
  obtain rfl : form = ⟨value, false⟩ := by
    have hcanonicalize : defaultedSequence.canonicalize ⟨2⟩ value = .ok ⟨value, false⟩ := rfl
    exact Except.ok.inj (hform.symm.trans hcanonicalize)
  exact ⟨hdecode, hordered, hkeeps hordered⟩

def memberDefault : Value :=
  .collection [("a", .integer ⟨1, by decide, by decide⟩), ("b", .boolean true)]

/-- A SET of an INTEGER and a BOOLEAN, and a SEQUENCE in which it has a default. -/
def defaultedSet : Schema :=
  let members : List ComponentDeclaration :=
    [⟨"a", .handle ⟨0⟩, false, none⟩, ⟨"b", .handle ⟨1⟩, false, none⟩]
  let component : ComponentDeclaration := ⟨"s", .handle ⟨2⟩, false, some memberDefault⟩
  let leaves := ((empty.add ⟨.builtin .integer, []⟩).2.add ⟨.builtin .boolean, []⟩).2
  let set := (leaves.add ⟨.collection ⟨.set, false, false, [.components members], [], []⟩, []⟩).2
  let sequence := set.add
    ⟨.collection ⟨.sequence, false, false, [.components [component]], [], []⟩, []⟩
  ((Schema.compile ⟨3⟩).outcome sequence.2).2

def memberSet : CompiledType :=
  ⟨⟨⟨2⟩, none, []⟩, .collection ⟨.set, false,
    [⟨"a", 0, 1, false, none, .handle ⟨0⟩,
        ⟨⟨⟨0⟩, none, []⟩, .builtin .integer⟩, false, [.integer]⟩,
      ⟨"b", 1, 1, false, none, .handle ⟨1⟩,
        ⟨⟨⟨1⟩, none, []⟩, .builtin .boolean⟩, false, [.boolean]⟩]⟩⟩

def defaultedSetLayout : Layout CompiledType :=
  ⟨.sequence, false,
    [⟨"s", 0, 1, false, some memberDefault, .handle ⟨2⟩, memberSet, false, [.set]⟩]⟩

theorem compiled_defaultedSet : defaultedSet.compiled ⟨3⟩ =
    .ok ⟨⟨⟨3⟩, none, []⟩, .collection defaultedSetLayout⟩ := by
  apply compiled_of_hasCompiled
  decide +kernel

/-- A component whose type is a SET is not recognized as its default if its elements come in another
order than that of the canonical form. -/
theorem exists_decoded_default :
    let type : CompiledType := ⟨⟨⟨3⟩, none, []⟩, .collection defaultedSetLayout⟩
    let value : Value := .collection
      [("s", .collection [("b", .boolean true), ("a", .integer ⟨1, by decide, by decide⟩)])]
    defaultedSet.Reachable ∧ defaultedSet.compiled ⟨3⟩ = .ok type ∧ type.HasRangesOnly ∧
      defaultedSet.decode ⟨3⟩ ⟨.der, 3⟩
          [0x30, 0x08, 0x31, 0x06, 0x02, 0x01, 0x01, 0x01, 0x01, 0xff] =
            .error (.format (.ruleViolation .defaultPresent) 2) ∧
        defaultedSet.decode ⟨3⟩ ⟨.der, 3⟩
            [0x30, 0x08, 0x31, 0x06, 0x01, 0x01, 0xff, 0x02, 0x01, 0x01] = .ok value ∧
          defaultedSet.canonicalize ⟨3⟩ value = .ok ⟨.collection [], true⟩ ∧
            ¬type.Rearranges value (.collection []) := by
  intro type value
  have hreachable : defaultedSet.Reachable :=
    .compile (.add (.add (.add (.add .empty _) _) _) _) _
  refine ⟨hreachable, compiled_defaultedSet, ?_, ?_, ?_, ?_, ?_⟩
  · rw [CompiledType.HasRangesOnly]
    simp [type, defaultedSetLayout, memberSet, CompiledType.forall_reaches_mk_iff, TypeForm.types,
      CompiledType.info]
  · decide +kernel
  · decide +kernel
  · have haccept : defaultedSet.accept ⟨3⟩ value = .ok () := by decide +kernel
    have hregular : type.IsRegular := hreachable.consistent.isRegular compiled_defaultedSet
    obtain ⟨hadmits, -⟩ := (TypeForm.accepts_entries_iff rfl).mp
      (CompiledType.accepts_collection_of_accept (hregular.of_mk.1 _ rfl) rfl
        ((accept_eq_ok_iff compiled_defaultedSet).mp haccept))
    have hmembers (values : NamedValues) (scope : Scope) :
        memberSet.canonicalize values scope
            (.collection [("b", .boolean true), ("a", .integer ⟨1, by decide, by decide⟩)]) =
          .ok ⟨memberDefault, true⟩ := by
      let a : CanonicalEntry := ⟨some 1, "b", ⟨.boolean true, false⟩⟩
      let b : CanonicalEntry := ⟨some 0, "a", ⟨.integer ⟨1, by decide, by decide⟩, false⟩⟩
      let form := CanonicalForm.ofEntries .set [some a, some b]
      have hform : form = ⟨memberDefault, true⟩ :=
        CanonicalForm.ofEntries_pair (a := a) (b := b) rfl rfl
      change Except.ok (CanonicalForm.mk form.value (form.changed || false)) = _
      rw [hform]
      rfl
    refine (canonicalize_eq_ok_iff compiled_defaultedSet).mpr ⟨⟨value, rfl⟩, ?_⟩
    refine (CompiledType.canonicalize_mk_iff hregular.of_mk.1).mpr
      ⟨value, ⟨.collection [], true⟩, rfl, ?_, by simp, rfl⟩
    exact ⟨_, [none], rfl, hadmits, .cons ⟨⟨memberDefault, true⟩, hmembers _ _, rfl⟩ .nil, rfl⟩
  · intro hsame
    obtain ⟨matched, hmatched, hperm, -⟩ := CompiledType.rearranges_entries_iff.mp hsame
    simp [hperm.eq_nil] at hmatched

end Schema

end Asn1

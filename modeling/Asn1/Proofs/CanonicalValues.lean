import Asn1.Proofs.Conforming
import Mathlib.Data.List.Perm.Basic

/-!
Canonical values. Finding the canonical form of a value is the same as checking it, what is found is
canonical, and a canonical value is its own canonical form as long as it still conforms. Leaving out
defaults may take away what other entries depend on, which is said by stability.
-/

namespace Asn1

open Results

namespace Layout

variable {τ : Type}

/-- The index of the component that an entry names. -/
def entryIndex? (layout : Layout τ) (entry : String × Value) : Option Nat :=
  (layout.component? entry.1).map Component.index

/-- Whether an entry names no component. -/
def isUnknown (layout : Layout τ) (entry : String × Value) : Bool :=
  (layout.component? entry.1).isNone

/-- Whether the entries stand in the order of a canonical SET: by index, unknown ones last. -/
def IsIndexOrdered (layout : Layout τ) (entries : Entries) : Prop :=
  entries.Pairwise fun a b =>
    ∀ j ∈ layout.entryIndex? b, ∃ i ∈ layout.entryIndex? a, i ≤ j

/-- Whether a canonical collection value still meets what its entries ask of each other: it is empty
only if nothing is required, and what a SEQUENCE does not know follows an extension addition. -/
def IsStable (layout : Layout τ) (entries : Entries) : Prop :=
  (entries = [] → layout.kind ≠ .choice ∧ layout.isAllOptional = true) ∧
    (layout.kind = .sequence → ∀ before entry after, entries = before ++ entry :: after →
      layout.component? entry.1 = none →
        ∃ component, (layout.known before).getLast? = some component ∧
          component.isAddition = true)

end Layout

namespace CompiledType

/-- Whether a value is in canonical form for a form of type. -/
def isCanonicalStep (_ : TypeInfo) : TypeForm (Value → Prop) → Value → Prop
  | .builtin _, value => value.isReference = false
  | .alias target, value => target value
  | .tagged _ _ inner, value => inner value
  | .collection layout, .list items => ∀ element, layout.element? = some element →
      ∀ item ∈ items, element.type item
  | .collection layout, .collection entries =>
    (layout.kind = .set → layout.IsIndexOrdered entries) ∧
      ∀ entry ∈ entries, ∀ component, layout.component? entry.1 = some component →
        component.default? ≠ some entry.2 ∧ component.type entry.2
  | .collection _, value => value.isReference = false

/-- Whether a value holds no references where it is matched to the type, no component equal to its
default, and the entries of each SET in index order. -/
def IsCanonical (type : CompiledType) : Value → Prop :=
  type.interpret isCanonicalStep

def isStableStep (_ : TypeInfo) : TypeForm (Value → Prop) → Value → Prop
  | .builtin _, _ => True
  | .alias target, value => target value
  | .tagged _ _ inner, value => inner value
  | .collection layout, .list items => ∀ element, layout.element? = some element →
      ∀ item ∈ items, element.type item
  | .collection layout, .collection entries => layout.IsStable entries ∧
      ∀ entry ∈ entries, ∀ component, layout.component? entry.1 = some component →
        component.type entry.2
  | .collection _, _ => True

/-- Whether all collection values in a value of a type are stable. -/
def IsStable (type : CompiledType) : Value → Prop :=
  type.interpret isStableStep

variable {info : TypeInfo}

theorem isCanonical_builtin_iff {builtin : Builtin} {value : Value} :
    IsCanonical ⟨info, .builtin builtin⟩ value ↔ value.isReference = false := by
  rw [IsCanonical, interpret_mk]
  rfl

theorem isCanonical_alias_iff {target : CompiledType} {value : Value} :
    IsCanonical ⟨info, .alias target⟩ value ↔ target.IsCanonical value := by
  rw [IsCanonical, interpret_mk]
  rfl

theorem isCanonical_tagged_iff {tag : Tag} {method : TagMethod} {inner : CompiledType}
    {value : Value} :
    IsCanonical ⟨info, .tagged tag method inner⟩ value ↔ inner.IsCanonical value := by
  rw [IsCanonical, interpret_mk]
  rfl

theorem isCanonical_list_iff {layout : Layout CompiledType} {items : List Value} :
    IsCanonical ⟨info, .collection layout⟩ (.list items) ↔
      ∀ element, layout.element? = some element →
        ∀ item ∈ items, element.type.IsCanonical item := by
  rw [IsCanonical, interpret_mk]
  change (∀ element, (layout.map (interpret isCanonicalStep)).element? = some element → _) ↔ _
  rw [Layout.element?_map]
  cases layout.element? <;> simp [Component.map, IsCanonical]

theorem forall_component?_map_iff {τ : Type} {layout : Layout CompiledType} {f : CompiledType → τ}
    {name : String} {property : Component τ → Prop} :
    (∀ component, (layout.map f).component? name = some component → property component) ↔
      ∀ component, layout.component? name = some component → property (component.map f) := by
  rw [Layout.component?_map]
  cases layout.component? name <;> simp

theorem isCanonical_entries_iff {layout : Layout CompiledType} {entries : Entries} :
    IsCanonical ⟨info, .collection layout⟩ (.collection entries) ↔
      (layout.kind = .set → layout.IsIndexOrdered entries) ∧
        ∀ entry ∈ entries, ∀ component, layout.component? entry.1 = some component →
          component.default? ≠ some entry.2 ∧ component.type.IsCanonical entry.2 := by
  have hindex : (layout.map (interpret isCanonicalStep)).entryIndex? = layout.entryIndex? := by
    funext entry
    rw [Layout.entryIndex?, Layout.component?_map, Option.map_map]
    rfl
  rw [IsCanonical, interpret_mk]
  change ((layout.kind = .set → (layout.map (interpret isCanonicalStep)).IsIndexOrdered entries) ∧
    ∀ entry ∈ entries, ∀ component,
      (layout.map (interpret isCanonicalStep)).component? entry.1 = some component → _) ↔ _
  rw [Layout.IsIndexOrdered, hindex]
  simp only [forall_component?_map_iff]
  rfl

theorem isStable_alias_iff {target : CompiledType} {value : Value} :
    IsStable ⟨info, .alias target⟩ value ↔ target.IsStable value := by
  rw [IsStable, interpret_mk]
  rfl

theorem isStable_tagged_iff {tag : Tag} {method : TagMethod} {inner : CompiledType}
    {value : Value} :
    IsStable ⟨info, .tagged tag method inner⟩ value ↔ inner.IsStable value := by
  rw [IsStable, interpret_mk]
  rfl

theorem isStable_builtin {builtin : Builtin} {value : Value} :
    IsStable ⟨info, .builtin builtin⟩ value := by
  rw [IsStable, interpret_mk]
  trivial

theorem isStable_list_iff {layout : Layout CompiledType} {items : List Value} :
    IsStable ⟨info, .collection layout⟩ (.list items) ↔
      ∀ element, layout.element? = some element → ∀ item ∈ items, element.type.IsStable item := by
  rw [IsStable, interpret_mk]
  change (∀ element, (layout.map (interpret isStableStep)).element? = some element → _) ↔ _
  rw [Layout.element?_map]
  cases layout.element? <;> simp [Component.map, IsStable]

theorem isStable_entries_iff {layout : Layout CompiledType} {entries : Entries} :
    IsStable ⟨info, .collection layout⟩ (.collection entries) ↔
      layout.IsStable entries ∧
        ∀ entry ∈ entries, ∀ component, layout.component? entry.1 = some component →
          component.type.IsStable entry.2 := by
  have hlevel : (layout.map (interpret isStableStep)).IsStable entries ↔
      layout.IsStable entries := by
    have hknown (before : Entries) : (layout.map (interpret isStableStep)).known before =
        (layout.known before).map (Component.map (interpret isStableStep)) := by
      simp only [Layout.known, Layout.component?_map, List.map_filterMap]
    simp only [Layout.IsStable, Layout.isAllOptional_map, Layout.component?_map, hknown,
      List.getLast?_map, Option.map_eq_none_iff, Option.map_eq_some_iff]
    refine and_congr Iff.rfl (forall_congr' fun _ => forall₅_congr fun before _ _ _ _ => ?_)
    constructor
    · rintro ⟨_, ⟨component, hlast, rfl⟩, haddition⟩
      exact ⟨component, hlast, haddition⟩
    · rintro ⟨component, hlast, haddition⟩
      exact ⟨_, ⟨component, hlast, rfl⟩, haddition⟩
  rw [IsStable, interpret_mk]
  change ((layout.map (interpret isStableStep)).IsStable entries ∧ ∀ entry ∈ entries, ∀ component,
      (layout.map (interpret isStableStep)).component? entry.1 = some component → _) ↔ _
  rw [hlevel]
  simp only [forall_component?_map_iff]
  rfl

end CompiledType

namespace CanonicalEntry

theorem le_trans (a b c : CanonicalEntry) (hab : a.le b = true) (hbc : b.le c = true) :
    a.le c = true := by
  simp only [le] at *
  cases ha : a.index? <;> cases hb : b.index? <;> cases hc : c.index? <;>
    simp only [ha, hb, hc, decide_eq_true_eq, Bool.false_eq_true] at *
  exact Nat.le_trans hab hbc

theorem le_total (a b : CanonicalEntry) : (a.le b || b.le a) = true := by
  simp only [le, Bool.or_eq_true]
  cases a.index? <;> cases b.index? <;> simp [Nat.le_total]

theorem isSorted_iff {entries : List CanonicalEntry} :
    isSorted entries = true ↔ entries.Pairwise fun a b => a.le b = true := by
  induction entries with
  | nil => simp [isSorted]
  | cons a rest ih =>
      rcases rest with _ | ⟨b, rest⟩
      · simp [isSorted]
      · rw [isSorted, Bool.and_eq_true, ih, List.pairwise_cons (a := a)]
        refine and_congr_left fun hrest => ?_
        constructor
        · intro hab c hc
          rcases List.mem_cons.mp hc with rfl | hc
          · exact hab
          · exact le_trans a b c hab ((List.pairwise_cons.mp hrest).1 c hc)
        · intro hall
          exact hall b List.mem_cons_self

theorem mergeSort_pair {a b : CanonicalEntry} (h : a.le b = false) :
    [a, b].mergeSort le = [b, a] := by
  have hlength : ([a, b].mergeSort le).length = 2 := List.length_mergeSort _
  have hperm := List.mergeSort_perm [a, b] le
  have hsorted := List.pairwise_mergeSort le_trans le_total [a, b]
  obtain ⟨x, y, hpair⟩ := List.length_eq_two.mp hlength
  rw [hpair] at hperm hsorted ⊢
  have hle : x.le y = true := by simpa using hsorted
  rcases List.mem_pair.mp (hperm.subset List.mem_cons_self) with rfl | rfl
  · obtain rfl := List.singleton_perm_singleton.mp ((List.perm_cons _).mp hperm)
    rw [h] at hle
    contradiction
  · have hswapped := hperm.trans (.swap _ _ _)
    obtain rfl := List.singleton_perm_singleton.mp ((List.perm_cons _).mp hswapped)
    rfl

end CanonicalEntry

theorem CanonicalForm.ofEntries_pair {entries : List (Option CanonicalEntry)}
    {a b : CanonicalEntry} (hentries : entries.filterMap id = [a, b]) (h : a.le b = false) :
    ofEntries .set entries = ⟨.collection [b.entry, a.entry], true⟩ := by
  rw [ofEntries, hentries]
  simp [CanonicalEntry.isSorted, h, CanonicalEntry.mergeSort_pair h]

/-- The canonical form of a collection value keeps the entries that are left, in order for a SET. -/
theorem CanonicalForm.exists_ofEntries (kind : CollectionKind)
    (results : List (Option CanonicalEntry)) :
    ∃ kept : List CanonicalEntry,
      (ofEntries kind results).value = .collection (kept.map CanonicalEntry.entry) ∧
        kept.Perm (results.filterMap id) ∧ (kind ≠ .set → kept = results.filterMap id) ∧
        (kind = .set → kept.Pairwise fun a b => a.le b = true) := by
  rw [ofEntries]
  by_cases hunsorted :
      (kind = .set && !CanonicalEntry.isSorted (results.filterMap id)) = true
  · simp only [hunsorted, if_true]
    refine ⟨_, rfl, List.mergeSort_perm _ _, ?_, ?_⟩
    · intro hkind
      simp [hkind] at hunsorted
    · intro _
      exact List.pairwise_mergeSort CanonicalEntry.le_trans CanonicalEntry.le_total _
  · simp only [hunsorted]
    refine ⟨_, rfl, .refl _, fun _ => rfl, ?_⟩
    intro hkind
    rw [← CanonicalEntry.isSorted_iff]
    simpa [hkind] using hunsorted

namespace Layout

variable {values : NamedValues} {scope : Scope} {layout : Layout CompiledType}

theorem exists_of_mem_kept {entries : Entries} {results : List (Option CanonicalEntry)}
    (hresults : List.Forall₂ (layout.CanonicalizesEntry values scope) entries results)
    {kept : CanonicalEntry} (hkept : kept ∈ results.filterMap id) :
    ∃ entry ∈ entries, kept.name = entry.1 ∧ kept.index? = layout.entryIndex? kept.entry ∧
      (layout.component? entry.1 = none → kept.form = ⟨entry.2, false⟩) ∧
      ∀ component, layout.component? entry.1 = some component →
        component.type.canonicalize values scope entry.2 = .ok kept.form ∧
          component.default? ≠ some kept.form.value := by
  obtain ⟨result, hresult, heq⟩ := List.mem_filterMap.mp hkept
  obtain rfl : result = some kept := heq
  obtain ⟨i, hi, hget⟩ := List.getElem_of_mem hresult
  obtain ⟨hlen, hall⟩ := List.forall₂_iff_get.mp hresults
  have hi' : i < entries.length := hlen ▸ hi
  have hentry := hall i hi' hi
  simp only [List.get_eq_getElem, hget] at hentry
  refine ⟨entries[i], List.getElem_mem _, ?_⟩
  rw [CanonicalizesEntry] at hentry
  cases hfind : layout.component? entries[i].1 with
  | none =>
      simp only [hfind, Option.some.injEq] at hentry
      subst hentry
      simp [entryIndex?, CanonicalEntry.entry, hfind]
  | some component =>
      simp only [hfind] at hentry
      obtain ⟨form, hform, heq⟩ := hentry
      split at heq
      · contradiction
      · next hdefault =>
        obtain rfl := Option.some.inj heq
        simp [entryIndex?, CanonicalEntry.entry, hfind, hform, hdefault]

theorem names_kept {entries : Entries} {results : List (Option CanonicalEntry)}
    (hresults : List.Forall₂ (layout.CanonicalizesEntry values scope) entries results) :
    ((results.filterMap id).map CanonicalEntry.name).Sublist (entries.map Prod.fst) ∧
      ((results.filterMap id).map CanonicalEntry.entry).filter layout.isUnknown =
        entries.filter layout.isUnknown := by
  induction hresults with
  | nil => exact ⟨.slnil, rfl⟩
  | @cons entry result rest restResults hentry _ ih =>
      obtain ⟨hsublist, hunknown⟩ := ih
      rw [CanonicalizesEntry] at hentry
      cases hfind : layout.component? entry.1 with
      | none =>
          simp only [hfind] at hentry
          subst hentry
          refine ⟨hsublist.cons_cons _, ?_⟩
          simp [CanonicalEntry.entry, isUnknown, hfind] at hunknown ⊢
          exact hunknown
      | some component =>
          simp only [hfind] at hentry
          obtain ⟨form, -, rfl⟩ := hentry
          have hknown (value : Value) : layout.isUnknown (entry.1, value) = false := by
            rw [isUnknown, hfind]
            rfl
          split
          · refine ⟨hsublist.cons _, ?_⟩
            rw [List.filter_cons_of_neg (by simp [hknown])]
            exact hunknown
          · refine ⟨hsublist.cons_cons _, ?_⟩
            rw [List.filter_cons_of_neg (by simp [hknown])]
            exact (List.filter_cons_of_neg (by simp [CanonicalEntry.entry, hknown])).trans hunknown

theorem eq_of_canonicalizesEntry {entry : String × Value} {result : Option CanonicalEntry}
    (hentry : ∀ component, layout.component? entry.1 = some component →
      component.default? ≠ some entry.2 ∧ ∀ form,
        component.type.canonicalize values scope entry.2 = .ok form → form = ⟨entry.2, false⟩)
    (h : layout.CanonicalizesEntry values scope entry result) :
    result = some ⟨layout.entryIndex? entry, entry.1, ⟨entry.2, false⟩⟩ := by
  rw [CanonicalizesEntry] at h
  rw [entryIndex?]
  cases hfind : layout.component? entry.1 with
  | none => simpa only [hfind, Option.map_none] using h
  | some component =>
      simp only [hfind] at h
      obtain ⟨form, hform, rfl⟩ := h
      obtain ⟨hdefault, hcanonical⟩ := hentry component hfind
      obtain rfl := hcanonical form hform
      rw [if_neg hdefault]
      rfl

/-- What the entries of a canonical form have to do with those it was made from. -/
structure IsKept (layout : Layout CompiledType) (values : NamedValues) (scope : Scope)
    (entries kept : Entries) : Prop where
  names : (kept.map Prod.fst).Subperm (entries.map Prod.fst)
  order : layout.kind ≠ .set → (kept.map Prod.fst).Sublist (entries.map Prod.fst)
  sorted : layout.kind = .set → layout.IsIndexOrdered kept
  unknown : (kept.filter layout.isUnknown).Perm (entries.filter layout.isUnknown)
  fates : ∀ entry ∈ entries, ∀ component, layout.component? entry.1 = some component →
    ∃ form, component.type.canonicalize values scope entry.2 = .ok form ∧
      ((entry.1, form.value) ∈ kept ∨ component.default? = some form.value)
  stems : ∀ entry ∈ kept, ∀ component, layout.component? entry.1 = some component →
    component.default? ≠ some entry.2 ∧ ∃ source form, (entry.1, source) ∈ entries ∧
      component.type.canonicalize values scope source = .ok form ∧ form.value = entry.2

theorem CanonicalizesEntries.exists_kept {value : Value} {canonical : CanonicalForm}
    (h : layout.CanonicalizesEntries values scope value canonical) :
    ∃ entries kept, value = .collection entries ∧ layout.Admits entries ∧
      canonical.value = .collection kept ∧
        layout.IsKept values (scope.walking entries) entries kept := by
  obtain ⟨entries, results, rfl, hadmits, hresults, rfl⟩ := h
  obtain ⟨kept, hkept, hperm, hsame, hsorted⟩ := CanonicalForm.exists_ofEntries layout.kind results
  obtain ⟨hsublist, hunknown⟩ := names_kept hresults
  have hnames : (kept.map CanonicalEntry.entry).map Prod.fst = kept.map CanonicalEntry.name := by
    rw [List.map_map]
    rfl
  refine ⟨entries, kept.map CanonicalEntry.entry, rfl, hadmits, hkept, ?_, ?_, ?_, ?_, ?_, ?_⟩
  · rw [hnames]
    exact ⟨_, (hperm.map _).symm, hsublist⟩
  · intro hkind
    rw [hnames, hsame hkind]
    exact hsublist
  · intro hkind
    rw [IsIndexOrdered, List.pairwise_map]
    refine (hsorted hkind).imp_of_mem ?_
    intro a b ha hb hle
    obtain ⟨-, -, -, haindex, -⟩ := exists_of_mem_kept hresults (hperm.subset ha)
    obtain ⟨-, -, -, hbindex, -⟩ := exists_of_mem_kept hresults (hperm.subset hb)
    rw [← haindex, ← hbindex]
    intro j hj
    rw [CanonicalEntry.le, hj] at hle
    cases hi : a.index? with
    | none => simp [hi] at hle
    | some i => exact ⟨i, rfl, by simpa [hi] using hle⟩
  · rw [← hunknown]
    exact (hperm.map _).filter _
  · intro entry hentry component hfind
    obtain ⟨result, hresult, hfate⟩ := forall₂_exists_of_mem hresults.flip hentry
    change layout.CanonicalizesEntry values _ entry result at hfate
    rw [CanonicalizesEntry] at hfate
    simp only [hfind] at hfate
    obtain ⟨form, hform, rfl⟩ := hfate
    refine ⟨form, hform, or_iff_not_imp_right.mpr fun hdefault => ?_⟩
    rw [if_neg hdefault] at hresult
    have hmem := hperm.symm.subset (List.mem_filterMap.mpr ⟨_, hresult, rfl⟩)
    exact List.mem_map_of_mem hmem
  · intro entry hentry component hfind
    obtain ⟨result, hresult, rfl⟩ := List.mem_map.mp hentry
    obtain ⟨source, hsource, hname, -, -, hknown⟩ :=
      exists_of_mem_kept hresults (hperm.subset hresult)
    obtain ⟨hform, hdefault⟩ := hknown component (hname ▸ hfind)
    refine ⟨hdefault, source.2, result.form, ?_, hform, rfl⟩
    rwa [CanonicalEntry.entry, hname]

theorem IsKept.lost {entries kept : Entries} (h : layout.IsKept values scope entries kept)
    {entry : String × Value} (hentry : entry ∈ entries)
    (hdefaults : ∀ component, layout.component? entry.1 = some component →
      component.default? = none) : entry.1 ∈ kept.map Prod.fst := by
  cases hfind : layout.component? entry.1 with
  | none =>
      have hunknown : layout.isUnknown entry = true := by
        rw [isUnknown, hfind]
        rfl
      have hmem := h.unknown.symm.subset (List.mem_filter.mpr ⟨hentry, hunknown⟩)
      exact List.mem_map_of_mem (List.mem_of_mem_filter hmem)
  | some component =>
      obtain ⟨form, -, hfate⟩ := h.fates entry hentry component hfind
      rcases hfate with hkept | hdefault
      · exact List.mem_map.mpr ⟨_, hkept, rfl⟩
      · simp [hdefaults component hfind] at hdefault

theorem known_eq_filterMap (entries : Entries) :
    layout.known entries = (entries.map Prod.fst).filterMap layout.component? := by
  rw [known, List.filterMap_map]
  rfl

theorem IsKept.known_subset {entries kept : Entries} (h : layout.IsKept values scope entries kept) :
    layout.known kept ⊆ layout.known entries := by
  obtain ⟨order, hperm, hsublist⟩ := h.names
  rw [known_eq_filterMap, known_eq_filterMap]
  exact fun _ hmem => (hsublist.filterMap _).subset ((hperm.filterMap _).symm.subset hmem)

theorem IsKept.mem_known {entries kept : Entries} (h : layout.IsKept values scope entries kept)
    {component : Component CompiledType} (hmem : component ∈ layout.known entries)
    (hrequired : component.isRequired = true) : component ∈ layout.known kept := by
  obtain ⟨entry, hentry, hfind⟩ := mem_known_iff.mp hmem
  have hname : entry.1 ∈ kept.map Prod.fst := by
    refine h.lost hentry ?_
    intro other hother
    obtain rfl := Option.some.inj (hfind.symm.trans hother)
    simp only [Component.isRequired, Bool.and_eq_true, Option.isNone_iff_eq_none] at hrequired
    exact hrequired.2
  rw [known_eq_filterMap]
  exact List.mem_filterMap.mpr ⟨_, hname, hfind⟩

theorem extensible_of_allowsUnknown {previous? : Option Nat}
    (h : layout.allowsUnknown previous? = true) : layout.extensible = true := by
  rw [allowsUnknown] at h
  cases hkind : layout.kind <;> simp only [hkind, CollectionKind.allowsUnknown] at h
  · exact (Bool.and_eq_true_iff.mp h).1
  · exact h
  · exact h
  · contradiction
  · contradiction

theorem IsKept.isComplete {entries kept : Entries} (h : layout.IsKept values scope entries kept)
    (hcomplete : layout.IsComplete entries) (hempty : kept = [] → layout.isAllOptional = true) :
    layout.IsComplete kept := by
  intro component hmem hcomponent hpresent
  rcases hpresent with hnil | hversion
  · have hoptional := List.all_eq_true.mp (hempty hnil) component hmem
    simp [hcomponent] at hoptional
  · refine h.mem_known (hcomplete component hmem hcomponent (.inr ?_)) hcomponent
    rcases le_topVersion_iff.mp hversion with hone | ⟨other, hother, hle⟩
    · exact le_topVersion_iff.mpr (.inl hone)
    · exact le_topVersion_iff.mpr (.inr ⟨other, h.known_subset hother, hle⟩)

theorem IsKept.extensible {entries kept : Entries} (h : layout.IsKept values scope entries kept)
    (hadmits : layout.Admits entries) {entry : String × Value} (hentry : entry ∈ kept)
    (hnone : layout.component? entry.1 = none) : layout.extensible = true := by
  obtain ⟨order, hperm, hsublist⟩ := h.names
  have hin : entry.1 ∈ entries.map Prod.fst :=
    hsublist.subset (hperm.symm.subset (List.mem_map_of_mem hentry))
  obtain ⟨source, hsource, hname⟩ := List.mem_map.mp hin
  obtain ⟨front, back, hsplit⟩ := List.append_of_mem hsource
  exact extensible_of_allowsUnknown (hadmits.1 front source back hsplit (hname ▸ hnone))

/-- What remains of an ordered collection is in order, so that only the place of its unknown
entries and what is missing from it matter. -/
theorem IsKept.admits_sequence_iff (hregular : layout.IsRegular) {entries kept : Entries}
    (h : layout.IsKept values scope entries kept) (hadmits : layout.Admits entries)
    (hkind : layout.kind = .sequence) : layout.Admits kept ↔ layout.IsStable kept := by
  obtain ⟨-, hpairwise, hcomplete⟩ := (Layout.admits_sequence_iff hkind).mp hadmits
  rw [Layout.admits_sequence_iff hkind]
  constructor
  · rintro ⟨hallows, -, hkept⟩
    refine ⟨?_, ?_⟩
    · rintro rfl
      exact ⟨by simp [hkind], isComplete_nil_iff.mp hkept⟩
    · intro _
      exact (allowsAfter_sequence_iff hregular hkind).mp hallows
  · rintro ⟨hempty, hafter⟩
    refine ⟨(allowsAfter_sequence_iff hregular hkind).mpr (hafter hkind), ?_, ?_⟩
    · have hsub := (h.order (by simp [hkind])).filterMap layout.component?
      rw [← known_eq_filterMap, ← known_eq_filterMap] at hsub
      exact hpairwise.sublist hsub
    · exact h.isComplete hcomplete fun hnil => (hempty hnil).2

theorem allowsUnknown_of_extensible (hkind : layout.kind = .set ∨ layout.kind = .choice)
    (hextensible : layout.extensible = true) (previous? : Option Nat) :
    layout.allowsUnknown previous? = true := by
  rcases hkind with hkind | hkind <;>
    simp [allowsUnknown, hkind, CollectionKind.allowsUnknown, hextensible]

theorem IsKept.admits_set_iff {entries kept : Entries}
    (h : layout.IsKept values scope entries kept) (hadmits : layout.Admits entries)
    (hkind : layout.kind = .set) : layout.Admits kept ↔ layout.IsStable kept := by
  obtain ⟨order, hperm, hsublist⟩ := h.names
  obtain ⟨-, hpairwise, hcomplete⟩ := (Layout.admits_set_iff hkind).mp hadmits
  rw [Layout.admits_set_iff hkind]
  constructor
  · rintro ⟨-, -, hkept⟩
    refine ⟨?_, fun hsequence => by simp [hkind] at hsequence⟩
    rintro rfl
    exact ⟨by simp [hkind], isComplete_nil_iff.mp hkept⟩
  · rintro ⟨hempty, -⟩
    refine ⟨?_, ?_, ?_⟩
    · intro before entry after heq hnone
      exact allowsUnknown_of_extensible (.inl hkind)
        (h.extensible hadmits (heq ▸ List.mem_append_right _ List.mem_cons_self) hnone) _
    · have hsub := hpairwise.sublist ((known_eq_filterMap entries).symm ▸ hsublist.filterMap _)
      rw [known_eq_filterMap kept]
      exact (hperm.filterMap _).pairwise hsub fun h => h.symm
    · exact h.isComplete hcomplete fun hnil => (hempty hnil).2

theorem IsKept.admits_choice_iff {entries kept : Entries}
    (h : layout.IsKept values scope entries kept) (hadmits : layout.Admits entries)
    (hkind : layout.kind = .choice) : layout.Admits kept ↔ layout.IsStable kept := by
  obtain ⟨order, hperm, hsublist⟩ := h.names
  obtain ⟨-, hlength⟩ := (Layout.admits_choice_iff hkind).mp hadmits
  have hle : kept.length ≤ 1 := by
    have hle := hperm.length_eq ▸ hsublist.length_le
    simpa [hlength] using hle
  rw [Layout.admits_choice_iff hkind]
  constructor
  · rintro ⟨-, hone⟩
    refine ⟨?_, fun hsequence => by simp [hkind] at hsequence⟩
    rintro rfl
    simp at hone
  · rintro ⟨hempty, -⟩
    refine ⟨?_, ?_⟩
    · intro before entry after heq hnone
      exact allowsUnknown_of_extensible (.inr hkind)
        (h.extensible hadmits (heq ▸ List.mem_append_right _ List.mem_cons_self) hnone) _
    · cases kept with
      | nil => exact absurd hkind (hempty rfl).1
      | cons entry rest => simpa using hle

/-- Leaving out entries that have a default can only harm what stability asks for. -/
theorem IsKept.admits_iff (hregular : layout.IsRegular) {entries kept : Entries}
    (h : layout.IsKept values scope entries kept) (hadmits : layout.Admits entries) :
    layout.Admits kept ↔ layout.IsStable kept := by
  have hlist := isList_of_admits hadmits
  cases hkind : layout.kind with
  | sequence => exact h.admits_sequence_iff hregular hadmits hkind
  | set => exact h.admits_set_iff hadmits hkind
  | choice => exact h.admits_choice_iff hadmits hkind
  | sequenceOf => simp [hkind, CollectionKind.isList] at hlist
  | setOf => simp [hkind, CollectionKind.isList] at hlist

end Layout

theorem CanonicalForm.ofEntries_of_isIndexOrdered {τ : Type} {layout : Layout τ} {entries : Entries}
    (h : layout.kind = .set → layout.IsIndexOrdered entries) :
    ofEntries layout.kind (entries.map fun entry =>
      some ⟨layout.entryIndex? entry, entry.1, ⟨entry.2, false⟩⟩) =
        ⟨.collection entries, false⟩ := by
  have hkept : (entries.map fun entry => some (⟨layout.entryIndex? entry, entry.1,
      ⟨entry.2, false⟩⟩ : CanonicalEntry)).filterMap id =
        entries.map fun entry => ⟨layout.entryIndex? entry, entry.1, ⟨entry.2, false⟩⟩ := by
    simp [List.filterMap_map]
  have hsorted : (layout.kind = .set && !CanonicalEntry.isSorted (entries.map fun entry =>
      ⟨layout.entryIndex? entry, entry.1, ⟨entry.2, false⟩⟩)) = false := by
    simp only [Bool.and_eq_false_iff, decide_eq_false_iff_not, Bool.not_eq_false',
      CanonicalEntry.isSorted_iff, List.pairwise_map]
    refine or_iff_not_imp_left.mpr fun hkind => (h (not_not.mp hkind)).imp ?_
    intro a b hle
    rw [CanonicalEntry.le]
    cases hb : layout.entryIndex? b with
    | none => rfl
    | some j =>
        obtain ⟨i, hi, hij⟩ := hle j hb
        rw [hi]
        simpa using hij
  rw [ofEntries, hkept, hsorted]
  simp [CanonicalEntry.entry, Function.comp_def]

namespace CompiledType

variable {values : NamedValues}

theorem IsCanonical.isReference {type : CompiledType} {value : Value} (h : type.IsCanonical value) :
    value.isReference = false := by
  induction type using formInduct with
  | builtin info builtin => exact isCanonical_builtin_iff.mp h
  | «alias» info target ih => exact ih (isCanonical_alias_iff.mp h)
  | tagged info tag method inner ih => exact ih (isCanonical_tagged_iff.mp h)
  | collection info layout ih =>
      cases value with
      | reference name =>
          rw [IsCanonical, interpret_mk] at h
          exact h
      | _ => rfl

theorem resolve_eq_of_ok {value resolved : Value} (h : values.resolve value = .ok resolved) :
    values.resolve resolved = .ok resolved := by
  have hreference := NamedValues.isReference_of_resolve h
  exact NamedValues.resolve_of_not_isReference hreference

theorem isAlike_of_canonicalizes {form : TypeForm CompiledType} {scope : Scope} {value : Value}
    {canonical : CanonicalForm} (h : form.Canonicalizes values scope value canonical)
    (hinner : ∀ inner ∈ form.types, ∀ scope canonical,
      inner.canonicalize values scope value = .ok canonical → value.IsAlike canonical.value) :
    value.IsAlike canonical.value := by
  cases form with
  | builtin builtin =>
      obtain ⟨-, rfl⟩ := h
      exact Value.IsAlike.refl _
  | «alias» target => exact hinner target TypeForm.target_mem_types _ _ h
  | tagged tag method inner => exact hinner inner TypeForm.inner_mem_types _ _ h
  | collection layout =>
      rw [TypeForm.Canonicalizes] at h
      split at h
      · obtain ⟨element, items, forms, -, rfl, hforms, rfl⟩ := h
        simp [Value.IsAlike, CanonicalForm.ofItems, Value.size?, hforms.length_eq]
      · obtain ⟨entries, results, rfl, -, -, rfl⟩ := h
        obtain ⟨kept, hkept, -⟩ := CanonicalForm.exists_ofEntries layout.kind results
        rw [hkept]
        simp [Value.IsAlike, Value.size?]

theorem isAlike_of_canonicalize {type : CompiledType} (hregular : type.IsRegular) {scope : Scope}
    {value : Value} (hvalue : values.resolve value = .ok value) {result : CanonicalForm}
    (h : type.canonicalize values scope value = .ok result) : value.IsAlike result.value := by
  induction type using CompiledType.induct generalizing scope result with
  | mk info form ih =>
      obtain ⟨hlayout, htypes⟩ := hregular.of_mk
      obtain ⟨found, canonical, hfound, hform, -, rfl⟩ := (canonicalize_mk_iff hlayout).mp h
      obtain rfl : found = value := by simpa [hfound] using hvalue
      have halike := isAlike_of_canonicalizes hform fun inner hmem _ _ hinner =>
        ih inner hmem (htypes inner hmem) hinner
      exact halike

theorem exists_canonicalizesEntry_iff {layout : Layout CompiledType} {scope : Scope}
    {entry : String × Value} :
    (∃ result, layout.CanonicalizesEntry values scope entry result) ↔
      ∀ component, layout.component? entry.1 = some component →
        ∃ form, component.type.canonicalize values scope entry.2 = .ok form := by
  simp only [Layout.CanonicalizesEntry]
  cases layout.component? entry.1 with
  | none => simp
  | some component =>
      constructor
      · rintro ⟨_, form, hform, -⟩ _ heq
        obtain rfl := Option.some.inj heq
        exact ⟨form, hform⟩
      · intro hall
        obtain ⟨form, hform⟩ := hall component rfl
        exact ⟨_, form, hform, rfl⟩

/-- A value conforms to a form of type exactly if it has a canonical form for it, provided that this
holds of the types that the form holds. -/
theorem accepts_iff_exists_canonicalizes {form : TypeForm CompiledType}
    (hiff : ∀ inner ∈ form.types, ∀ scope scope' value, inner.accept values scope value = .ok () ↔
      ∃ result, inner.canonicalize values scope' value = .ok result)
    (scope scope' : Scope) (resolved : Value) : form.Accepts values scope resolved ↔
      ∃ canonical, form.Canonicalizes values scope' resolved canonical := by
  cases form with
  | builtin builtin => simp [TypeForm.Accepts, TypeForm.Canonicalizes]
  | «alias» target => exact hiff target TypeForm.target_mem_types _ _ _
  | tagged tag method inner => exact hiff inner TypeForm.inner_mem_types _ _ _
  | collection layout =>
      have hcomponent {component : Component CompiledType}
          (hmem : component ∈ layout.components) :=
        hiff component.type (TypeForm.type_mem_types hmem)
      rw [TypeForm.Accepts]
      simp only [TypeForm.Canonicalizes]
      split
      · constructor
        · rintro ⟨element, items, helement, rfl, hall⟩
          have hmem := Layout.mem_components_of_element? helement
          obtain ⟨forms, hforms⟩ := forall₂_exists_iff.mpr fun item hitem =>
            (hcomponent hmem scope scope' item).mp (hall item hitem)
          exact ⟨_, element, items, forms, helement, rfl, hforms, rfl⟩
        · rintro ⟨_, element, items, forms, helement, rfl, hforms, -⟩
          have hmem := Layout.mem_components_of_element? helement
          refine ⟨element, items, helement, rfl, ?_⟩
          intro item hitem
          exact (hcomponent hmem scope scope' item).mpr
            (forall₂_exists_iff.mp ⟨forms, hforms⟩ item hitem)
      · constructor
        · rintro ⟨entries, rfl, hadmits, hall⟩
          obtain ⟨results, hresults⟩ := forall₂_exists_iff.mpr fun entry hentry =>
            exists_canonicalizesEntry_iff.mpr fun component hfind =>
              (hcomponent (Layout.mem_components_of_component? hfind) _
                (scope'.walking entries) _).mp (hall entry hentry component hfind)
          exact ⟨_, entries, results, rfl, hadmits, hresults, rfl⟩
        · rintro ⟨_, entries, results, rfl, hadmits, hresults, -⟩
          refine ⟨entries, rfl, hadmits, ?_⟩
          intro entry hentry component hfind
          have hentry := forall₂_exists_iff.mp ⟨results, hresults⟩ entry hentry
          exact (hcomponent (Layout.mem_components_of_component? hfind) _ _ _).mpr
            (exists_canonicalizesEntry_iff.mp hentry component hfind)

theorem accept_eq_ok_iff_exists_canonical {type : CompiledType} (hregular : type.IsRegular)
    (hranges : type.HasRangesOnly) {scope scope' : Scope} {value : Value} :
    type.accept values scope value = .ok () ↔
      ∃ result, type.canonicalize values scope' value = .ok result := by
  induction type using CompiledType.induct generalizing scope scope' value with
  | mk info form ih =>
      obtain ⟨hlayout, htypes⟩ := hregular.of_mk
      obtain ⟨hconstraints, hinner⟩ := hranges.of_mk
      have hiff (inner : CompiledType) (hmem : inner ∈ form.types) (scope scope' : Scope)
          (value : Value) : inner.accept values scope value = .ok () ↔
            ∃ result, inner.canonicalize values scope' value = .ok result :=
        ih inner hmem (htypes inner hmem) (hinner inner hmem)
      -- the constraints cannot tell a value from its canonical form
      have halike {scope : Scope} {resolved : Value} {canonical : CanonicalForm}
          (hresolve : values.resolve value = .ok resolved)
          (hcanonical : form.Canonicalizes values scope resolved canonical) :
          resolved.IsAlike canonical.value :=
        isAlike_of_canonicalizes hcanonical fun inner hmem _ _ hinner =>
          isAlike_of_canonicalize (htypes inner hmem) (resolve_eq_of_ok hresolve) hinner
      rw [accept_mk_iff hlayout]
      simp only [canonicalize_mk_iff hlayout]
      constructor
      · rintro ⟨resolved, hresolve, haccepts, hchecks⟩
        obtain ⟨canonical, hcanonical⟩ :=
          (accepts_iff_exists_canonicalizes hiff _ _ resolved).mp haccepts
        refine ⟨_, resolved, canonical, hresolve, hcanonical, ?_, rfl⟩
        intro constraint hmem
        exact (Constraint.check_eq_ok_iff_of_isAlike (hconstraints constraint hmem)
          (halike hresolve hcanonical) _ _).mp (hchecks constraint hmem)
      · rintro ⟨_, resolved, canonical, hresolve, hcanonical, hchecks, -⟩
        refine ⟨resolved, hresolve,
          (accepts_iff_exists_canonicalizes hiff _ _ resolved).mpr ⟨canonical, hcanonical⟩, ?_⟩
        intro constraint hmem
        exact (Constraint.check_eq_ok_iff_of_isAlike (hconstraints constraint hmem)
          (halike hresolve hcanonical) _ _).mpr (hchecks constraint hmem)

theorem isCanonical_of_canonicalize {type : CompiledType} (hregular : type.IsRegular)
    {scope : Scope} {value : Value} {result : CanonicalForm}
    (h : type.canonicalize values scope value = .ok result) : type.IsCanonical result.value := by
  induction type using CompiledType.induct generalizing scope value result with
  | mk info form ih =>
      obtain ⟨hlayout, htypes⟩ := hregular.of_mk
      obtain ⟨resolved, canonical, hresolve, hform, -, rfl⟩ := (canonicalize_mk_iff hlayout).mp h
      cases form with
      | builtin builtin =>
          obtain ⟨-, rfl⟩ := hform
          exact isCanonical_builtin_iff.mpr (NamedValues.isReference_of_resolve hresolve)
      | «alias» target =>
          have htarget := ih target TypeForm.target_mem_types
            (htypes target TypeForm.target_mem_types) hform
          exact isCanonical_alias_iff.mpr htarget
      | tagged tag method inner =>
          have hinner := ih inner TypeForm.inner_mem_types
            (htypes inner TypeForm.inner_mem_types) hform
          exact isCanonical_tagged_iff.mpr hinner
      | collection layout =>
          rw [TypeForm.Canonicalizes] at hform
          split at hform
          · obtain ⟨element, items, forms, helement, rfl, hforms, rfl⟩ := hform
            refine isCanonical_list_iff.mpr ?_
            intro other hother item hitem
            obtain rfl : element = other := Option.some.inj (helement.symm.trans hother)
            have hmem := TypeForm.type_mem_types (Layout.mem_components_of_element? helement)
            obtain ⟨form, hmemForm, rfl⟩ := List.mem_map.mp hitem
            obtain ⟨source, -, hsource⟩ := forall₂_exists_of_mem hforms hmemForm
            exact ih _ hmem (htypes _ hmem) hsource
          · obtain ⟨entries, kept, -, -, hvalue, hkept⟩ :=
              Layout.CanonicalizesEntries.exists_kept hform
            show IsCanonical _ canonical.value
            rw [hvalue]
            refine isCanonical_entries_iff.mpr ⟨hkept.sorted, ?_⟩
            intro entry hentry component hfind
            obtain ⟨hdefault, source, form, -, hform, hvalue⟩ :=
              hkept.stems entry hentry component hfind
            have hmem := TypeForm.type_mem_types (Layout.mem_components_of_component? hfind)
            exact ⟨hdefault, hvalue ▸ ih _ hmem (htypes _ hmem) hform⟩

theorem eq_of_canonicalize_of_isCanonical {type : CompiledType} (hregular : type.IsRegular)
    {scope : Scope} {value : Value} {result : CanonicalForm} (hvalue : type.IsCanonical value)
    (h : type.canonicalize values scope value = .ok result) : result = ⟨value, false⟩ := by
  induction type using CompiledType.induct generalizing scope value result with
  | mk info form ih =>
      obtain ⟨hlayout, htypes⟩ := hregular.of_mk
      obtain ⟨resolved, canonical, hresolve, hform, -, rfl⟩ := (canonicalize_mk_iff hlayout).mp h
      have hreference := hvalue.isReference
      obtain rfl := NamedValues.eq_of_resolve hreference hresolve
      rw [hreference, Bool.or_false]
      cases form with
      | builtin builtin => exact hform.2
      | «alias» target =>
          exact ih target TypeForm.target_mem_types (htypes target TypeForm.target_mem_types)
            (isCanonical_alias_iff.mp hvalue) hform
      | tagged tag method inner =>
          exact ih inner TypeForm.inner_mem_types (htypes inner TypeForm.inner_mem_types)
            (isCanonical_tagged_iff.mp hvalue) hform
      | collection layout =>
          rw [TypeForm.Canonicalizes] at hform
          split at hform
          · obtain ⟨element, items, forms, helement, rfl, hforms, rfl⟩ := hform
            have hmem := TypeForm.type_mem_types (Layout.mem_components_of_element? helement)
            have hitems := isCanonical_list_iff.mp hvalue element helement
            have heq : forms = items.map (⟨·, false⟩) :=
              eq_map_of_forall₂ hforms fun item hitem _ hform =>
                ih _ hmem (htypes _ hmem) (hitems item hitem) hform
            rw [heq, CanonicalForm.ofItems]
            simp [Function.comp_def]
          · obtain ⟨entries, results, rfl, -, hresults, rfl⟩ := hform
            obtain ⟨hsorted, hentries⟩ := isCanonical_entries_iff.mp hvalue
            have heq : results = entries.map fun entry =>
                some ⟨layout.entryIndex? entry, entry.1, ⟨entry.2, false⟩⟩ := by
              refine eq_map_of_forall₂ hresults fun entry hentry result hresult =>
                Layout.eq_of_canonicalizesEntry (fun component hfind => ?_) hresult
              obtain ⟨hdefault, hcanonical⟩ := hentries entry hentry component hfind
              have hmem := TypeForm.type_mem_types (Layout.mem_components_of_component? hfind)
              exact ⟨hdefault, fun form hform => ih _ hmem (htypes _ hmem) hcanonical hform⟩
            rw [heq]
            exact CanonicalForm.ofEntries_of_isIndexOrdered hsorted

/-- If the canonical forms of the components' values are accepted exactly if they are stable, then
so are those of the collection's values. -/
theorem accepts_canonical_collection_iff {info : TypeInfo} {layout : Layout CompiledType}
    (hregular : layout.IsRegular)
    (hiff : ∀ component ∈ layout.components, ∀ scope scope' value result,
      component.type.canonicalize values scope value = .ok result →
        (component.type.accept values scope' result.value = .ok () ↔
          component.type.IsStable result.value))
    {scope scope' : Scope} {value : Value} {result : CanonicalForm}
    (h : (TypeForm.collection layout).Canonicalizes values scope value result) :
    (TypeForm.collection layout).Accepts values scope' result.value ↔
      IsStable ⟨info, .collection layout⟩ result.value := by
  rw [TypeForm.Canonicalizes] at h
  split at h
  · next hlist =>
    obtain ⟨element, items, forms, helement, rfl, hforms, rfl⟩ := h
    have hmem := Layout.mem_components_of_element? helement
    have hitem {form : CanonicalForm} (hmemForm : form ∈ forms) :
        element.type.accept values scope' form.value = .ok () ↔
          element.type.IsStable form.value := by
      obtain ⟨source, -, hsource⟩ := forall₂_exists_of_mem hforms hmemForm
      exact hiff element hmem _ _ _ _ hsource
    rw [CanonicalForm.ofItems, TypeForm.accepts_list_iff hlist helement, isStable_list_iff]
    constructor
    · intro hall other hother item hitemMem
      obtain rfl : element = other := Option.some.inj (helement.symm.trans hother)
      obtain ⟨form, hmemForm, rfl⟩ := List.mem_map.mp hitemMem
      exact (hitem hmemForm).mp (hall _ hitemMem)
    · intro hall item hitemMem
      obtain ⟨form, hmemForm, rfl⟩ := List.mem_map.mp hitemMem
      exact (hitem hmemForm).mpr (hall element helement _ hitemMem)
  · next hlist =>
    obtain ⟨entries, kept, -, hadmits, hvalue, hkept⟩ :=
      Layout.CanonicalizesEntries.exists_kept h
    have hentry (scope' : Scope) {entry : String × Value} (hmemEntry : entry ∈ kept)
        {component : Component CompiledType}
        (hfind : layout.component? entry.1 = some component) :
        component.type.accept values scope' entry.2 = .ok () ↔
          component.type.IsStable entry.2 := by
      obtain ⟨-, source, form, -, hform, hvalue⟩ := hkept.stems entry hmemEntry component hfind
      exact hvalue ▸
        hiff component (Layout.mem_components_of_component? hfind) _ _ _ _ hform
    rw [hvalue, TypeForm.accepts_entries_iff (by simpa using hlist), isStable_entries_iff,
      ← hkept.admits_iff hregular hadmits]
    refine and_congr_right fun _ => forall₂_congr fun entry hmemEntry => ?_
    exact forall₂_congr fun component hfind => hentry _ hmemEntry hfind

theorem accept_canonical_iff_isStable {type : CompiledType} (hregular : type.IsRegular)
    (hranges : type.HasRangesOnly) {scope scope' : Scope} {value : Value} {result : CanonicalForm}
    (h : type.canonicalize values scope value = .ok result) :
    type.accept values scope' result.value = .ok () ↔ type.IsStable result.value := by
  have hcanonical := isCanonical_of_canonicalize hregular h
  induction type using CompiledType.induct generalizing scope scope' value result with
  | mk info form ih =>
      obtain ⟨hlayout, htypes⟩ := hregular.of_mk
      obtain ⟨hconstraints, hinner⟩ := hranges.of_mk
      obtain ⟨resolved, canonical, hresolve, hform, hchecks, rfl⟩ :=
        (canonicalize_mk_iff hlayout).mp h
      have hchecks' : ∀ constraint ∈ info.constraints, constraint.check
          (scope'.typed info.handle info.description) canonical.value = .ok () :=
        fun constraint hmem => (Constraint.check_eq_ok_iff_of_isAlike
          (hconstraints constraint hmem) (Value.IsAlike.refl _) _ _).mp (hchecks constraint hmem)
      have hiff {inner : CompiledType} (hmem : inner ∈ form.types) {scope scope' : Scope}
          {value : Value} {result : CanonicalForm}
          (h : inner.canonicalize values scope value = .ok result) :
          inner.accept values scope' result.value = .ok () ↔ inner.IsStable result.value :=
        ih inner hmem (htypes inner hmem) (hinner inner hmem) h
          (isCanonical_of_canonicalize (htypes inner hmem) h)
      rw [accept_mk_iff_of_not_isReference hlayout hcanonical.isReference, and_iff_left hchecks']
      show form.Accepts values _ canonical.value ↔ IsStable ⟨info, form⟩ canonical.value
      cases form with
      | builtin builtin =>
          obtain ⟨haccepts, rfl⟩ := hform
          exact iff_of_true haccepts isStable_builtin
      | «alias» target =>
          rw [isStable_alias_iff]
          exact hiff TypeForm.target_mem_types hform
      | tagged tag method inner =>
          rw [isStable_tagged_iff]
          exact hiff TypeForm.inner_mem_types hform
      | collection layout =>
          refine accepts_canonical_collection_iff (hlayout layout rfl) ?_ hform
          exact fun component hmem _ _ _ _ hcomponent =>
            hiff (TypeForm.type_mem_types hmem) hcomponent

end CompiledType

end Asn1

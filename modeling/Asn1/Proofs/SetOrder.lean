import Asn1.Encoding
import Asn1.Proofs.DefaultRule

namespace Asn1

open Results

namespace Layout

variable {τ : Type} {layout : Layout τ} {entries other kept kept' sorted sorted' : Entries}

/-- Whether the known entries stand in strictly increasing order of their indexes, in front of all
unknown ones. -/
def IsStrictlyOrdered (layout : Layout τ) (entries : Entries) : Prop :=
  entries.Pairwise fun a b =>
    ∀ j ∈ layout.entryIndex? b, ∃ i ∈ layout.entryIndex? a, i < j

/-- Whether entries have been brought into the order of a canonical collection value, in which only
those of a SET may move. -/
structure IsArrangement (layout : Layout τ) (kept sorted : Entries) : Prop where
  perm : sorted.Perm kept
  unknown : sorted.filter layout.isUnknown = kept.filter layout.isUnknown
  ordered : layout.kind = .set → layout.IsStrictlyOrdered sorted
  same : layout.kind ≠ .set → sorted = kept

theorem isUnknown_eq_false_iff {entry : String × Value} :
    layout.isUnknown entry = false ↔ ∃ index, layout.entryIndex? entry = some index := by
  rw [isUnknown, entryIndex?]
  cases layout.component? entry.1 <;> simp

theorem IsStrictlyOrdered.eq_append (h : layout.IsStrictlyOrdered entries) :
    entries = (entries.filter fun entry => !layout.isUnknown entry) ++
      entries.filter layout.isUnknown := by
  induction entries with
  | nil => rfl
  | cons entry rest ih =>
      obtain ⟨hbefore, hrest⟩ := List.pairwise_cons.mp h
      cases hentry : layout.isUnknown entry with
      | false =>
          rw [List.filter_cons_of_pos (by simp [hentry]),
            List.filter_cons_of_neg (by simp [hentry]), List.cons_append, ← ih hrest]
      | true =>
          -- nothing known can follow an unknown entry
          have hall : ∀ later ∈ rest, layout.isUnknown later = true := by
            intro later hlater
            by_contra hknown
            obtain ⟨j, hj⟩ := isUnknown_eq_false_iff.mp (by simpa using hknown)
            obtain ⟨i, hi, -⟩ := hbefore later hlater j hj
            simp [isUnknown_eq_false_iff.mpr ⟨i, hi⟩] at hentry
          have hnone : ((entry :: rest).filter fun entry => !layout.isUnknown entry) = [] := by
            simpa [hentry] using hall
          have hsame : (entry :: rest).filter layout.isUnknown = entry :: rest := by
            simpa [hentry] using hall
          rw [hnone, hsame, List.nil_append]

theorem IsStrictlyOrdered.eq_of_perm (h : layout.IsStrictlyOrdered entries)
    (hother : layout.IsStrictlyOrdered other) (hperm : entries.Perm other)
    (hunknown : entries.filter layout.isUnknown = other.filter layout.isUnknown) :
    entries = other := by
  have hknown : (entries.filter fun entry => !layout.isUnknown entry) =
      other.filter fun entry => !layout.isUnknown entry := by
    refine List.Perm.eq_of_pairwise ?_ (h.filter _) (hother.filter _) (hperm.filter _)
    intro a b ha hb hab hba
    obtain ⟨i, hi⟩ := isUnknown_eq_false_iff.mp (by simpa using (List.mem_filter.mp ha).2)
    obtain ⟨j, hj, hji⟩ := hba i hi
    obtain ⟨_, hi', hij⟩ := hab j hj
    obtain rfl := Option.some.inj (hi.symm.trans hi')
    exact absurd hij (Nat.lt_asymm hji)
  rw [h.eq_append, hother.eq_append, hknown, hunknown]

theorem IsArrangement.eq_of_perm (hkind : layout.kind = .set) (h : layout.IsArrangement kept sorted)
    (h' : layout.IsArrangement kept' sorted') (hperm : kept.Perm kept')
    (hunknown : kept.filter layout.isUnknown = kept'.filter layout.isUnknown) :
    sorted = sorted' := by
  refine (h.ordered hkind).eq_of_perm (h'.ordered hkind) ?_ ?_
  · exact h.perm.trans (hperm.trans h'.perm.symm)
  · rw [h.unknown, hunknown, h'.unknown]

theorem IsArrangement.eq (h : layout.IsArrangement kept sorted)
    (h' : layout.IsArrangement kept sorted') : sorted = sorted' := by
  by_cases hkind : layout.kind = .set
  · exact h.eq_of_perm hkind h' (.refl _) rfl
  · rw [h.same hkind, h'.same hkind]

theorem IsIndexOrdered.isStrictlyOrdered (h : layout.IsIndexOrdered entries)
    (hdistinct : (layout.known entries).Pairwise (·.index ≠ ·.index)) :
    layout.IsStrictlyOrdered entries := by
  refine (h.and (List.pairwise_filterMap.mp hdistinct)).imp ?_
  rintro a b ⟨hle, hne⟩ j hj
  obtain ⟨i, hi, hij⟩ := hle j hj
  obtain ⟨first, hfirst, rfl⟩ := Option.map_eq_some_iff.mp hi
  obtain ⟨second, hsecond, rfl⟩ := Option.map_eq_some_iff.mp hj
  exact ⟨_, hi, Nat.lt_of_le_of_ne hij (hne first hfirst second hsecond)⟩

theorem isComplete_of_perm (hperm : entries.Perm other) (h : layout.IsComplete entries) :
    layout.IsComplete other := by
  have hknown := hperm.filterMap fun entry => layout.component? entry.1
  change (layout.known entries).Perm (layout.known other) at hknown
  intro component hmem hrequired hpresent
  refine hknown.subset (h component hmem hrequired ?_)
  rcases hpresent with rfl | hversion
  · exact .inl hperm.eq_nil
  · rw [le_topVersion_iff] at hversion ⊢
    simpa only [hknown.mem_iff] using .inr hversion

theorem admits_of_perm (hkind : layout.kind = .set) (hperm : entries.Perm other)
    (h : layout.Admits entries) : layout.Admits other := by
  have hne : layout.kind ≠ .sequence := by simp [hkind]
  rw [admits_set_iff hkind, allowsAfter_iff_of_ne_sequence hne] at h ⊢
  obtain ⟨hallows, hdistinct, hcomplete⟩ := h
  refine ⟨?_, ?_, isComplete_of_perm hperm hcomplete⟩
  · exact fun entry hentry => hallows entry (hperm.symm.subset hentry)
  · exact (hperm.filterMap _).pairwise hdistinct fun h => h.symm

end Layout

namespace CanonicalEntry

theorem filter_mergeSort (entries : List CanonicalEntry) :
    (entries.mergeSort le).filter (·.index?.isNone) = entries.filter (·.index?.isNone) := by
  have hordered : (entries.filter (·.index?.isNone)).Pairwise fun a b => a.le b = true := by
    refine List.pairwise_of_forall_mem_list fun a _ b hb => ?_
    have hnone := (List.mem_filter.mp hb).2
    rw [le, Option.isNone_iff_eq_none.mp hnone]
  have hsublist := (List.sublist_mergeSort le_trans le_total hordered
    List.filter_sublist).filter (·.index?.isNone)
  rw [List.filter_filter] at hsublist
  simp only [Bool.and_self] at hsublist
  refine (hsublist.eq_of_length ?_).symm
  exact ((List.mergeSort_perm entries le).filter _).length_eq.symm

end CanonicalEntry

namespace Layout

variable {values : NamedValues} {scope : Scope} {layout : Layout CompiledType}
  {entries other : Entries} {results : List (Option CanonicalEntry)}

theorem IsKept.pairwise_known {kept : Entries} (h : layout.IsKept values scope entries kept)
    (hdistinct : (layout.known entries).Pairwise (·.index ≠ ·.index)) :
    (layout.known kept).Pairwise (·.index ≠ ·.index) := by
  obtain ⟨order, hperm, hsublist⟩ := h.names
  rw [known_eq_filterMap] at hdistinct ⊢
  have hpairwise := hdistinct.sublist (hsublist.filterMap layout.component?)
  exact (hperm.filterMap _).pairwise hpairwise fun h => h.symm

theorem filter_isUnknown_map_entry {kept : List CanonicalEntry}
    (hindex : ∀ entry ∈ kept, entry.index? = layout.entryIndex? entry.entry) :
    (kept.map CanonicalEntry.entry).filter layout.isUnknown =
      (kept.filter (·.index?.isNone)).map CanonicalEntry.entry := by
  rw [List.filter_map]
  congr 1
  refine List.filter_congr fun entry hentry => ?_
  rw [hindex entry hentry, entryIndex?, Option.isNone_map]
  rfl

theorem exists_isArrangement_ofEntries (hadmits : layout.Admits entries)
    (hresults : List.Forall₂ (layout.CanonicalizesEntry values (scope.walking entries)) entries
      results) :
    ∃ sorted, (CanonicalForm.ofEntries layout.kind results).value = .collection sorted ∧
      layout.IsArrangement ((results.filterMap id).map CanonicalEntry.entry) sorted := by
  have hindex : ∀ entry ∈ results.filterMap id, entry.index? = layout.entryIndex? entry.entry := by
    intro entry hentry
    obtain ⟨-, -, -, hindex, -⟩ := exists_of_mem_kept hresults hentry
    exact hindex
  obtain ⟨sorted, hvalue, hperm, hsame, -⟩ := CanonicalForm.exists_ofEntries layout.kind results
  obtain ⟨_, _, ⟨⟩, -, hkept, hiskept⟩ :=
    CanonicalizesEntries.exists_kept ⟨entries, results, rfl, hadmits, hresults, rfl⟩
  obtain rfl := Value.collection.inj (hvalue.symm.trans hkept)
  refine ⟨_, hvalue, hperm.map _, ?_, ?_, ?_⟩
  · rw [CanonicalForm.ofEntries] at hvalue
    rw [← Value.collection.inj hvalue]
    split
    · have hindexSorted := fun entry hentry =>
        hindex entry ((List.mergeSort_perm _ CanonicalEntry.le).subset hentry)
      rw [filter_isUnknown_map_entry hindexSorted, CanonicalEntry.filter_mergeSort,
        filter_isUnknown_map_entry hindex]
    · rfl
  · intro hkind
    obtain ⟨-, hdistinct, -⟩ := (admits_set_iff hkind).mp hadmits
    exact (hiskept.sorted hkind).isStrictlyOrdered (hiskept.pairwise_known hdistinct)
  · exact fun hkind => congrArg _ (hsame hkind)

end Layout

namespace CompiledType

/-- Whether a type is a SET with a layout, perhaps behind aliases and tags. -/
inductive IsSet (layout : Layout CompiledType) : CompiledType → Prop
  | collection {info : TypeInfo} (hkind : layout.kind = .set) :
    IsSet layout ⟨info, .collection layout⟩
  | alias {info : TypeInfo} {target : CompiledType} (h : IsSet layout target) :
    IsSet layout ⟨info, .alias target⟩
  | tagged {info : TypeInfo} {tag : Tag} {method : TagMethod} {inner : CompiledType}
    (h : IsSet layout inner) : IsSet layout ⟨info, .tagged tag method inner⟩

variable {values : NamedValues} {scope : Scope} {layout : Layout CompiledType}
  {entries other : Entries} {result : CanonicalForm}

theorem canonicalizesEntry_of_scope {entry : String × Value} {kept? : Option CanonicalEntry}
    (hregular : ∀ component ∈ layout.components, component.type.IsRegular)
    (hranges : ∀ component ∈ layout.components, component.type.HasRangesOnly)
    (h : layout.CanonicalizesEntry values scope entry kept?) (scope' : Scope) :
    layout.CanonicalizesEntry values scope' entry kept? := by
  rw [Layout.CanonicalizesEntry] at h ⊢
  cases hfind : layout.component? entry.1 with
  | none => simpa only [hfind] using h
  | some component =>
      simp only [hfind] at h ⊢
      obtain ⟨form, hform, heq⟩ := h
      have hmem := Layout.mem_components_of_component? hfind
      exact ⟨form, canonicalize_of_scope (hregular _ hmem) (hranges _ hmem) hform scope', heq⟩

theorem exists_canonicalizes_of_perm (hkind : layout.kind = .set)
    (hregular : ∀ component ∈ layout.components, component.type.IsRegular)
    (hranges : ∀ component ∈ layout.components, component.type.HasRangesOnly)
    (hperm : entries.Perm other)
    (h : (TypeForm.collection layout).Canonicalizes values scope (.collection entries) result) :
    ∃ result', (TypeForm.collection layout).Canonicalizes values scope (.collection other) result' ∧
      result.value.IsAlike result'.value ∧
      (entries.filter layout.isUnknown = other.filter layout.isUnknown →
        result'.value = result.value) := by
  have hlist : layout.kind.isList ≠ true := by simp [hkind, CollectionKind.isList]
  rw [TypeForm.Canonicalizes, if_neg hlist] at h
  obtain ⟨_, results, ⟨⟩, hadmits, hresults, rfl⟩ := h
  obtain ⟨results', hresults', hresultsPerm⟩ := List.perm_comp_forall₂ hperm.symm hresults
  have hother : List.Forall₂ (layout.CanonicalizesEntry values (scope.walking other)) other
      results' :=
    hresults'.imp fun _ _ hentry => canonicalizesEntry_of_scope hregular hranges hentry _
  have hadmitsOther := Layout.admits_of_perm hkind hperm hadmits
  obtain ⟨sorted, hvalue, harranged⟩ := Layout.exists_isArrangement_ofEntries hadmits hresults
  obtain ⟨sorted', hvalue', harranged'⟩ :=
    Layout.exists_isArrangement_ofEntries hadmitsOther hother
  refine ⟨.ofEntries layout.kind results', ?_, ?_, ?_⟩
  · rw [TypeForm.Canonicalizes, if_neg hlist]
    exact ⟨other, results', rfl, hadmitsOther, hother, rfl⟩
  · rw [hvalue, hvalue']
    simp [Value.IsAlike, Value.size?]
  · intro hunknown
    have hkept := (hresultsPerm.filterMap id).map CanonicalEntry.entry
    rw [hvalue, hvalue']
    refine congrArg _ (harranged'.eq_of_perm hkind harranged hkept ?_)
    rw [(Layout.names_kept hother).2, (Layout.names_kept hresults).2, hunknown]

/-- Changing the order of the entries of a SET value changes no more of its canonical form than the
order of unknown entries. -/
theorem IsSet.exists_canonicalize_of_perm {type : CompiledType} (hset : IsSet layout type)
    (hregular : type.IsRegular) (hranges : type.HasRangesOnly) (hperm : entries.Perm other)
    (h : type.canonicalize values scope (.collection entries) = .ok result) :
    ∃ result', type.canonicalize values scope (.collection other) = .ok result' ∧
      result.value.IsAlike result'.value ∧
      (entries.filter layout.isUnknown = other.filter layout.isUnknown →
        result'.value = result.value) := by
  induction type using CompiledType.induct generalizing scope result with
  | mk info form ih =>
      obtain ⟨hlayout, htypes⟩ := hregular.of_mk
      obtain ⟨hconstraints, hinner⟩ := hranges.of_mk
      obtain ⟨_, canonical, ⟨⟩, hform, hchecks, rfl⟩ := (canonicalize_mk_iff hlayout).mp h
      have hother : ∃ canonical', form.Canonicalizes values
          (scope.typed info.handle info.description) (.collection other) canonical' ∧
            canonical.value.IsAlike canonical'.value ∧
            (entries.filter layout.isUnknown = other.filter layout.isUnknown →
              canonical'.value = canonical.value) := by
        cases hset with
        | collection hkind =>
            exact exists_canonicalizes_of_perm hkind
              (fun _ hmem => htypes _ (TypeForm.type_mem_types hmem))
              (fun _ hmem => hinner _ (TypeForm.type_mem_types hmem)) hperm hform
        | @«alias» _ target hset =>
            have hmem : target ∈ (TypeForm.alias target).types := TypeForm.target_mem_types
            exact ih target hmem hset (htypes _ hmem) (hinner _ hmem) hform
        | @tagged _ tag method inner hset =>
            have hmem : inner ∈ (TypeForm.tagged tag method inner).types := TypeForm.inner_mem_types
            exact ih inner hmem hset (htypes _ hmem) (hinner _ hmem) hform
      obtain ⟨canonical', hform', halike, hsame⟩ := hother
      refine ⟨_, (canonicalize_mk_iff hlayout).mpr ⟨_, canonical', rfl, hform', ?_, rfl⟩, halike,
        hsame⟩
      intro constraint hmem
      exact (Constraint.check_eq_ok_iff_of_isAlike (hconstraints constraint hmem) halike _ _).mp
        (hchecks constraint hmem)

end CompiledType

namespace Schema

variable {schema : Schema} {handle : Handle} {type : CompiledType} {layout : Layout CompiledType}
  {entries other : Entries}

theorem canonicalize_collection_eq_ok_iff (hcompiled : schema.compiled handle = .ok type)
    {form : CanonicalForm} : schema.canonicalize handle (.collection entries) = .ok form ↔
      type.canonicalize schema.values (.top schema.view) (.collection entries) = .ok form := by
  rw [canonicalize_eq_ok_iff hcompiled]
  exact and_iff_right ⟨_, rfl⟩

theorem encode_of_canonicalize (hcompiled : schema.compiled handle = .ok type) {value : Value}
    {form : CanonicalForm} (hform : schema.canonicalize handle value = .ok form)
    {encoder : Encoder} :
    schema.encode handle encoder value = type.write encoder form.value := by
  rw [encode, hform, hcompiled]

theorem Reachable.exists_canonicalize_of_perm (hschema : schema.Reachable)
    (hcompiled : schema.compiled handle = .ok type) (hset : type.IsSet layout)
    (hranges : type.HasRangesOnly) (hperm : entries.Perm other) {form : CanonicalForm}
    (h : schema.canonicalize handle (.collection entries) = .ok form) :
    ∃ form', schema.canonicalize handle (.collection other) = .ok form' ∧
      (entries.filter layout.isUnknown = other.filter layout.isUnknown →
        form'.value = form.value) := by
  have hregular := hschema.consistent.isRegular hcompiled
  obtain ⟨form', hform', -, hsame⟩ := hset.exists_canonicalize_of_perm hregular hranges hperm
    ((canonicalize_collection_eq_ok_iff hcompiled).mp h)
  exact ⟨form', (canonicalize_collection_eq_ok_iff hcompiled).mpr hform', hsame⟩

/-- A SET value conforms to its type in any order of its entries. As long as unknown entries follow
each other as before, it has the same canonical form as well and is written as the same octets. -/
theorem Reachable.set_in_any_order (hschema : schema.Reachable)
    (hcompiled : schema.compiled handle = .ok type) (hset : type.IsSet layout)
    (hranges : type.HasRangesOnly) (hperm : entries.Perm other) :
    (schema.accept handle (.collection entries) = .ok () ↔
      schema.accept handle (.collection other) = .ok ()) ∧
    (entries.filter layout.isUnknown = other.filter layout.isUnknown →
      (∀ value, (∃ form, schema.canonicalize handle (.collection entries) = .ok form ∧
          form.value = value) ↔
        ∃ form, schema.canonicalize handle (.collection other) = .ok form ∧ form.value = value) ∧
      ∀ encoder,
        (schema.encode handle encoder (.collection entries)).octets =
          (schema.encode handle encoder (.collection other)).octets ∧
        ((schema.encode handle encoder (.collection entries)).failure? = none ↔
          (schema.encode handle encoder (.collection other)).failure? = none)) := by
  have hregular := hschema.consistent.isRegular hcompiled
  have hforward {form : CanonicalForm}
      (hform : schema.canonicalize handle (.collection entries) = .ok form) :=
    hschema.exists_canonicalize_of_perm hcompiled hset hranges hperm hform
  have hbackward {form : CanonicalForm}
      (hform : schema.canonicalize handle (.collection other) = .ok form) :=
    hschema.exists_canonicalize_of_perm hcompiled hset hranges hperm.symm hform
  have haccept (entries : Entries) : schema.accept handle (.collection entries) = .ok () ↔
      ∃ form, schema.canonicalize handle (.collection entries) = .ok form := by
    simp only [accept_eq_ok_iff hcompiled, canonicalize_collection_eq_ok_iff hcompiled]
    exact CompiledType.accept_eq_ok_iff_exists_canonical hregular hranges
  refine ⟨?_, fun hunknown => ⟨fun value => ⟨?_, ?_⟩, fun encoder => ?_⟩⟩
  · rw [haccept, haccept]
    constructor
    · rintro ⟨form, hform⟩
      obtain ⟨form', hform', -⟩ := hforward hform
      exact ⟨form', hform'⟩
    · rintro ⟨form, hform⟩
      obtain ⟨form', hform', -⟩ := hbackward hform
      exact ⟨form', hform'⟩
  · rintro ⟨form, hform, rfl⟩
    obtain ⟨form', hform', hsame⟩ := hforward hform
    exact ⟨form', hform', hsame hunknown⟩
  · rintro ⟨form, hform, rfl⟩
    obtain ⟨form', hform', hsame⟩ := hbackward hform
    exact ⟨form', hform', hsame hunknown.symm⟩
  · cases hform : schema.canonicalize handle (.collection entries) with
    | ok form =>
        obtain ⟨form', hform', hsame⟩ := hforward hform
        rw [encode_of_canonicalize hcompiled hform, encode_of_canonicalize hcompiled hform',
          hsame hunknown]
        exact ⟨rfl, Iff.rfl⟩
    | error error =>
        cases hother : schema.canonicalize handle (.collection other) with
        | ok form' =>
            obtain ⟨form, hok, -⟩ := hbackward hother
            rw [hform] at hok
            contradiction
        | error error' => simp [encode, hform, hother, Written.fail]

/-- A compiled SET of an INTEGER and of a BOOLEAN with a default, to which more can be added. -/
def extensibleSet : Schema :=
  let members : List ComponentDeclaration :=
    [⟨"a", .handle ⟨0⟩, false, none⟩, ⟨"b", .handle ⟨1⟩, false, some (.boolean false)⟩]
  let leaves := ((empty.add ⟨.builtin .integer, []⟩).2.add ⟨.builtin .boolean, []⟩).2
  let set := leaves.add ⟨.collection ⟨.set, false, true, [.components members], [], []⟩, []⟩
  ((Schema.compile ⟨2⟩).outcome set.2).2

def extensibleSetLayout : Layout CompiledType :=
  ⟨.set, true,
    [⟨"a", 0, 1, false, none, .handle ⟨0⟩,
        ⟨⟨⟨0⟩, none, []⟩, .builtin .integer⟩, false, [.integer]⟩,
      ⟨"b", 1, 1, false, some (.boolean false), .handle ⟨1⟩,
        ⟨⟨⟨1⟩, none, []⟩, .builtin .boolean⟩, false, [.boolean]⟩]⟩

theorem reachable_extensibleSet : extensibleSet.Reachable :=
  .compile (.add (.add (.add .empty _) _) _) _

theorem compiled_extensibleSet : extensibleSet.compiled ⟨2⟩ =
    .ok ⟨⟨⟨2⟩, none, []⟩, .collection extensibleSetLayout⟩ :=
  rfl

theorem hasRangesOnly_extensibleSetLayout :
    CompiledType.HasRangesOnly ⟨⟨⟨2⟩, none, []⟩, .collection extensibleSetLayout⟩ := by
  rw [CompiledType.HasRangesOnly]
  simp [extensibleSetLayout, CompiledType.forall_reaches_mk_iff, TypeForm.types, CompiledType.info]

/-- Two unknown entries stay in order while known ones come to stand before them, or go. -/
theorem set_in_any_order_extensibleSet :
    let one : Value := .integer ⟨1, by decide, by decide⟩
    let known : Entries := [("a", one), ("b", .boolean false)]
    let unknown : Entries := [("v", .captured ⟨⟨.null, false⟩, [0x05, 0x00]⟩), ("u", .null)]
    (unknown ++ known).Perm (known.reverse ++ unknown) ∧
      (unknown ++ known).filter extensibleSetLayout.isUnknown = unknown ∧
      (∃ form, extensibleSet.canonicalize ⟨2⟩ (.collection (known.reverse ++ unknown)) = .ok form ∧
        form.value = .collection (("a", one) :: unknown)) ∧
      ∃ form, extensibleSet.canonicalize ⟨2⟩ (.collection (unknown ++ known)) = .ok form ∧
        form.value = .collection (("a", one) :: unknown) := by
  intro one known unknown
  have hperm : (unknown ++ known).Perm (known.reverse ++ unknown) :=
    List.perm_append_comm.trans ((List.reverse_perm known).symm.append_right _)
  have hform : ∃ form, extensibleSet.canonicalize ⟨2⟩ (.collection (known.reverse ++ unknown)) =
      .ok form ∧ form.value = .collection (("a", one) :: unknown) :=
    ⟨_, rfl, by decide +kernel⟩
  have hunknown : (unknown ++ known).filter extensibleSetLayout.isUnknown =
      (known.reverse ++ unknown).filter extensibleSetLayout.isUnknown := rfl
  obtain ⟨-, hsame⟩ := Reachable.set_in_any_order reachable_extensibleSet compiled_extensibleSet
    (.collection rfl) hasRangesOnly_extensibleSetLayout hperm
  exact ⟨hperm, rfl, hform, ((hsame hunknown).1 _).mpr hform⟩

end Schema

end Asn1

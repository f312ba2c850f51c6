import Asn1.Proofs.CompilationSteps
import Asn1.Proofs.TagMatching

/-!
Whether the elements of a SEQUENCE value are matched to the components that wrote them. The check
for ambiguous tags does not ensure this by itself: a required extension addition keeps components
apart only in values that are of its version.
-/

namespace Asn1

open Results

variable {schema : Schema} {handle : Handle} {info : TypeInfo} {layout : Layout CompiledType}

/-- Whether each entry names a component that an element with the tag can be of. -/
def Layout.Writes (layout : Layout CompiledType) : Entries → List Tag → Prop :=
  List.Forall₂ fun entry tag =>
    ∃ component, layout.component? entry.1 = some component ∧ tag ∈ component.tags

namespace Schema

/-- Whether the elements of all values of a SEQUENCE type are matched to the components that wrote
them, whichever of their tags the components wrote. -/
def MatchesElements (schema : Schema) (handle : Handle) (layout : Layout CompiledType) : Prop :=
  ∀ entries tags, entries ≠ [] → schema.accept handle (.collection entries) = .ok () →
    layout.Writes entries tags →
      layout.matchTags none tags = entries.map fun entry => layout.component? entry.1

/-- Whether there are values of a component in every context, and encodings of them. -/
def HasValues (schema : Schema) (component : Component CompiledType) : Prop :=
  component.tags ≠ [] ∧
    ∃ value, ∀ scope, component.type.accept schema.values scope value = .ok ()

theorem accept_collection_iff (hconsistent : schema.Consistent)
    (hcompiled : schema.compiled handle = .ok ⟨info, .collection layout⟩)
    (hlist : layout.kind.isList = false) {entries : Entries} :
    schema.accept handle (.collection entries) = .ok () ↔
      (layout.Admits entries ∧ ∀ entry ∈ entries, ∀ component,
        layout.component? entry.1 = some component → component.type.accept schema.values
          (((Scope.top schema.view).typed info.handle info.description).walking entries)
            entry.2 = .ok ()) ∧
      ∀ constraint ∈ info.constraints, constraint.check
        ((Scope.top schema.view).typed info.handle info.description)
          (.collection entries) = .ok () := by
  have hregular : ∀ found, TypeForm.collection layout = .collection found → found.IsRegular :=
    (hconsistent _ _ hcompiled).regular
  rw [accept_eq_ok_iff hcompiled, CompiledType.accept_mk_iff hregular]
  simp only [TypeForm.Accepts, hlist, Bool.false_eq_true, if_false, Layout.AcceptsEntries]
  constructor
  · rintro ⟨_, ⟨⟩, ⟨_, ⟨⟩, hadmits, hall⟩, hchecks⟩
    exact ⟨⟨hadmits, hall⟩, hchecks⟩
  · rintro ⟨⟨hadmits, hall⟩, hchecks⟩
    exact ⟨_, rfl, ⟨entries, rfl, hadmits, hall⟩, hchecks⟩

theorem known_of_writes {entries : Entries} {tags : List Tag}
    (h : layout.Writes entries tags) :
    (entries.map fun entry => layout.component? entry.1) = (layout.known entries).map some ∧
      List.Forall₂ (fun component tag => tag ∈ component.tags) (layout.known entries) tags := by
  induction h with
  | nil => exact ⟨rfl, .nil⟩
  | cons hentry _ ih =>
      obtain ⟨component, hfind, htag⟩ := hentry
      obtain ⟨hmap, hforall⟩ := ih
      rw [Layout.known_cons_of_some hfind, List.map_cons, hfind, hmap]
      exact ⟨rfl, .cons htag hforall⟩

theorem matchesElements_of_isSeparated (hconsistent : schema.Consistent)
    (hcompiled : schema.compiled handle = .ok ⟨info, .collection layout⟩)
    (hkind : layout.kind = .sequence) (hseparated : layout.IsSeparated) :
    schema.MatchesElements handle layout := by
  intro entries tags hne haccept hwrites
  have hregular := (hconsistent _ _ hcompiled).regular layout rfl
  obtain ⟨⟨hadmits, -⟩, -⟩ :=
    (accept_collection_iff hconsistent hcompiled
      (by simp [hkind, CollectionKind.isList])).mp haccept
  obtain ⟨-, horder, hcomplete⟩ := (Layout.admits_sequence_iff hkind).mp hadmits
  obtain ⟨hmap, htags⟩ := known_of_writes hwrites
  rw [hmap]
  exact Layout.matchTags_of_isSeparated hregular hseparated horder hcomplete
    (List.nil_append _).symm htags

/-- The required components of the version of `b` other than those from `a` up to `b`, and `b`. -/
def present (layout : Layout CompiledType) (a b : Component CompiledType) :
    List (Component CompiledType) :=
  layout.components.filter fun component =>
    component.index = b.index ∨ (component.isRequired = true ∧ component.version ≤ b.version ∧
      ¬(a.index ≤ component.index ∧ component.index < b.index))

theorem mem_present_iff {a b component : Component CompiledType} :
    component ∈ present layout a b ↔ component ∈ layout.components ∧
      (component.index = b.index ∨ (component.isRequired = true ∧
        component.version ≤ b.version ∧
          ¬(a.index ≤ component.index ∧ component.index < b.index))) := by
  rw [present, List.mem_filter, decide_eq_true_eq]

theorem present_subset {a b : Component CompiledType} : present layout a b ⊆ layout.components :=
  List.filter_sublist.subset

/-- If nothing required keeps two components apart, there is a value without the first and
everything up to the second. -/
theorem admits_present (hregular : layout.IsRegular) (hkind : layout.kind = .sequence)
    {a b : Component CompiledType} (hb : b ∈ layout.components)
    (hnone : ∀ component ∈ layout.components, component.isRequired = true →
      a.index ≤ component.index → component.index < b.index → b.version < component.version)
    (value : Component CompiledType → Value) :
    layout.Admits ((present layout a b).map fun component =>
      (component.name, value component)) := by
  have hknown :=
    Layout.known_map_of_regular hregular (present_subset (a := a) (b := b)) value
  rw [Layout.admits_sequence_iff hkind, hknown]
  refine ⟨?_, (Layout.pairwise_index hregular).filter _, ?_⟩
  · intro before entry after heq hunknown
    have hin : entry ∈ (present layout a b).map fun component =>
        (component.name, value component) := by
      simp [heq]
    obtain ⟨component, hmem, rfl⟩ := List.mem_map.mp hin
    have hfind := hregular.component?_eq_some_iff.mpr ⟨present_subset hmem, rfl⟩
    simp [hfind] at hunknown
  · intro component hmem hrequired hpresent
    have hbpresent : b ∈ present layout a b := mem_present_iff.mpr ⟨hb, .inl rfl⟩
    rw [hknown]
    rcases hpresent with hnil | hversion
    · simp [List.map_eq_nil_iff.mp hnil] at hbpresent
    · have hle : component.version ≤ b.version := by
        rcases Layout.le_topVersion_iff.mp hversion with hone | ⟨other, hother, hle⟩
        · exact hone.trans (hregular.one_le_version hb)
        · rw [hknown] at hother
          obtain ⟨hothermem, hindex | ⟨-, hotherle, -⟩⟩ := mem_present_iff.mp hother
          · rwa [hregular.index_injective hothermem hb hindex] at hle
          · exact hle.trans hotherle
      refine mem_present_iff.mpr ⟨hmem, .inr ⟨hrequired, hle, ?_⟩⟩
      rintro ⟨hlo, hhi⟩
      have := hnone component hmem hrequired hlo hhi
      omega

/-- What is present before `b` stands before `a`. -/
theorem nextIndex_le_of_present (hregular : layout.IsRegular) {a b : Component CompiledType}
    {before after : List (Component CompiledType)}
    (hsplit : present layout a b = before ++ b :: after) :
    Layout.nextIndex (before.getLast?.map Component.index) ≤ a.index := by
  rw [Layout.nextIndex]
  cases hlast : before.getLast? with
  | none => exact Nat.zero_le _
  | some last =>
      have hlastmem : last ∈ before := List.mem_of_getLast? hlast
      have hpairwise : (present layout a b).Pairwise (·.index < ·.index) :=
        (Layout.pairwise_index hregular).filter _
      rw [hsplit, List.pairwise_append] at hpairwise
      have hbelow := hpairwise.2.2 last hlastmem b List.mem_cons_self
      obtain ⟨-, hindex | ⟨-, -, hnot⟩⟩ :=
        mem_present_iff.mp (hsplit ▸ List.mem_append_left _ hlastmem)
      · omega
      · simp only [Option.map_some, Option.getD_some]
        omega

theorem exists_tags {components : List (Component CompiledType)}
    (h : ∀ component ∈ components, component.tags ≠ []) :
    ∃ tags, List.Forall₂ (fun (component : Component CompiledType) tag => tag ∈ component.tags)
      components tags := by
  apply forall₂_exists_iff.mpr
  intro component hmem
  exact List.exists_mem_of_ne_nil _ (h component hmem)

/-- Components that have tags can each be written with one, and `b` with the given one. -/
theorem exists_tags_at {components : List (Component CompiledType)}
    (h : ∀ component ∈ components, component.tags ≠ []) {b : Component CompiledType}
    (hmem : b ∈ components) {tag : Tag} (htag : tag ∈ b.tags) :
    ∃ before after beforeTags afterTags, components = before ++ b :: after ∧
      beforeTags.length = before.length ∧
      List.Forall₂ (fun (component : Component CompiledType) tag => tag ∈ component.tags)
        components (beforeTags ++ tag :: afterTags) := by
  obtain ⟨before, after, rfl⟩ := List.append_of_mem hmem
  obtain ⟨hbefore, hrest⟩ := List.forall_mem_append.mp h
  obtain ⟨beforeTags, hbeforeTags⟩ := exists_tags hbefore
  obtain ⟨afterTags, hafterTags⟩ := exists_tags (List.forall_mem_cons.mp hrest).2
  exact ⟨before, after, beforeTags, afterTags, rfl, hbeforeTags.length_eq.symm,
    List.rel_append hbeforeTags (.cons htag hafterTags)⟩

/-- If all components have values, then those whose elements are matched are separated. -/
theorem isSeparated_of_matchesElements (hconsistent : schema.Consistent)
    (hcompiled : schema.compiled handle = .ok ⟨info, .collection layout⟩)
    (hkind : layout.kind = .sequence) (hconstraints : info.constraints = [])
    (hvalues : ∀ component ∈ layout.components, schema.HasValues component)
    (hmatches : schema.MatchesElements handle layout) : layout.IsSeparated := by
  have hregular := (hconsistent _ _ hcompiled).regular layout rfl
  intro a ha b hb hlt tag hatag hbtag
  by_contra hunseparated
  have hnone : ∀ component ∈ layout.components, component.isRequired = true →
      a.index ≤ component.index → component.index < b.index →
        b.version < component.version := by
    intro component hmem hrequired hlo hhi
    by_contra hle
    exact hunseparated ⟨component, hmem, hrequired, hlo, hhi, by omega⟩
  have : Nonempty Value := ⟨.null⟩
  choose! htags value hvalue using hvalues
  have hadmits := admits_present hregular hkind hb hnone value
  -- the elements: that of `b` has the tag in question, the others have any of theirs
  have hbpresent : b ∈ present layout a b := mem_present_iff.mpr ⟨hb, .inl rfl⟩
  obtain ⟨before, after, beforeTags, afterTags, hsplit, hlength, hwritten⟩ :=
    exists_tags_at (fun component hmem => htags component (present_subset hmem)) hbpresent hbtag
  have hfind {component : Component CompiledType} (hmem : component ∈ present layout a b) :
      layout.component? component.name = some component :=
    hregular.component?_eq_some_iff.mpr ⟨present_subset hmem, rfl⟩
  have hmatch := hmatches ((present layout a b).map fun component =>
    (component.name, value component)) (beforeTags ++ tag :: afterTags) ?_ ?_ ?_
  · have hsome : ((present layout a b).map fun component =>
        (component.name, value component)).map (fun entry => layout.component? entry.1) =
          (before ++ b :: after).map some := by
      rw [List.map_map, ← hsplit]
      exact List.map_congr_left fun component hmem => hfind hmem
    rw [hsome] at hmatch
    have hfound := Layout.componentByTagFrom?_of_matchTags hlength hmatch
    obtain ⟨-, -, -, hfirst⟩ := (Layout.componentByTagFrom?_eq_some_iff hregular).mp hfound
    refine hfirst a ha ?_ hlt hatag
    rw [Option.or_none]
    exact nextIndex_le_of_present hregular hsplit
  · intro hnil
    simp [List.map_eq_nil_iff.mp hnil] at hbpresent
  · rw [accept_collection_iff hconsistent hcompiled (by simp [hkind, CollectionKind.isList])]
    refine ⟨⟨hadmits, ?_⟩, by simp [hconstraints]⟩
    intro entry hentry component hcomponent
    obtain ⟨source, hsource, rfl⟩ := List.mem_map.mp hentry
    obtain rfl : source = component := Option.some.inj ((hfind hsource).symm.trans hcomponent)
    exact hvalue source (present_subset hsource) _
  · rw [Layout.Writes, List.forall₂_map_left_iff]
    refine ((List.forall₂_and_left _ _).mpr ⟨fun _ => id, hwritten⟩).imp ?_
    rintro component written ⟨hmem, htag⟩
    exact ⟨component, hfind hmem, htag⟩

/-- The elements of a SEQUENCE type are matched to the components that wrote them if the components
are separated, and only then if each of them has values. -/
theorem Reachable.matchesElements (hschema : schema.Reachable)
    (hcompiled : schema.compiled handle = .ok ⟨info, .collection layout⟩)
    (hkind : layout.kind = .sequence) :
    (layout.IsSeparated → schema.MatchesElements handle layout) ∧
      (info.constraints = [] → (∀ component ∈ layout.components, schema.HasValues component) →
        schema.MatchesElements handle layout → layout.IsSeparated) := by
  exact ⟨matchesElements_of_isSeparated hschema.consistent hcompiled hkind,
    isSeparated_of_matchesElements hschema.consistent hcompiled hkind⟩

/-- The required root component `a` keeps the two INTEGER components apart in all values. -/
theorem matchesElements_of_required_root :
    let schema := extendedSequence [⟨"a", .handle ⟨0⟩, false, none⟩]
      [⟨"x", .handle ⟨1⟩, true, none⟩] [⟨"t", .handle ⟨0⟩, false, none⟩]
    ∃ layout, schema.compiled ⟨2⟩ = .ok ⟨⟨⟨2⟩, none, []⟩, .collection layout⟩ ∧
      layout.kind = .sequence ∧ schema.MatchesElements ⟨2⟩ layout := by
  intro schema
  have hreachable : schema.Reachable := reachable_extendedSequence _ _ _
  obtain ⟨layout, hcompiled, hkind, hadditions⟩ : ∃ layout : Layout CompiledType,
      schema.compiled ⟨2⟩ = .ok ⟨⟨⟨2⟩, none, []⟩, .collection layout⟩ ∧
        layout.kind = .sequence ∧ ∀ component ∈ layout.components,
          component.isAddition = true → component.isRequired = false :=
    ⟨_, rfl, rfl, by decide⟩
  have hregular := (hreachable.consistent _ _ hcompiled).regular layout rfl
  exact ⟨layout, hcompiled, hkind, (Reachable.matchesElements hreachable hcompiled hkind).1
    (Layout.isSeparated_of_additions_optional hregular hkind hadditions)⟩

/-- The required addition `x` does not keep the two BOOLEAN components apart: it can be left out
while the second one is present, whose element is then matched to `x`. -/
theorem not_matchesElements_of_required_addition :
    let schema := extendedSequence [⟨"a", .handle ⟨0⟩, false, none⟩]
      [⟨"x", .handle ⟨1⟩, false, none⟩] [⟨"t", .handle ⟨1⟩, true, none⟩]
    schema.Reachable ∧ ∃ layout,
      schema.compiled ⟨2⟩ = .ok ⟨⟨⟨2⟩, none, []⟩, .collection layout⟩ ∧
        layout.kind = .sequence ∧ ¬schema.MatchesElements ⟨2⟩ layout := by
  refine ⟨reachable_extendedSequence _ _ _, _, rfl, rfl, ?_⟩
  intro hmatches
  have hmatch := hmatches
    [("a", .integer ⟨1, by decide, by decide⟩), ("t", .boolean true)] [.integer, .boolean]
    (by simp) rfl (.cons ⟨_, rfl, by decide⟩ (.cons ⟨_, rfl, by decide⟩ .nil))
  have hnames := congrArg (List.map (Option.map Component.name)) hmatch
  exact absurd hnames (by decide)

end Schema

end Asn1

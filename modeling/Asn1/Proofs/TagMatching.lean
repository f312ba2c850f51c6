import Asn1.Proofs.TagClashes
import Asn1.Proofs.Walking

namespace Asn1

namespace Layout

variable {τ : Type} {layout : Layout τ} {a b component : Component τ} {tag : Tag}

/-- Between two components of a SEQUENCE that share a tag stands a required one, which may be the
first of the two. -/
theorem exists_required_between (h : layout.IsRegular) (hkind : layout.kind = .sequence)
    (ha : a ∈ layout.components) (hb : b ∈ layout.components) (hlt : a.index < b.index)
    (hatag : tag ∈ a.tags) (hbtag : tag ∈ b.tags) :
    ∃ required ∈ layout.components, required.isRequired = true ∧ a.index ≤ required.index ∧
      required.index < b.index := by
  by_contra hnone
  have hunambiguous := h.unambiguous
  rw [hkind] at hunambiguous
  have hshares : SharesTag layout.components a.index b.index tag :=
    ⟨hlt, ⟨a, h.getElem?_index ha, hatag⟩, b, h.getElem?_index hb, hbtag⟩
  refine hshares.runClash?_ne_none ?_ hunambiguous
  intro k hle hlt component hget
  obtain ⟨hmem, rfl⟩ := h.getElem?_eq_some_iff.mp hget
  by_contra hrequired
  exact hnone ⟨component, hmem, by simpa using hrequired, hle, hlt⟩

theorem IsRegular.clash?_eq_none (h : layout.IsRegular) (hlist : layout.kind.isList = false)
    (hkind : layout.kind ≠ .sequence) : clash? layout.components = none := by
  have hunambiguous := h.unambiguous
  cases hkind' : layout.kind with
  | sequence => exact absurd hkind' hkind
  | set => rwa [hkind'] at hunambiguous
  | choice => rwa [hkind'] at hunambiguous
  | sequenceOf => simp [hkind', CollectionKind.isList] at hlist
  | setOf => simp [hkind', CollectionKind.isList] at hlist

theorem componentByTag?_eq_some (h : layout.IsRegular) (hlist : layout.kind.isList = false)
    (hkind : layout.kind ≠ .sequence) (hmem : component ∈ layout.components)
    (htag : tag ∈ component.tags) : layout.componentByTag? tag = some component := by
  obtain ⟨-, hdisjoint⟩ := clash?_eq_none_iff.mp (h.clash?_eq_none hlist hkind)
  have hne : layout.componentByTag? tag ≠ none := by
    intro hnone
    have hnot := List.find?_eq_none.mp hnone component hmem
    simp [Component.hasTag, htag] at hnot
  obtain ⟨found, hfound⟩ := Option.ne_none_iff_exists'.mp hne
  rw [hfound, Option.some.injEq]
  have hfoundTag : tag ∈ found.tags := by
    simpa [Component.hasTag] using List.find?_some hfound
  by_contra hdiffers
  have hsymm : Std.Symm fun a b : Component τ => a.tags.Disjoint b.tags :=
    ⟨fun _ _ hd _ hb ha => hd ha hb⟩
  exact hdisjoint.forall (List.mem_of_find?_eq_some hfound) hmem hdiffers hfoundTag htag

/-- Whether components that share a tag are kept apart by a required one that cannot be left out
where the second of them is present. -/
def IsSeparated (layout : Layout τ) : Prop :=
  ∀ a ∈ layout.components, ∀ b ∈ layout.components, a.index < b.index →
    ∀ tag ∈ a.tags, tag ∈ b.tags →
      ∃ required ∈ layout.components, required.isRequired = true ∧ a.index ≤ required.index ∧
        required.index < b.index ∧ required.version ≤ b.version

theorem isSeparated_of_additions_optional (h : layout.IsRegular) (hkind : layout.kind = .sequence)
    (hadditions : ∀ component ∈ layout.components, component.isAddition = true →
      component.isRequired = false) : layout.IsSeparated := by
  intro a ha b hb hlt tag hatag hbtag
  obtain ⟨required, hmem, hrequired, hlo, hhi⟩ :=
    exists_required_between h hkind ha hb hlt hatag hbtag
  refine ⟨required, hmem, hrequired, hlo, hhi, ?_⟩
  rcases h.version_eq_one_or hmem with hone | haddition
  · rw [hone]
    exact h.one_le_version hb
  · simp [hadditions required hmem haddition] at hrequired

/-- The index from which on components are looked for after the last one that was found. -/
def nextIndex (previous? : Option Nat) : Nat :=
  (previous?.map (· + 1)).getD 0

/-- The first component with a tag after the last one present is the next one present. -/
theorem componentByTagFrom?_of_isSeparated (h : layout.IsRegular) (hseparated : layout.IsSeparated)
    {entries : Entries} (horder : (layout.known entries).Pairwise (·.index < ·.index))
    (hcomplete : layout.IsComplete entries) {before after : List (Component τ)}
    (hknown : layout.known entries = before ++ component :: after) (htag : tag ∈ component.tags) :
    layout.componentByTagFrom? (nextIndex (before.getLast?.map Component.index)) tag =
      some component := by
  have hpresent : component ∈ layout.known entries := by simp [hknown]
  have hmem := mem_components_of_mem_known hpresent
  rw [hknown, List.pairwise_append, List.pairwise_cons] at horder
  obtain ⟨hbefore, ⟨hafter, -⟩, hcross⟩ := horder
  -- everything present before the component has an index below the next one that is looked at
  have hlast {other : Component τ} (hother : other ∈ before) :
      other.index < nextIndex (before.getLast?.map Component.index) := by
    obtain ⟨front, last, rfl⟩ := (List.eq_nil_or_concat before).resolve_left
      (List.ne_nil_of_mem hother)
    rw [List.concat_eq_append, List.getLast?_concat, nextIndex, Option.map_some, Option.map_some,
      Option.getD_some]
    rw [List.concat_eq_append] at hother hbefore
    rcases List.mem_append.mp hother with hfront | hsingle
    · have hlt := (List.pairwise_append.mp hbefore).2.2 other hfront last List.mem_cons_self
      omega
    · rw [List.mem_singleton.mp hsingle]
      exact Nat.lt_succ_self _
  rw [componentByTagFrom?_eq_some_iff h]
  refine ⟨hmem, ?_, htag, ?_⟩
  · rw [nextIndex]
    cases hgetLast : before.getLast? with
    | none => exact Nat.zero_le _
    | some last =>
        exact hcross last (List.mem_of_getLast? hgetLast) component List.mem_cons_self
  · intro other hother hstart hlt hotherTag
    obtain ⟨required, hrequired, hisRequired, hlo, hhi, hversion⟩ :=
      hseparated other hother component hmem hlt tag hotherTag htag
    have hnamed := hcomplete required hrequired hisRequired
      (.inr (le_topVersion_iff.mpr (.inr ⟨component, hpresent, hversion⟩)))
    rw [hknown, List.mem_append, List.mem_cons] at hnamed
    rcases hnamed with hin | rfl | hin
    · have := hlast hin
      omega
    · omega
    · have := hafter required hin
      omega

/-- The components that elements with the given tags are matched to, one after the other: each to
the first one with its tag after the component with the index `previous?`, the last one matched. -/
def matchTags (layout : Layout τ) (previous? : Option Nat) : List Tag → List (Option (Component τ))
  | [] => []
  | tag :: rest =>
    let found? := layout.componentByTagFrom? (nextIndex previous?) tag
    found? :: layout.matchTags ((found?.map Component.index).or previous?) rest

theorem matchTags_cons_of_some {previous? : Option Nat} {rest : List Tag}
    (h : layout.componentByTagFrom? (nextIndex previous?) tag = some component) :
    layout.matchTags previous? (tag :: rest) =
      some component :: layout.matchTags (some component.index) rest := by
  simp [matchTags, h]

theorem matchTags_of_isSeparated (h : layout.IsRegular) (hseparated : layout.IsSeparated)
    {entries : Entries} (horder : (layout.known entries).Pairwise (·.index < ·.index))
    (hcomplete : layout.IsComplete entries) {before after : List (Component τ)} {tags : List Tag}
    (hknown : layout.known entries = before ++ after)
    (htags : List.Forall₂ (fun component tag => tag ∈ component.tags) after tags) :
    layout.matchTags (before.getLast?.map Component.index) tags = after.map some := by
  induction htags generalizing before with
  | nil => rfl
  | cons htag _ ih =>
      rename_i component tag rest restTags _
      have hfound := componentByTagFrom?_of_isSeparated h hseparated horder hcomplete hknown htag
      have hrest : layout.known entries = (before ++ [component]) ++ rest := by
        rw [hknown, List.append_assoc]
        rfl
      have hmatch := ih hrest
      rw [List.getLast?_concat] at hmatch
      rw [matchTags_cons_of_some hfound, List.map_cons]
      exact congrArg _ hmatch

theorem componentByTagFrom?_of_matchTags {previous? : Option Nat}
    {before after : List (Component τ)} {tags rest : List Tag}
    (hlength : tags.length = before.length)
    (h : layout.matchTags previous? (tags ++ tag :: rest) =
      (before ++ component :: after).map some) :
    layout.componentByTagFrom?
        (nextIndex ((before.getLast?.map Component.index).or previous?)) tag =
      some component := by
  induction before generalizing previous? tags with
  | nil =>
      obtain rfl := List.length_eq_zero_iff.mp hlength
      exact (List.cons_eq_cons.mp h).1
  | cons first before ih =>
      rcases tags with _ | ⟨firstTag, tags⟩
      · simp at hlength
      · rw [List.cons_append, matchTags, List.cons_append, List.map_cons] at h
        obtain ⟨hfirst, hrest⟩ := List.cons_eq_cons.mp h
        rw [hfirst] at hrest
        have hfound := ih (by simpa using hlength) hrest
        rw [List.getLast?_cons]
        cases hlast : before.getLast? <;> simpa [hlast] using hfound

theorem pairwise_index (h : layout.IsRegular) :
    layout.components.Pairwise (·.index < ·.index) := by
  have hrange := List.pairwise_lt_range (n := layout.components.length)
  rw [← h.indexes] at hrange
  exact List.pairwise_map.mp hrange

theorem known_map_of_regular (h : layout.IsRegular) {components : List (Component τ)}
    (hcomponents : components ⊆ layout.components) (value : Component τ → Value) :
    layout.known (components.map fun component => (component.name, value component)) =
      components := by
  rw [known, List.filterMap_map]
  refine (List.filterMap_congr fun component hmem => ?_).trans List.filterMap_some
  exact h.component?_eq_some_iff.mpr ⟨hcomponents hmem, rfl⟩

end Layout

end Asn1

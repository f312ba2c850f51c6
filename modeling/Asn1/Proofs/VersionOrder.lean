import Asn1.Declaration.Versions
import Mathlib.Data.List.Pairwise
import Mathlib.Data.List.Range

namespace Asn1

/-- Whether the second list repeats each version of the first one any number of times. -/
inductive Repeats : List Nat → List Nat → Prop
  | nil : Repeats [] []
  | cons (version count : Nat) {versions repeated : List Nat} :
      Repeats versions repeated →
        Repeats (version :: versions) (List.replicate count version ++ repeated)

namespace Repeats

variable {versions repeated : List Nat}

theorem exists_append {front back : List Nat} (h : Repeats (front ++ back) repeated) :
    ∃ first second, repeated = first ++ second ∧ Repeats front first ∧ Repeats back second := by
  induction front generalizing repeated with
  | nil => exact ⟨[], repeated, rfl, .nil, h⟩
  | cons version front ih =>
      rcases h with _ | ⟨_, count, hrest⟩
      obtain ⟨first, second, rfl, hfirst, hsecond⟩ := ih hrest
      exact ⟨_, second, (List.append_assoc _ _ _).symm, .cons version count hfirst, hsecond⟩

theorem mem_of_mem (h : Repeats versions repeated) {version : Nat} (hmem : version ∈ repeated) :
    version ∈ versions := by
  induction h with
  | nil => exact hmem
  | cons first count _ ih =>
      rcases List.mem_append.mp hmem with hcount | hrest
      · exact List.mem_cons.mpr (.inl (List.eq_of_mem_replicate hcount))
      · exact List.mem_cons_of_mem _ (ih hrest)

theorem pairwise_le (h : Repeats versions repeated) (hversions : versions.Pairwise (· < ·)) :
    repeated.Pairwise (· ≤ ·) := by
  induction h with
  | nil => exact .nil
  | cons first count hrest ih =>
      obtain ⟨hfirst, hpairwise⟩ := List.pairwise_cons.mp hversions
      rw [List.pairwise_append]
      refine ⟨List.pairwise_replicate.mpr (.inr le_rfl), ih hpairwise, ?_⟩
      intro a ha b hb
      obtain rfl := List.eq_of_mem_replicate ha
      exact (hfirst b (hrest.mem_of_mem hb)).le

end Repeats

namespace ExtensionAddition

variable {additions : List ExtensionAddition}

theorem versionFault?_true_eq_none_iff {previous : Nat} :
    versionFault? true previous additions = none ↔
      ∀ addition ∈ additions, addition.version? = none := by
  induction additions generalizing previous with
  | nil => simp [versionFault?]
  | cons addition rest ih =>
      rw [versionFault?, List.forall_mem_cons]
      cases hversion : addition.version? with
      | none => simp [ih]
      | some found => simp

theorem versionFault?_groups_eq_none_iff {previous : Nat}
    {groups : List (Nat × List ComponentDeclaration)} :
    versionFault? false previous
        (groups.map fun (version, components) => .group (some version) components) = none ↔
      (previous :: groups.map Prod.fst).Pairwise (· < ·) := by
  induction groups generalizing previous with
  | nil => simp [versionFault?]
  | cons group rest ih =>
      rw [List.map_cons, List.map_cons, versionFault?]
      simp only [version?, Bool.false_eq_true, if_false]
      split
      · next hle =>
        refine iff_of_false (by simp) fun hpairwise => ?_
        exact hle.not_gt ((List.pairwise_cons.mp hpairwise).1 _ List.mem_cons_self)
      · next hlt =>
        rw [ih, List.pairwise_cons (a := previous), List.forall_mem_cons]
        refine ⟨fun hpairwise => ⟨⟨by omega, fun version hmem => ?_⟩, hpairwise⟩, And.right⟩
        have := (List.pairwise_cons.mp hpairwise).1 version hmem
        omega

theorem exists_groups (h : ∀ addition ∈ additions, addition.version?.isNone = false) :
    ∃ groups : List (Nat × List ComponentDeclaration),
      additions = groups.map fun (version, components) => .group (some version) components := by
  induction additions with
  | nil => exact ⟨[], rfl⟩
  | cons addition rest ih =>
      rw [List.forall_mem_cons] at h
      obtain ⟨groups, rfl⟩ := ih h.2
      rcases addition with item | ⟨_ | version, components⟩
      · simp [version?] at h
      · simp [version?] at h
      · exact ⟨(version, components) :: groups, rfl⟩

theorem numbered_of_unversioned {next : Nat}
    (h : ∀ addition ∈ additions, addition.version? = none) :
    (numbered next additions).map Prod.fst = List.range' next additions.length := by
  induction additions generalizing next with
  | nil => rfl
  | cons addition rest ih =>
      rw [List.forall_mem_cons] at h
      rw [numbered, h.1, List.map_cons, ih h.2, List.length_cons, List.range'_succ]

theorem numbered_groups (next : Nat) (groups : List (Nat × List ComponentDeclaration)) :
    (numbered next (groups.map fun (version, components) =>
      .group (some version) components)).map Prod.fst = groups.map Prod.fst := by
  induction groups with
  | nil => rfl
  | cons group rest ih => rw [List.map_cons, numbered, version?, List.map_cons, ih, List.map_cons]

end ExtensionAddition

namespace CollectionDeclaration

/-- Whether no extension addition has an explicit version, or all of them are groups that have one,
from 2 on and in increasing order. -/
def HasLegalVersions (collection : CollectionDeclaration) : Prop :=
  (∀ addition ∈ collection.additions, addition.version? = none) ∨
    ∃ groups : List (Nat × List ComponentDeclaration),
      collection.additions = groups.map (fun (version, components) =>
        .group (some version) components) ∧
      (groups.map Prod.fst).Pairwise (· < ·) ∧ ∀ group ∈ groups, 2 ≤ group.1

theorem versionFault?_eq_none_iff {collection : CollectionDeclaration} :
    collection.versionFault? = none ↔ collection.HasLegalVersions := by
  rw [versionFault?, HasLegalVersions]
  cases hany : collection.additions.any (·.version?.isNone) with
  | true =>
      obtain ⟨addition, hmem, hnone⟩ := List.any_eq_true.mp hany
      rw [ExtensionAddition.versionFault?_true_eq_none_iff, iff_self_or]
      rintro ⟨groups, hgroups, -⟩
      rw [hgroups] at hmem
      obtain ⟨group, -, rfl⟩ := List.mem_map.mp hmem
      simp [ExtensionAddition.version?] at hnone
  | false =>
      rw [List.any_eq_false] at hany
      obtain ⟨groups, hgroups⟩ := ExtensionAddition.exists_groups fun addition hmem =>
        Bool.eq_false_iff.mpr (hany addition hmem)
      rw [hgroups, ExtensionAddition.versionFault?_groups_eq_none_iff, List.pairwise_cons]
      constructor
      · rintro ⟨habove, hpairwise⟩
        refine .inr ⟨groups, rfl, hpairwise, fun group hmem => ?_⟩
        exact habove group.1 (List.mem_map_of_mem hmem)
      · rintro (hnone | ⟨others, hothers, hpairwise, habove⟩)
        · cases groups with
          | nil => simp
          | cons group rest => simp [ExtensionAddition.version?] at hnone
        · have hversions := ExtensionAddition.numbered_groups 2 groups
          rw [hothers, ExtensionAddition.numbered_groups] at hversions
          rw [← hversions]
          refine ⟨?_, hpairwise⟩
          intro version hmem
          obtain ⟨group, hgroup, rfl⟩ := List.mem_map.mp hmem
          exact habove group hgroup

/-- Without a fault, the additions have greater versions than the root, each a greater one than
those before it. -/
theorem numbered_of_versionFault? {collection : CollectionDeclaration}
    (h : collection.versionFault? = none) :
    ((ExtensionAddition.numbered 2 collection.additions).map Prod.fst).Pairwise (· < ·) ∧
      ∀ version ∈ (ExtensionAddition.numbered 2 collection.additions).map Prod.fst,
        1 < version := by
  rcases versionFault?_eq_none_iff.mp h with hnone | ⟨groups, hgroups, hpairwise, habove⟩
  · rw [ExtensionAddition.numbered_of_unversioned hnone]
    refine ⟨List.pairwise_lt_range', ?_⟩
    intro version hmem
    exact (List.mem_range'_1.mp hmem).1
  · rw [hgroups, ExtensionAddition.numbered_groups]
    refine ⟨hpairwise, ?_⟩
    intro version hmem
    obtain ⟨group, hgroup, rfl⟩ := List.mem_map.mp hmem
    exact habove group hgroup

theorem isExtensible_of_mem_items {collection : CollectionDeclaration} {version : Nat}
    (hmem : version ∈ collection.items.map Prod.fst) (hversion : 1 < version) :
    collection.isExtensible = true := by
  have hroot {items : List ComponentItem} : version ∉ (items.map (1, ·)).map Prod.fst := by
    intro hmem
    obtain ⟨item, hitem, rfl⟩ := List.mem_map.mp hmem
    obtain ⟨_, -, rfl⟩ := List.mem_map.mp hitem
    exact lt_irrefl _ hversion
  rw [isExtensible]
  cases hadditions : collection.additions with
  | cons addition rest => simp
  | nil =>
      cases htrailing : collection.trailing with
      | cons component rest => simp
      | nil =>
          rw [items, hadditions, htrailing, ExtensionAddition.numbered, List.append_nil,
            List.map_nil, List.append_nil] at hmem
          exact absurd hmem hroot

theorem exists_sections {collection : CollectionDeclaration} (h : collection.versionFault? = none)
    {versions : List Nat} (hrepeats : Repeats (collection.items.map Prod.fst) versions) :
    ∃ root additions trailing, versions = root ++ additions ++ trailing ∧
      (∀ version ∈ root ++ trailing, version = 1) ∧ (∀ version ∈ additions, 1 < version) ∧
        additions.Pairwise (· ≤ ·) := by
  obtain ⟨hpairwise, habove⟩ := numbered_of_versionFault? h
  rw [items, List.map_append, List.map_append] at hrepeats
  obtain ⟨front, trailing, rfl, hfront, htrailing⟩ := hrepeats.exists_append
  obtain ⟨root, additions, rfl, hroot, hadditions⟩ := hfront.exists_append
  refine ⟨root, additions, trailing, rfl, ?_, ?_, hadditions.pairwise_le hpairwise⟩
  · intro version hmem
    rcases List.mem_append.mp hmem with hmem | hmem
    · obtain ⟨item, hitem, rfl⟩ := List.mem_map.mp (hroot.mem_of_mem hmem)
      obtain ⟨_, -, rfl⟩ := List.mem_map.mp hitem
      rfl
    · obtain ⟨item, hitem, rfl⟩ := List.mem_map.mp (htrailing.mem_of_mem hmem)
      obtain ⟨_, -, rfl⟩ := List.mem_map.mp hitem
      rfl
  · intro version hmem
    exact habove version (hadditions.mem_of_mem hmem)

end CollectionDeclaration

end Asn1

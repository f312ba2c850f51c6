import Asn1.Layout.Ambiguity
import Mathlib.Data.List.Nodup
import Mathlib.Data.List.Pairwise
import Mathlib.Data.List.Range

namespace Asn1

namespace Layout

variable {τ : Type}

/-- What holds of the layouts that collections are compiled to. -/
structure IsRegular (layout : Layout τ) : Prop where
  indexes : layout.components.map Component.index = List.range layout.components.length
  names : (layout.components.map Component.name).Nodup
  /-- A first part of the root, the additions, and the rest of the root. -/
  sections : ∃ root additions trailing, layout.components = root ++ additions ++ trailing ∧
    (∀ component ∈ root ++ trailing, component.version = 1) ∧
    (∀ component ∈ additions, component.isAddition = true) ∧
    additions.Pairwise (·.version ≤ ·.version)
  /-- Only what is extensible has additions. -/
  extensible : ∀ component ∈ layout.components, component.isAddition = true →
    layout.extensible = true
  unambiguous : ambiguity? layout.kind layout.components = none

variable {layout : Layout τ} {a b c component : Component τ}

namespace IsRegular

theorem getElem?_eq_some_iff (h : layout.IsRegular) {i : Nat} :
    layout.components[i]? = some component ↔
      component ∈ layout.components ∧ component.index = i := by
  have hindex (j : Nat) (hj : j < layout.components.length) :
      layout.components[j].index = j := by
    have hmap : (layout.components.map Component.index)[j]? = some j := by
      rw [h.indexes, List.getElem?_range hj]
    simpa [List.getElem?_eq_getElem hj] using hmap
  constructor
  · intro hget
    obtain ⟨hi, rfl⟩ := List.getElem?_eq_some_iff.mp hget
    exact ⟨List.getElem_mem hi, hindex i hi⟩
  · rintro ⟨hmem, rfl⟩
    obtain ⟨j, hj, rfl⟩ := List.getElem_of_mem hmem
    rw [hindex j hj]
    exact List.getElem?_eq_getElem hj

theorem getElem?_index (h : layout.IsRegular) (hmem : component ∈ layout.components) :
    layout.components[component.index]? = some component :=
  h.getElem?_eq_some_iff.mpr ⟨hmem, rfl⟩

theorem index_lt (h : layout.IsRegular) (hmem : component ∈ layout.components) :
    component.index < layout.components.length := by
  obtain ⟨hlt, -⟩ := List.getElem?_eq_some_iff.mp (h.getElem?_index hmem)
  exact hlt

theorem index_injective (h : layout.IsRegular) (ha : a ∈ layout.components)
    (hb : b ∈ layout.components) (hindex : a.index = b.index) : a = b := by
  have hget := h.getElem?_index ha
  rw [hindex, h.getElem?_index hb] at hget
  exact (Option.some.inj hget).symm

theorem component?_eq_some_iff (h : layout.IsRegular) {name : String} :
    layout.component? name = some component ↔
      component ∈ layout.components ∧ component.name = name := by
  rw [component?]
  constructor
  · intro hfind
    exact ⟨List.mem_of_find?_eq_some hfind, by simpa using List.find?_some hfind⟩
  · rintro ⟨hmem, rfl⟩
    obtain ⟨found, hfound⟩ : ∃ found,
        layout.components.find? (·.name = component.name) = some found := by
      rw [← Option.isSome_iff_exists, List.find?_isSome]
      exact ⟨component, hmem, by simp⟩
    have hname : found.name = component.name := by simpa using List.find?_some hfound
    rw [hfound, List.inj_on_of_nodup_map h.names (List.mem_of_find?_eq_some hfound) hmem hname]

/-- The additions are the components whose indexes lie within one section. -/
theorem exists_section (h : layout.IsRegular) :
    ∃ start stop, (∀ component ∈ layout.components,
      (component.isAddition = true ↔ start ≤ component.index ∧ component.index < stop)) ∧
      ∀ a ∈ layout.components, ∀ b ∈ layout.components, a.isAddition = true →
        b.isAddition = true → a.index ≤ b.index → a.version ≤ b.version := by
  obtain ⟨root, additions, trailing, hcomponents, hroot, hadditions, hversions⟩ := h.sections
  -- where a component stands follows from its index
  have hget {component : Component τ} (hmem : component ∈ layout.components) :
      (root ++ additions ++ trailing)[component.index]? = some component := by
    rw [← hcomponents]
    exact h.getElem?_index hmem
  have hsection : ∀ component ∈ layout.components, (component.isAddition = true ↔
      root.length ≤ component.index ∧ component.index < root.length + additions.length) := by
    intro component hmem
    have hfound := hget hmem
    rw [List.append_assoc] at hfound
    rcases lt_or_ge component.index root.length with hlt | hge
    · rw [List.getElem?_append_left hlt] at hfound
      have hversion := hroot component (List.mem_append_left _ (List.mem_of_getElem? hfound))
      simp only [Component.isAddition, hversion, lt_irrefl, decide_false, Bool.false_eq_true,
        false_iff]
      omega
    rw [List.getElem?_append_right hge] at hfound
    rcases lt_or_ge (component.index - root.length) additions.length with hlt | hge'
    · rw [List.getElem?_append_left hlt] at hfound
      simp only [hadditions component (List.mem_of_getElem? hfound), true_iff]
      omega
    · rw [List.getElem?_append_right hge'] at hfound
      have hversion := hroot component (List.mem_append_right _ (List.mem_of_getElem? hfound))
      simp only [Component.isAddition, hversion, lt_irrefl, decide_false, Bool.false_eq_true,
        false_iff]
      omega
  refine ⟨root.length, root.length + additions.length, hsection, ?_⟩
  intro a ha b hb haddition hbddition hle
  obtain ⟨hastart, hastop⟩ := (hsection a ha).mp haddition
  obtain ⟨hbstart, hbstop⟩ := (hsection b hb).mp hbddition
  have hfound {component : Component τ} (hmem : component ∈ layout.components)
      (hstart : root.length ≤ component.index)
      (hstop : component.index < root.length + additions.length) :
      additions[component.index - root.length]? = some component := by
    have hfound := hget hmem
    rwa [List.append_assoc, List.getElem?_append_right hstart,
      List.getElem?_append_left (by omega)] at hfound
  rcases hle.lt_or_eq with hlt | heq
  · obtain ⟨hi, hgeta⟩ := List.getElem?_eq_some_iff.mp (hfound ha hastart hastop)
    obtain ⟨hj, hgetb⟩ := List.getElem?_eq_some_iff.mp (hfound hb hbstart hbstop)
    have hpair := List.pairwise_iff_getElem.mp hversions _ _ hi hj (by omega)
    rwa [hgeta, hgetb] at hpair
  · exact (h.index_injective ha hb heq) ▸ le_rfl

theorem isAddition_between (h : layout.IsRegular) (ha : a ∈ layout.components)
    (hb : b ∈ layout.components) (hc : c ∈ layout.components) (hab : a.index ≤ b.index)
    (hbc : b.index ≤ c.index) (haddition : a.isAddition = true) (hcddition : c.isAddition = true) :
    b.isAddition = true := by
  obtain ⟨start, stop, hsection, -⟩ := h.exists_section
  have hastart := (hsection a ha).mp haddition
  have hcstop := (hsection c hc).mp hcddition
  exact (hsection b hb).mpr (by omega)

theorem version_le_of_index_le (h : layout.IsRegular) (ha : a ∈ layout.components)
    (hb : b ∈ layout.components) (haddition : a.isAddition = true) (hbddition : b.isAddition = true)
    (hle : a.index ≤ b.index) : a.version ≤ b.version := by
  obtain ⟨-, -, -, hversions⟩ := h.exists_section
  exact hversions a ha b hb haddition hbddition hle

theorem version_eq_one_or (h : layout.IsRegular) (hmem : component ∈ layout.components) :
    component.version = 1 ∨ component.isAddition = true := by
  obtain ⟨root, additions, trailing, hcomponents, hroot, hadditions, -⟩ := h.sections
  rw [hcomponents] at hmem
  rcases List.mem_append.mp hmem with hmem | htrailing
  · rcases List.mem_append.mp hmem with hmem | haddition
    · exact .inl (hroot component (List.mem_append_left _ hmem))
    · exact .inr (hadditions component haddition)
  · exact .inl (hroot component (List.mem_append_right _ htrailing))

theorem one_le_version (h : layout.IsRegular) (hmem : component ∈ layout.components) :
    1 ≤ component.version := by
  rcases h.version_eq_one_or hmem with hversion | haddition
  · omega
  · simp only [Component.isAddition, decide_eq_true_eq] at haddition
    omega

theorem inExtensionRange_iff (h : layout.IsRegular) {index : Nat} :
    layout.inExtensionRange index = true ↔
      ∃ component ∈ layout.components, component.isAddition = true ∧ component.index = index := by
  have hindexes (i : Nat) :
      i ∈ (layout.components.filter Component.isAddition).map Component.index ↔
        ∃ a ∈ layout.components, a.isAddition = true ∧ a.index = i := by
    simp [and_assoc]
  rw [inExtensionRange, extensionRange?]
  constructor
  · intro hin
    cases hmin : ((layout.components.filter Component.isAddition).map Component.index).min? with
    | none => simp [hmin] at hin
    | some first =>
        cases hmax : ((layout.components.filter Component.isAddition).map Component.index).max? with
        | none => simp [hmin, hmax] at hin
        | some last =>
            simp only [hmin, hmax, Option.any_some, Bool.and_eq_true, decide_eq_true_eq] at hin
            obtain ⟨a, ha, haddition, rfl⟩ := (hindexes first).mp (List.min?_mem hmin)
            obtain ⟨c, hc, hcddition, rfl⟩ := (hindexes last).mp (List.max?_mem hmax)
            obtain ⟨component, hget⟩ : ∃ component, layout.components[index]? = some component :=
              ⟨_, List.getElem?_eq_getElem (hin.2.trans_lt (h.index_lt hc))⟩
            obtain ⟨hmem, rfl⟩ := h.getElem?_eq_some_iff.mp hget
            exact ⟨component, hmem,
              h.isAddition_between ha hmem hc hin.1 hin.2 haddition hcddition, rfl⟩
  · intro hexists
    have hindex := (hindexes index).mpr hexists
    cases hmin : ((layout.components.filter Component.isAddition).map Component.index).min? with
    | none => simp [List.min?_eq_none_iff.mp hmin] at hindex
    | some first =>
        cases hmax : ((layout.components.filter Component.isAddition).map Component.index).max? with
        | none => simp [List.max?_eq_none_iff.mp hmax] at hindex
        | some last =>
            simp only [Option.any_some, Bool.and_eq_true, decide_eq_true_eq]
            exact ⟨(List.min?_eq_some_iff.mp hmin).2 _ hindex,
              (List.max?_eq_some_iff.mp hmax).2 _ hindex⟩

theorem inExtensionRange_index_iff (h : layout.IsRegular) (hmem : component ∈ layout.components) :
    layout.inExtensionRange component.index = true ↔ component.isAddition = true := by
  rw [h.inExtensionRange_iff]
  constructor
  · rintro ⟨other, hother, haddition, hindex⟩
    exact h.index_injective hother hmem hindex ▸ haddition
  · intro haddition
    exact ⟨component, hmem, haddition, rfl⟩

end IsRegular

theorem mem_drop_take_iff (h : layout.IsRegular) {start stop : Nat} :
    component ∈ (layout.components.take stop).drop start ↔
      component ∈ layout.components ∧ start ≤ component.index ∧ component.index < stop := by
  rw [List.mem_iff_getElem?]
  constructor
  · rintro ⟨i, hget⟩
    rw [List.getElem?_drop, List.getElem?_take] at hget
    split at hget
    · next hlt =>
      obtain ⟨hmem, hindex⟩ := h.getElem?_eq_some_iff.mp hget
      exact ⟨hmem, by omega, by omega⟩
    · contradiction
  · rintro ⟨hmem, hstart, hstop⟩
    refine ⟨component.index - start, ?_⟩
    rw [List.getElem?_drop, Nat.add_sub_cancel' hstart, List.getElem?_take_of_lt hstop]
    exact h.getElem?_index hmem

theorem mem_drop_iff (h : layout.IsRegular) {start : Nat} :
    component ∈ layout.components.drop start ↔
      component ∈ layout.components ∧ start ≤ component.index := by
  have hiff : component ∈ (layout.components.take layout.components.length).drop start ↔ _ :=
    mem_drop_take_iff h
  rw [List.take_length] at hiff
  rw [hiff]
  constructor
  · rintro ⟨hmem, hstart, -⟩
    exact ⟨hmem, hstart⟩
  · rintro ⟨hmem, hstart⟩
    exact ⟨hmem, hstart, h.index_lt hmem⟩

/-- Nothing is missing between two indexes if each required component there has a version above the
given one. -/
theorem missingRequired?_eq_none_iff (h : layout.IsRegular) {after? before? : Option Nat}
    {version : Nat} (horder : ∀ after ∈ after?, after < before?.getD layout.components.length)
    (hbound : ∀ before ∈ before?, before ≤ layout.components.length) :
    layout.missingRequired? after? before? version = none ↔
      ∀ component ∈ layout.components, component.isRequired = true →
        (∀ after ∈ after?, after < component.index) →
        (∀ before ∈ before?, component.index < before) → version < component.version := by
  have hstart : (after?.map (· + 1)).getD 0 ≤ before?.getD layout.components.length := by
    cases after? with
    | none => exact Nat.zero_le _
    | some after => exact horder after rfl
  have hstop : before?.getD layout.components.length ≤ layout.components.length := by
    cases before? with
    | none => exact le_rfl
    | some before => exact hbound before rfl
  have hafter (i : Nat) : (after?.map (· + 1)).getD 0 ≤ i ↔ ∀ after ∈ after?, after < i := by
    cases after? with
    | none => simp
    | some after => simp only [Option.map_some, Option.getD_some, Option.mem_some_iff, forall_eq',
        Nat.succ_le_iff]
  have hbefore {component : Component τ} (hmem : component ∈ layout.components) :
      component.index < before?.getD layout.components.length ↔
        ∀ before ∈ before?, component.index < before := by
    cases before? with
    | none => simpa using h.index_lt hmem
    | some before => simp
  rw [missingRequired?, if_pos ⟨hstart, hstop⟩, List.find?_eq_none]
  constructor
  · intro hnone component hmem hrequired hlo hhi
    have hin := (mem_drop_take_iff h).mpr ⟨hmem, (hafter _).mpr hlo, (hbefore hmem).mpr hhi⟩
    simpa [hrequired] using hnone component hin
  · intro hall component hin
    obtain ⟨hmem, hlo, hhi⟩ := (mem_drop_take_iff h).mp hin
    have hversion := fun hrequired =>
      hall component hmem hrequired ((hafter _).mp hlo) ((hbefore hmem).mp hhi)
    simpa using hversion

theorem componentByTagFrom?_eq_none_iff (h : layout.IsRegular) {start : Nat} {tag : Tag} :
    layout.componentByTagFrom? start tag = none ↔
      ∀ component ∈ layout.components, start ≤ component.index → tag ∉ component.tags := by
  simp only [componentByTagFrom?, List.find?_eq_none, mem_drop_iff h, Component.hasTag,
    List.contains_iff_mem, and_imp]

theorem componentByTagFrom?_eq_some_iff (h : layout.IsRegular) {start : Nat} {tag : Tag} :
    layout.componentByTagFrom? start tag = some component ↔
      component ∈ layout.components ∧ start ≤ component.index ∧ tag ∈ component.tags ∧
        ∀ other ∈ layout.components, start ≤ other.index → other.index < component.index →
          tag ∉ other.tags := by
  rw [componentByTagFrom?, List.find?_eq_some_iff_getElem]
  simp only [Component.hasTag, List.contains_iff_mem, List.getElem_drop, List.length_drop]
  constructor
  · rintro ⟨htag, i, hi, hget, hbefore⟩
    have hindex := h.getElem?_eq_some_iff.mp (List.getElem?_eq_some_iff.mpr ⟨by omega, hget⟩)
    refine ⟨hindex.1, by omega, htag, ?_⟩
    intro other hother hstart hlt
    have hnot := hbefore (other.index - start) (by omega)
    have hother := List.getElem?_eq_some_iff.mp (h.getElem?_index hother)
    simp only [Nat.add_sub_cancel' hstart] at hnot
    rw [hother.2] at hnot
    simpa using hnot
  · rintro ⟨hmem, hstart, htag, hbefore⟩
    have hlt := h.index_lt hmem
    refine ⟨htag, component.index - start, by omega, ?_, ?_⟩
    · simp only [Nat.add_sub_cancel' hstart]
      exact (List.getElem?_eq_some_iff.mp (h.getElem?_index hmem)).2
    · intro j hj
      have hget := h.getElem?_eq_some_iff.mp
        (List.getElem?_eq_getElem (l := layout.components) (i := start + j) (by omega))
      simpa using hbefore _ hget.1 (by omega) (by omega)

end Layout

end Asn1

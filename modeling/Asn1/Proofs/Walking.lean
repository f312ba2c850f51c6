import Asn1.Proofs.CompiledTypes
import Asn1.Proofs.LayoutSections
import Asn1.Proofs.Results
import Asn1.Walk
import Mathlib.Order.MinMax

namespace Asn1

open Results

namespace Layout

variable {σ τ α : Type}

section Replacement

variable (f : σ → τ) (layout : Layout σ) (visit : Visit τ α)

theorem walkSequence_map (previous? : Option Nat) (version : Nat) (entries : Entries) :
    (layout.map f).walkSequence visit previous? version entries =
      layout.walkSequence (fun component? => visit (component?.map (Component.map f))) previous?
        version entries := by
  induction entries generalizing previous? version with
  | nil =>
      rw [walkSequence, walkSequence, missingRequired?_map]
      cases layout.missingRequired? previous? none version <;> rfl
  | cons entry rest ih =>
      rw [walkSequence, walkSequence, component?_map]
      cases layout.component? entry.1 with
      | none => simp only [Option.map_none, allowsUnknown_map, ih]
      | some component =>
          simp only [Option.map_some, missingRequired?_map, ih]
          cases hmissing : layout.missingRequired? previous? (some component.index)
            (max version component.version) with
          | none =>
              simp only [Component.map, hmissing, Option.map_none]
              rfl
          | some missing =>
              simp only [Component.map, hmissing, Option.map_some]
              rfl

theorem walkSet_map (seen : List Nat) (version : Nat) (entries : Entries) :
    (layout.map f).walkSet visit seen version entries =
      layout.walkSet (fun component? => visit (component?.map (Component.map f))) seen version
        entries := by
  induction entries generalizing seen version with
  | nil =>
      have hfind : (layout.map f).components.find? (fun component =>
            component.isRequired && component.version ≤ version &&
              !seen.contains component.index) =
          (layout.components.find? fun component => component.isRequired &&
            component.version ≤ version && !seen.contains component.index).map
              (Component.map f) :=
        find?_map_component f layout.components _ _ fun _ => rfl
      rw [walkSet, walkSet, hfind]
      cases layout.components.find? _ <;> rfl
  | cons entry rest ih =>
      rw [walkSet, walkSet, component?_map]
      cases layout.component? entry.1 with
      | none => simp only [Option.map_none, allowsUnknown_map, ih]
      | some component =>
          simp only [Option.map_some, ih]
          rfl

theorem walkChoice_map (entries : Entries) :
    (layout.map f).walkChoice visit entries =
      layout.walkChoice (fun component? => visit (component?.map (Component.map f))) entries := by
  rcases entries with _ | ⟨entry, _ | ⟨second, rest⟩⟩
  · rfl
  · rw [walkChoice, walkChoice, component?_map]
    cases layout.component? entry.1 with
    | none => simp only [Option.map_none, allowsUnknown_map]
    | some component => rfl
  · rfl

theorem walk_map (entries : Entries) :
    (layout.map f).walk visit entries =
      layout.walk (fun component? => visit (component?.map (Component.map f))) entries := by
  rw [walk, walk, isAllOptional_map, walkSequence_map, walkSet_map, walkChoice_map]
  rfl

end Replacement

section Congruence

variable {layout : Layout τ} {visit other : Visit τ α}

theorem walkSequence_congr {previous? : Option Nat} {version : Nat} {entries : Entries}
    (h : ∀ entry ∈ entries,
      visit (layout.component? entry.1) entry = other (layout.component? entry.1) entry) :
    layout.walkSequence visit previous? version entries =
      layout.walkSequence other previous? version entries := by
  induction entries generalizing previous? version with
  | nil => rw [walkSequence, walkSequence]
  | cons entry rest ih =>
      obtain ⟨hentry, hrest⟩ := List.forall_mem_cons.mp h
      rw [walkSequence, walkSequence]
      cases hfind : layout.component? entry.1 with
      | none =>
          rw [hfind] at hentry
          simp only [hentry, ih hrest]
      | some component =>
          rw [hfind] at hentry
          simp only [hentry, ih hrest]

theorem walkSet_congr {seen : List Nat} {version : Nat} {entries : Entries}
    (h : ∀ entry ∈ entries,
      visit (layout.component? entry.1) entry = other (layout.component? entry.1) entry) :
    layout.walkSet visit seen version entries = layout.walkSet other seen version entries := by
  induction entries generalizing seen version with
  | nil => rw [walkSet, walkSet]
  | cons entry rest ih =>
      obtain ⟨hentry, hrest⟩ := List.forall_mem_cons.mp h
      rw [walkSet, walkSet]
      cases hfind : layout.component? entry.1 with
      | none =>
          rw [hfind] at hentry
          simp only [hentry, ih hrest]
      | some component =>
          rw [hfind] at hentry
          simp only [hentry, ih hrest]

theorem walkChoice_congr {entries : Entries}
    (h : ∀ entry ∈ entries,
      visit (layout.component? entry.1) entry = other (layout.component? entry.1) entry) :
    layout.walkChoice visit entries = layout.walkChoice other entries := by
  rcases entries with _ | ⟨entry, _ | ⟨second, rest⟩⟩
  · rfl
  · have hentry := h entry List.mem_cons_self
    rw [walkChoice, walkChoice]
    cases hfind : layout.component? entry.1 with
    | none =>
        rw [hfind] at hentry
        simp only [hentry]
    | some component =>
        rw [hfind] at hentry
        simp only [hentry]
  · rfl

/-- A walk makes no use of visits but on the entries and the components that they name. -/
theorem walk_congr {entries : Entries} (h : ∀ entry ∈ entries,
      visit (layout.component? entry.1) entry = other (layout.component? entry.1) entry) :
    layout.walk visit entries = layout.walk other entries := by
  rw [walk, walk, walkSequence_congr h, walkSet_congr h, walkChoice_congr h]

end Congruence

variable (layout : Layout τ)

/-- The components that entries name, in the order of the entries. -/
def known (entries : Entries) : List (Component τ) :=
  entries.filterMap fun entry => layout.component? entry.1

/-- The greatest version of the components that entries name, where the root is always there. -/
def topVersion (entries : Entries) : Nat :=
  ((layout.known entries).map Component.version).foldr max 1

/-- Whether each unknown entry may follow the last known component before it, which is the one with
the index `previous?` if the entries before it name none. -/
def AllowsAfter (previous? : Option Nat) (entries : Entries) : Prop :=
  ∀ before entry after, entries = before ++ entry :: after → layout.component? entry.1 = none →
    layout.allowsUnknown
      (((layout.known before).getLast?.map Component.index).or previous?) = true

/-- Whether all required components are named whose versions do not lie above those present. If
nothing is present at all, no component may be required. -/
def IsComplete (entries : Entries) : Prop :=
  ∀ component ∈ layout.components, component.isRequired = true →
    entries = [] ∨ component.version ≤ layout.topVersion entries →
      component ∈ layout.known entries

/-- Whether a walk goes through as far as the layout is concerned. -/
def Admits (entries : Entries) : Prop :=
  layout.AllowsAfter none entries ∧
    match layout.kind with
    | .sequence => (layout.known entries).Pairwise (·.index < ·.index) ∧ layout.IsComplete entries
    | .set => (layout.known entries).Pairwise (·.index ≠ ·.index) ∧ layout.IsComplete entries
    | .choice => entries.length = 1
    | .sequenceOf | .setOf => False

variable {layout}
variable {visit : Visit τ α} {entry : String × Value} {entries rest : Entries}
  {component : Component τ} {previous? : Option Nat}

theorem known_cons_of_none (h : layout.component? entry.1 = none) :
    layout.known (entry :: rest) = layout.known rest := by
  simp [known, h]

theorem known_cons_of_some (h : layout.component? entry.1 = some component) :
    layout.known (entry :: rest) = component :: layout.known rest := by
  simp [known, h]

theorem lastIndex_cons :
    ((layout.known (entry :: rest)).getLast?.map Component.index).or previous? =
      ((layout.known rest).getLast?.map Component.index).or
        (((layout.component? entry.1).map Component.index).or previous?) := by
  cases hfind : layout.component? entry.1 with
  | none => rw [known_cons_of_none hfind, Option.map_none, Option.none_or]
  | some component =>
      rw [known_cons_of_some hfind, List.getLast?_cons]
      cases (layout.known rest).getLast? <;> rfl

theorem mem_known_iff :
    component ∈ layout.known entries ↔
      ∃ entry ∈ entries, layout.component? entry.1 = some component :=
  List.mem_filterMap

theorem mem_components_of_component? {name : String}
    (h : layout.component? name = some component) : component ∈ layout.components :=
  List.mem_of_find?_eq_some h

theorem mem_components_of_mem_known (h : component ∈ layout.known entries) :
    component ∈ layout.components := by
  obtain ⟨entry, -, hfind⟩ := mem_known_iff.mp h
  exact mem_components_of_component? hfind

theorem topVersion_cons_of_none (h : layout.component? entry.1 = none) :
    layout.topVersion (entry :: rest) = layout.topVersion rest := by
  rw [topVersion, known_cons_of_none h, topVersion]

theorem topVersion_cons_of_some (h : layout.component? entry.1 = some component) :
    layout.topVersion (entry :: rest) = max component.version (layout.topVersion rest) := by
  rw [topVersion, known_cons_of_some h]
  rfl

theorem le_topVersion_iff {version : Nat} :
    version ≤ layout.topVersion entries ↔
      version ≤ 1 ∨ ∃ component ∈ layout.known entries, version ≤ component.version := by
  have hfold (components : List (Component τ)) :
      version ≤ (components.map Component.version).foldr max 1 ↔
        version ≤ 1 ∨ ∃ component ∈ components, version ≤ component.version := by
    induction components with
    | nil => simp
    | cons component components ih =>
        rw [List.map_cons, List.foldr_cons, le_max_iff, ih]
        simp only [List.mem_cons, exists_eq_or_imp]
        exact or_left_comm
  exact hfold _

theorem one_le_topVersion : 1 ≤ layout.topVersion entries :=
  le_topVersion_iff.mpr (.inl le_rfl)

theorem allowsAfter_nil : layout.AllowsAfter previous? [] := by
  intro before entry after h
  simp at h

theorem allowsAfter_cons_of_none (h : layout.component? entry.1 = none) :
    layout.AllowsAfter previous? (entry :: rest) ↔
      layout.allowsUnknown previous? = true ∧ layout.AllowsAfter previous? rest := by
  constructor
  · intro hallows
    refine ⟨hallows [] entry rest rfl h, ?_⟩
    intro before other after heq hother
    have hother := hallows (entry :: before) other after (by rw [heq]; rfl) hother
    rwa [known_cons_of_none h] at hother
  · rintro ⟨hallowed, hrest⟩ before other after heq hother
    rcases before with _ | ⟨first, before⟩
    · exact hallowed
    · obtain ⟨rfl, rfl⟩ := List.cons_eq_cons.mp heq
      rw [known_cons_of_none h]
      exact hrest before other after rfl hother

theorem allowsAfter_cons_of_some (h : layout.component? entry.1 = some component) :
    layout.AllowsAfter previous? (entry :: rest) ↔
      layout.AllowsAfter (some component.index) rest := by
  have hlast (before : Entries) :
      (((layout.known (entry :: before)).getLast?.map Component.index).or previous?) =
        ((layout.known before).getLast?.map Component.index).or (some component.index) := by
    rw [lastIndex_cons, h]
    rfl
  constructor
  · intro hallows before other after heq hother
    rw [← hlast]
    exact hallows (entry :: before) other after (by rw [heq]; rfl) hother
  · intro hrest before other after heq hother
    rcases before with _ | ⟨first, before⟩
    · obtain ⟨rfl, -⟩ := List.cons_eq_cons.mp heq
      simp [h] at hother
    · obtain ⟨rfl, rfl⟩ := List.cons_eq_cons.mp heq
      rw [hlast]
      exact hrest before other after rfl hother

theorem allowsAfter_cons_iff :
    layout.AllowsAfter previous? (entry :: rest) ↔
      (layout.component? entry.1 = none → layout.allowsUnknown previous? = true) ∧
        layout.AllowsAfter (((layout.component? entry.1).map Component.index).or previous?)
          rest := by
  cases hfind : layout.component? entry.1 with
  | none =>
      rw [allowsAfter_cons_of_none hfind]
      exact and_congr_left fun _ => ⟨fun h _ => h, fun h => h rfl⟩
  | some component =>
      rw [allowsAfter_cons_of_some hfind]
      exact (and_iff_right (by simp)).symm

theorem allowsUnknown_sequence_iff (hregular : layout.IsRegular) (hkind : layout.kind = .sequence)
    {last? : Option (Component τ)} (hlast : ∀ last ∈ last?, last ∈ layout.components) :
    layout.allowsUnknown (last?.map Component.index) = true ↔
      ∃ last, last? = some last ∧ last.isAddition = true := by
  rw [allowsUnknown, hkind]
  cases last? with
  | none => simp [CollectionKind.allowsUnknown]
  | some last =>
      have hrange := hregular.inExtensionRange_index_iff (hlast last rfl)
      have hextensible := hregular.extensible last (hlast last rfl)
      simp only [CollectionKind.allowsUnknown, Option.map_some, Option.any_some,
        Bool.and_eq_true, hrange, Option.some.injEq, exists_eq_left']
      exact and_iff_right_of_imp hextensible

theorem allowsAfter_sequence_iff (hregular : layout.IsRegular) (hkind : layout.kind = .sequence) :
    layout.AllowsAfter none entries ↔
      ∀ before entry after, entries = before ++ entry :: after →
        layout.component? entry.1 = none →
          ∃ component, (layout.known before).getLast? = some component ∧
            component.isAddition = true := by
  refine forall₅_congr fun before _ _ _ _ => ?_
  rw [Option.or_none]
  exact allowsUnknown_sequence_iff hregular hkind fun _ hlast =>
    mem_components_of_mem_known (List.mem_of_getLast? hlast)

theorem allowsUnknown_of_ne_sequence (hkind : layout.kind ≠ .sequence) (previous? : Option Nat) :
    layout.allowsUnknown previous? = layout.allowsUnknown none := by
  rw [allowsUnknown, allowsUnknown]
  cases hk : layout.kind with
  | sequence => exact absurd hk hkind
  | _ => rfl

theorem allowsAfter_iff_of_ne_sequence (hkind : layout.kind ≠ .sequence) :
    layout.AllowsAfter none entries ↔
      ∀ entry ∈ entries, layout.component? entry.1 = none → layout.allowsUnknown none = true := by
  constructor
  · intro hallows entry hmem hnone
    obtain ⟨before, after, heq⟩ := List.append_of_mem hmem
    rw [← allowsUnknown_of_ne_sequence hkind]
    exact hallows before entry after heq hnone
  · rintro hall before entry after rfl hnone
    rw [allowsUnknown_of_ne_sequence hkind]
    exact hall entry (List.mem_append_right _ List.mem_cons_self) hnone

/-- Whether the visits of entries give the results. -/
def Visits (layout : Layout τ) (visit : Visit τ α) (entries : Entries) (results : List α) : Prop :=
  List.Forall₂ (fun entry a => visit (layout.component? entry.1) entry = .ok a) entries results

/-- Whether no required component after the index `previous?` is left out, except for those whose
version lies above all that are present and above the given one. -/
def IsCompleteAfter (layout : Layout τ) (previous? : Option Nat) (version : Nat)
    (entries : Entries) : Prop :=
  ∀ component ∈ layout.components, component.isRequired = true →
    (∀ previous ∈ previous?, previous < component.index) → component ∉ layout.known entries →
      version < component.version ∧ layout.topVersion entries < component.version

theorem isCompleteAfter_cons_of_none {version : Nat} (h : layout.component? entry.1 = none) :
    layout.IsCompleteAfter previous? version (entry :: rest) ↔
      layout.IsCompleteAfter previous? version rest := by
  simp only [IsCompleteAfter, known_cons_of_none h, topVersion_cons_of_none h]

/-- Required components are looked for between each two components that follow each other. Since
additions stand together in the order of their versions, this finds all that are missing. -/
theorem isCompleteAfter_cons_of_some (hregular : layout.IsRegular) {version : Nat}
    (h : layout.component? entry.1 = some component)
    (hrest : ∀ other ∈ layout.known rest, component.index < other.index) :
    layout.IsCompleteAfter previous? version (entry :: rest) ↔
      (∀ other ∈ layout.components, other.isRequired = true →
        (∀ previous ∈ previous?, previous < other.index) → other.index < component.index →
          max version component.version < other.version) ∧
      (∀ other ∈ layout.components, other.isRequired = true →
        (∀ previous ∈ previous?, previous < other.index) → component.index < other.index →
          other ∉ layout.known rest →
            max version component.version < other.version ∧
              layout.topVersion rest < other.version) := by
  have hmem := mem_components_of_component? h
  simp only [IsCompleteAfter, known_cons_of_some h, topVersion_cons_of_some h, List.mem_cons,
    not_or, max_lt_iff]
  constructor
  · intro hall
    constructor
    · intro other hother hrequired hprevious hlt
      have hnew : ¬other = component ∧ other ∉ layout.known rest := by
        refine ⟨fun heq => by simp [heq] at hlt, fun hin => ?_⟩
        exact absurd (hrest other hin) (by omega)
      have hversion := hall other hother hrequired hprevious hnew
      exact ⟨hversion.1, hversion.2.1⟩
    · intro other hother hrequired hprevious hlt hnot
      have hversion := hall other hother hrequired hprevious
        ⟨fun heq => by simp [heq] at hlt, hnot⟩
      exact ⟨⟨hversion.1, hversion.2.1⟩, hversion.2.2⟩
  · rintro ⟨hbefore, hafter⟩ other hother hrequired hprevious ⟨hne, hnot⟩
    rcases lt_trichotomy other.index component.index with hlt | heq | hgt
    · obtain ⟨hversion, habove⟩ := hbefore other hother hrequired hprevious hlt
      refine ⟨hversion, habove, ?_⟩
      by_contra hle
      -- some later component `late` has a version not below that of `other`
      obtain hone | ⟨late, hlate, hle⟩ := le_topVersion_iff.mp (Nat.le_of_not_lt hle)
      · have := hregular.one_le_version hmem
        omega
      have hlatemem := mem_components_of_mem_known hlate
      have hlatelt := hrest late hlate
      have haddition (a : Component τ) (ha : 1 < a.version) : a.isAddition = true := by
        simpa [Component.isAddition] using ha
      have hpos := hregular.one_le_version hmem
      have hother' := haddition other (by omega)
      have hcomponent := hregular.isAddition_between hother hmem hlatemem hlt.le hlatelt.le hother'
        (haddition late (by omega))
      have := hregular.version_le_of_index_le hother hmem hother' hcomponent hlt.le
      omega
    · exact absurd (hregular.index_injective hother hmem heq) hne
    · have hversion := hafter other hother hrequired hprevious hgt hnot
      exact ⟨hversion.1.1, hversion.1.2, hversion.2⟩

theorem isCompleteAfter_cons_iff (hregular : layout.IsRegular) {version : Nat}
    (h : layout.component? entry.1 = some component)
    (hafter : ∀ previous ∈ previous?, previous < component.index)
    (hrest : ∀ other ∈ layout.known rest, component.index < other.index) :
    layout.IsCompleteAfter previous? version (entry :: rest) ↔
      layout.missingRequired? previous? (some component.index) (max version component.version) =
          none ∧
        layout.IsCompleteAfter (some component.index) (max version component.version) rest := by
  have hindex := hregular.index_lt (mem_components_of_component? h)
  rw [isCompleteAfter_cons_of_some hregular h hrest,
    missingRequired?_eq_none_iff hregular (by simpa using hafter) (by simpa using hindex.le)]
  refine and_congr (by simp) ?_
  simp only [IsCompleteAfter, Option.mem_some_iff, forall_eq']
  constructor
  · intro hall other hother hrequired hlt
    exact hall other hother hrequired
      (fun previous hprevious => lt_trans (hafter previous hprevious) hlt) hlt
  · intro hall other hother hrequired _ hlt
    exact hall other hother hrequired hlt

theorem ok_cons_eq_ok_iff {result : Except ValueError α} {more : Except ValueError (List α)}
    {results : List α} :
    (do return (← result) :: (← more)) = .ok results ↔
      ∃ a as, result = .ok a ∧ more = .ok as ∧ results = a :: as := by
  rw [bind_eq_ok_iff]
  constructor
  · rintro ⟨a, ha, hmore⟩
    obtain ⟨as, has, heq⟩ := bind_eq_ok_iff.mp hmore
    exact ⟨a, as, ha, has, (pure_eq_ok_iff.mp heq).symm⟩
  · rintro ⟨a, as, ha, has, rfl⟩
    exact ⟨a, ha, bind_eq_ok_iff.mpr ⟨as, has, rfl⟩⟩

theorem walkSequence_nil_eq_ok_iff {version : Nat} {results : List α} :
    layout.walkSequence visit previous? version [] = .ok results ↔
      layout.missingRequired? previous? none version = none ∧ results = [] := by
  rw [walkSequence]
  cases layout.missingRequired? previous? none version with
  | none => rw [pure_eq_ok_iff, eq_comm (a := []), eq_self, true_and]
  | some component => simp

theorem walkSequence_cons_of_none {version : Nat} {results : List α}
    (h : layout.component? entry.1 = none) :
    layout.walkSequence visit previous? version (entry :: rest) = .ok results ↔
      layout.allowsUnknown previous? = true ∧
        ∃ a as, visit none entry = .ok a ∧
          layout.walkSequence visit previous? version rest = .ok as ∧ results = a :: as := by
  rw [walkSequence, h, ← ok_cons_eq_ok_iff]
  exact ite_else_throw_eq_ok_iff

theorem walkSequence_cons_of_some {version : Nat} {results : List α}
    (h : layout.component? entry.1 = some component) :
    layout.walkSequence visit previous? version (entry :: rest) = .ok results ↔
      (∀ previous ∈ previous?, previous < component.index) ∧
        layout.missingRequired? previous? (some component.index) (max version component.version) =
          none ∧
        ∃ a as, visit (some component) entry = .ok a ∧
          layout.walkSequence visit (some component.index) (max version component.version) rest =
            .ok as ∧ results = a :: as := by
  have hany : previous?.any (component.index ≤ ·) = true ↔
      ¬∀ previous ∈ previous?, previous < component.index := by
    cases previous? <;> simp
  rw [walkSequence, h, ← ok_cons_eq_ok_iff]
  refine ite_throw_eq_ok_iff.trans ?_
  rw [hany, not_not]
  cases hmissing : layout.missingRequired? previous? (some component.index)
    (max version component.version) with
  | none => simp only [hmissing, true_and]
  | some missing => simp [hmissing]

theorem visits_cons_iff {results : List α} :
    layout.Visits visit (entry :: rest) results ↔
      ∃ a as, visit (layout.component? entry.1) entry = .ok a ∧ layout.Visits visit rest as ∧
        results = a :: as :=
  List.forall₂_cons_left_iff

theorem isCompleteAfter_nil_iff (hregular : layout.IsRegular) {version : Nat}
    (hversion : 1 ≤ version)
    (hprevious : ∀ previous ∈ previous?, previous < layout.components.length) :
    layout.IsCompleteAfter previous? version [] ↔
      layout.missingRequired? previous? none version = none := by
  rw [missingRequired?_eq_none_iff hregular (by simpa using hprevious) (by simp)]
  constructor
  · intro hcomplete component hmem hrequired hafter _
    exact (hcomplete component hmem hrequired hafter (by simp [known])).1
  · intro hall component hmem hrequired hafter _
    have habove := hall component hmem hrequired hafter (by simp)
    exact ⟨habove, lt_of_le_of_lt hversion habove⟩

/-- What the walk over a SEQUENCE value asks for after the component with the index `previous?`. -/
theorem walkSequence_eq_ok_iff (hregular : layout.IsRegular) {version : Nat}
    (hversion : 1 ≤ version)
    (hprevious : ∀ previous ∈ previous?, previous < layout.components.length)
    {results : List α} :
    layout.walkSequence visit previous? version entries = .ok results ↔
      (∀ component ∈ layout.known entries, ∀ previous ∈ previous?, previous < component.index) ∧
        (layout.known entries).Pairwise (·.index < ·.index) ∧
        layout.AllowsAfter previous? entries ∧ layout.IsCompleteAfter previous? version entries ∧
        layout.Visits visit entries results := by
  induction entries generalizing previous? version results with
  | nil =>
      rw [walkSequence_nil_eq_ok_iff, ← isCompleteAfter_nil_iff hregular hversion hprevious, Visits,
        List.forall₂_nil_left_iff]
      simp [known, allowsAfter_nil]
  | cons entry rest ih =>
      cases hfind : layout.component? entry.1 with
      | none =>
          rw [walkSequence_cons_of_none hfind, allowsAfter_cons_of_none hfind,
            isCompleteAfter_cons_of_none hfind, known_cons_of_none hfind, visits_cons_iff, hfind]
          constructor
          · rintro ⟨hallowed, a, as, ha, has, rfl⟩
            obtain ⟨hafter, horder, hunknown, hcomplete, hvisits⟩ :=
              (ih hversion hprevious).mp has
            exact ⟨hafter, horder, ⟨hallowed, hunknown⟩, hcomplete, a, as, ha, hvisits, rfl⟩
          · rintro ⟨hafter, horder, ⟨hallowed, hunknown⟩, hcomplete, a, as, ha, hvisits, rfl⟩
            exact ⟨hallowed, a, as, ha,
              (ih hversion hprevious).mpr ⟨hafter, horder, hunknown, hcomplete, hvisits⟩, rfl⟩
      | some component =>
          have hindex := hregular.index_lt (mem_components_of_component? hfind)
          have hversion' : 1 ≤ max version component.version := le_trans hversion (le_max_left _ _)
          rw [walkSequence_cons_of_some hfind, allowsAfter_cons_of_some hfind,
            known_cons_of_some hfind, visits_cons_iff, hfind, List.forall_mem_cons,
            List.pairwise_cons]
          constructor
          · rintro ⟨hafter, hmissing, a, as, ha, has, rfl⟩
            obtain ⟨hlater, horder, hunknown, hcomplete, hvisits⟩ :=
              (ih hversion' (by simpa using hindex)).mp has
            have hlater : ∀ other ∈ layout.known rest, component.index < other.index := by
              simpa using hlater
            have hcomplete := (isCompleteAfter_cons_iff hregular hfind hafter hlater).mpr
              ⟨hmissing, hcomplete⟩
            refine ⟨⟨hafter, ?_⟩, ⟨hlater, horder⟩, hunknown, hcomplete, a, as, ha, hvisits, rfl⟩
            intro other hother previous hprevious
            exact lt_trans (hafter previous hprevious) (hlater other hother)
          · rintro ⟨⟨hafter, -⟩, ⟨hlater, horder⟩, hunknown, hcomplete, a, as, ha, hvisits, rfl⟩
            obtain ⟨hmissing, hcomplete⟩ :=
              (isCompleteAfter_cons_iff hregular hfind hafter hlater).mp hcomplete
            have has := (ih hversion' (by simpa using hindex)).mpr
              ⟨by simpa using hlater, horder, hunknown, hcomplete, hvisits⟩
            exact ⟨hafter, hmissing, a, as, ha, has, rfl⟩

theorem walkSet_nil_eq_ok_iff {seen : List Nat} {version : Nat} {results : List α} :
    layout.walkSet visit seen version [] = .ok results ↔
      (∀ component ∈ layout.components, component.isRequired = true →
        component.version ≤ version → component.index ∈ seen) ∧ results = [] := by
  rw [walkSet]
  cases hfind : layout.components.find? fun component =>
      component.isRequired && component.version ≤ version && !seen.contains component.index with
  | none =>
      rw [List.find?_eq_none] at hfind
      rw [pure_eq_ok_iff, eq_comm]
      refine (and_iff_right ?_).symm
      intro component hmem hrequired hversion
      simpa [hrequired, hversion] using hfind component hmem
  | some component =>
      have hmem := List.mem_of_find?_eq_some hfind
      have hmissing := List.find?_some hfind
      simp only [Bool.and_eq_true, decide_eq_true_eq, Bool.not_eq_true', List.contains_eq_mem,
        decide_eq_false_iff_not] at hmissing
      simp only [throw_ne_ok, false_iff, not_and]
      intro hall
      exact absurd (hall component hmem hmissing.1.1 hmissing.1.2) hmissing.2

theorem walkSet_cons_of_none {seen : List Nat} {version : Nat} {results : List α}
    (h : layout.component? entry.1 = none) :
    layout.walkSet visit seen version (entry :: rest) = .ok results ↔
      layout.allowsUnknown none = true ∧
        ∃ a as, visit none entry = .ok a ∧ layout.walkSet visit seen version rest = .ok as ∧
          results = a :: as := by
  rw [walkSet, h, ← ok_cons_eq_ok_iff]
  exact ite_else_throw_eq_ok_iff

theorem walkSet_cons_of_some {seen : List Nat} {version : Nat} {results : List α}
    (h : layout.component? entry.1 = some component) :
    layout.walkSet visit seen version (entry :: rest) = .ok results ↔
      component.index ∉ seen ∧
        ∃ a as, visit (some component) entry = .ok a ∧
          layout.walkSet visit (component.index :: seen) (max version component.version) rest =
            .ok as ∧ results = a :: as := by
  rw [walkSet, h, ← ok_cons_eq_ok_iff]
  refine ite_throw_eq_ok_iff.trans ?_
  rw [List.contains_iff_mem]

theorem forall_required_cons_iff (hregular : layout.IsRegular)
    (hmem : component ∈ layout.components) {seen : List Nat} {version : Nat} :
    (∀ other ∈ layout.components, other.isRequired = true →
      other.version ≤ max (max version component.version) (layout.topVersion rest) →
        other.index ∈ component.index :: seen ∨ other ∈ layout.known rest) ↔
    ∀ other ∈ layout.components, other.isRequired = true →
      other.version ≤ max version (max component.version (layout.topVersion rest)) →
        other.index ∈ seen ∨ other ∈ component :: layout.known rest := by
  simp only [max_assoc, List.mem_cons]
  refine forall₂_congr fun other hother => ?_
  have hindex : other.index = component.index ↔ other = component :=
    ⟨hregular.index_injective hother hmem, fun heq => heq ▸ rfl⟩
  rw [hindex, or_assoc, or_left_comm]

/-- What the walk over a SET value asks for after the components whose indexes are in `seen`. -/
theorem walkSet_eq_ok_iff (hregular : layout.IsRegular) {seen : List Nat} {version : Nat}
    (hversion : 1 ≤ version) {results : List α} :
    layout.walkSet visit seen version entries = .ok results ↔
      (∀ component ∈ layout.known entries, component.index ∉ seen) ∧
        (layout.known entries).Pairwise (·.index ≠ ·.index) ∧
        (∀ entry ∈ entries, layout.component? entry.1 = none →
          layout.allowsUnknown none = true) ∧
        (∀ component ∈ layout.components, component.isRequired = true →
          component.version ≤ max version (layout.topVersion entries) →
            component.index ∈ seen ∨ component ∈ layout.known entries) ∧
        layout.Visits visit entries results := by
  induction entries generalizing seen version results with
  | nil =>
      rw [walkSet_nil_eq_ok_iff, Visits, List.forall₂_nil_left_iff]
      simp only [known, List.filterMap_nil, List.not_mem_nil, false_imp_iff, implies_true, or_false,
        List.Pairwise.nil, true_and]
      have hmax : max version (layout.topVersion []) = version :=
        max_eq_left (by simpa [topVersion, known] using hversion)
      rw [hmax]
  | cons entry rest ih =>
      cases hfind : layout.component? entry.1 with
      | none =>
          rw [walkSet_cons_of_none hfind, known_cons_of_none hfind, topVersion_cons_of_none hfind,
            visits_cons_iff, hfind, List.forall_mem_cons, forall_prop_of_true hfind]
          constructor
          · rintro ⟨hallowed, a, as, ha, has, rfl⟩
            obtain ⟨hseen, horder, hunknown, hcomplete, hvisits⟩ := (ih hversion).mp has
            exact ⟨hseen, horder, ⟨hallowed, hunknown⟩, hcomplete, a, as, ha, hvisits, rfl⟩
          · rintro ⟨hseen, horder, ⟨hallowed, hunknown⟩, hcomplete, a, as, ha, hvisits, rfl⟩
            exact ⟨hallowed, a, as, ha,
              (ih hversion).mpr ⟨hseen, horder, hunknown, hcomplete, hvisits⟩, rfl⟩
      | some component =>
          have hmem := mem_components_of_component? hfind
          have hversion' : 1 ≤ max version component.version := le_trans hversion (le_max_left _ _)
          rw [walkSet_cons_of_some hfind, known_cons_of_some hfind, topVersion_cons_of_some hfind,
            visits_cons_iff, hfind, List.forall_mem_cons, List.pairwise_cons, List.forall_mem_cons,
            ← forall_required_cons_iff hregular hmem]
          constructor
          · rintro ⟨hnew, a, as, ha, has, rfl⟩
            obtain ⟨hseen, horder, hunknown, hcomplete, hvisits⟩ := (ih hversion').mp has
            refine ⟨⟨hnew, ?_⟩, ⟨?_, horder⟩, ⟨?_, hunknown⟩, hcomplete, a, as, ha, hvisits, rfl⟩
            · intro other hother hin
              exact hseen other hother (List.mem_cons_of_mem _ hin)
            · intro other hother heq
              exact hseen other hother (heq ▸ List.mem_cons_self)
            · simp [hfind]
          · rintro ⟨⟨hnew, hseen⟩, ⟨hne, horder⟩, ⟨-, hunknown⟩, hcomplete, a, as, ha, hvisits, rfl⟩
            refine ⟨hnew, a, as, ha,
              (ih hversion').mpr ⟨?_, horder, hunknown, hcomplete, hvisits⟩, rfl⟩
            intro other hother hin
            rcases List.mem_cons.mp hin with heq | hin
            · exact hne other hother heq.symm
            · exact hseen other hother hin

theorem visits_singleton_iff {results : List α} :
    layout.Visits visit [entry] results ↔
      ∃ a, visit (layout.component? entry.1) entry = .ok a ∧
        (pure [a] : Except ValueError (List α)) = .ok results := by
  rw [visits_cons_iff]
  constructor
  · rintro ⟨a, as, ha, hnil, rfl⟩
    obtain rfl := List.forall₂_nil_left_iff.mp hnil
    exact ⟨a, ha, rfl⟩
  · rintro ⟨a, ha, heq⟩
    exact ⟨a, [], ha, .nil, (pure_eq_ok_iff.mp heq).symm⟩

theorem isCompleteAfter_none_iff :
    layout.IsCompleteAfter none 1 entries ↔ ∀ component ∈ layout.components,
      component.isRequired = true → component.version ≤ layout.topVersion entries →
        component ∈ layout.known entries := by
  simp only [IsCompleteAfter, Option.not_mem_none, false_imp_iff, implies_true, forall_const]
  refine forall₃_congr fun component _ _ => ?_
  constructor
  · intro habove hle
    by_contra hnot
    exact absurd (habove hnot).2 (by omega)
  · intro hnamed hnot
    have habove : layout.topVersion entries < component.version := by
      by_contra hle
      exact hnot (hnamed (by omega))
    exact ⟨lt_of_le_of_lt one_le_topVersion habove, habove⟩

/-- For known entries in order, looking for missing components between each two entries finds the
same as looking for them at the end. -/
theorem walkSequence_eq_ok_iff_walkSet (hregular : layout.IsRegular)
    (hknown : ∀ entry ∈ entries, layout.component? entry.1 ≠ none)
    (horder : (layout.known entries).Pairwise (·.index < ·.index)) {results : List α} :
    layout.walkSequence visit none 1 entries = .ok results ↔
      layout.walkSet visit [] 1 entries = .ok results := by
  have hallows : layout.AllowsAfter none entries := by
    rintro before entry after rfl hnone
    exact absurd hnone (hknown entry (List.mem_append_right _ List.mem_cons_self))
  have hunknown : ∀ entry ∈ entries, layout.component? entry.1 = none →
      layout.allowsUnknown none = true :=
    fun entry hmem hnone => absurd hnone (hknown entry hmem)
  have hdistinct : (layout.known entries).Pairwise (·.index ≠ ·.index) :=
    horder.imp fun hlt => hlt.ne
  rw [walkSequence_eq_ok_iff hregular le_rfl (by simp), walkSet_eq_ok_iff hregular le_rfl,
    isCompleteAfter_none_iff, max_eq_right one_le_topVersion]
  simp only [Option.not_mem_none, false_imp_iff, implies_true, List.not_mem_nil, not_false_eq_true,
    false_or, horder, hdistinct, hallows, true_and]
  exact (and_iff_right hunknown).symm

theorem walkChoice_eq_ok_iff {results : List α} :
    layout.walkChoice visit entries = .ok results ↔
      layout.AllowsAfter none entries ∧ entries.length = 1 ∧
        layout.Visits visit entries results := by
  rcases entries with _ | ⟨entry, _ | ⟨second, rest⟩⟩
  · simp [walkChoice]
  · rw [walkChoice, visits_singleton_iff]
    cases hfind : layout.component? entry.1 with
    | none =>
        rw [allowsAfter_cons_of_none hfind]
        refine ite_else_throw_eq_ok_iff.trans ?_
        rw [bind_eq_ok_iff]
        simp [allowsAfter_nil]
    | some component =>
        rw [allowsAfter_cons_of_some hfind]
        refine bind_eq_ok_iff.trans ?_
        simp [allowsAfter_nil]
  · simp [walkChoice]

theorem isComplete_nil_iff : layout.IsComplete [] ↔ layout.isAllOptional = true := by
  simp [IsComplete, isAllOptional, known]

theorem isComplete_iff_of_ne_nil (hne : entries ≠ []) :
    layout.IsComplete entries ↔ ∀ component ∈ layout.components, component.isRequired = true →
      component.version ≤ layout.topVersion entries → component ∈ layout.known entries := by
  simp [IsComplete, hne]

theorem admits_sequence_iff (hkind : layout.kind = .sequence) :
    layout.Admits entries ↔ layout.AllowsAfter none entries ∧
      (layout.known entries).Pairwise (·.index < ·.index) ∧ layout.IsComplete entries := by
  rw [Admits, hkind]

theorem admits_set_iff (hkind : layout.kind = .set) :
    layout.Admits entries ↔ layout.AllowsAfter none entries ∧
      (layout.known entries).Pairwise (·.index ≠ ·.index) ∧ layout.IsComplete entries := by
  rw [Admits, hkind]

theorem admits_choice_iff (hkind : layout.kind = .choice) :
    layout.Admits entries ↔ layout.AllowsAfter none entries ∧ entries.length = 1 := by
  rw [Admits, hkind]

theorem isList_of_admits (h : layout.Admits entries) : layout.kind.isList = false := by
  have hkind := h.2
  cases hk : layout.kind <;> simp only [hk] at hkind <;> rfl

/-- A walk goes through if the layout admits the entries and each visit goes well. -/
theorem walk_eq_ok_iff (hregular : layout.IsRegular) (hlist : layout.kind.isList = false)
    {results : List α} :
    layout.walk visit entries = .ok results ↔
      layout.Admits entries ∧ layout.Visits visit entries results := by
  rw [walk]
  split
  · next hempty =>
    -- nothing is walked, so that only required components matter
    simp only [ne_eq, Bool.and_eq_true, List.isEmpty_iff, decide_eq_true_eq] at hempty
    obtain ⟨rfl, hchoice⟩ := hempty
    refine ite_else_throw_eq_ok_iff.trans ?_
    rw [← isComplete_nil_iff, pure_eq_ok_iff, Admits, Visits, List.forall₂_nil_left_iff]
    cases hkind : layout.kind with
    | choice => exact absurd hkind hchoice
    | sequence => simp [known, allowsAfter_nil, eq_comm]
    | set => simp [known, allowsAfter_nil, eq_comm]
    | sequenceOf => simp [hkind, CollectionKind.isList] at hlist
    | setOf => simp [hkind, CollectionKind.isList] at hlist
  · next hempty =>
    rw [Admits]
    cases hkind : layout.kind with
    | sequence =>
        have hne : entries ≠ [] := by simpa [hkind] using hempty
        rw [walkSequence_eq_ok_iff hregular le_rfl (by simp), isCompleteAfter_none_iff,
          isComplete_iff_of_ne_nil hne]
        simp only [Option.not_mem_none, false_imp_iff, implies_true, true_and]
        tauto
    | set =>
        have hne : entries ≠ [] := by simpa [hkind] using hempty
        rw [walkSet_eq_ok_iff hregular le_rfl, allowsAfter_iff_of_ne_sequence (by simp [hkind]),
          isComplete_iff_of_ne_nil hne, max_eq_right one_le_topVersion]
        simp only [List.not_mem_nil, not_false_eq_true, implies_true, true_and, false_or]
        tauto
    | choice =>
        rw [walkChoice_eq_ok_iff, and_assoc]
    | sequenceOf => simp [hkind, CollectionKind.isList] at hlist
    | setOf => simp [hkind, CollectionKind.isList] at hlist

end Layout

end Asn1

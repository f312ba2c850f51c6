import Asn1.Proofs.LayoutSections

/-!
Tag clashes by the places of the components that clash. The runs of a SEQUENCE overlap, and each of
them ends behind a required component or at the end of the list; together they compare a component
with all that an element may be taken for while it is left out, and with nothing else.
-/

namespace Asn1

section Places

variable {τ : Type}

/-- Whether the components at two places, the first of which comes before the second, share a tag.
-/
def SharesTag (components : List (Component τ)) (i j : Nat) (tag : Tag) : Prop :=
  i < j ∧ (∃ a, components[i]? = some a ∧ tag ∈ a.tags) ∧
    ∃ b, components[j]? = some b ∧ tag ∈ b.tags

/-- Whether no component from one place on is required, up to but not including the one at another
place. -/
def MayBeSkipped (components : List (Component τ)) (i j : Nat) : Prop :=
  ∀ k, i ≤ k → k < j → ∀ component, components[k]? = some component → component.isRequired = false

/-- The place behind the run from a place on: behind the first required component or, if there is
none, at the end. -/
def runEnd (components : List (Component τ)) (start : Nat) : Nat :=
  (((components.drop start).findIdx? Component.isRequired).map (start + · + 1)).getD
    components.length

/-- The first clash in the run from a place on, if the component there is not required. -/
def runClashFrom? (components : List (Component τ)) (start : Nat) : Option TagClash :=
  if components[start]?.any Component.isRequired then none
  else clash? ((components.take (runEnd components start)).drop start)

end Places

section Runs

variable {τ : Type} {components : List (Component τ)} {start i j : Nat}

theorem runEnd_zero_cons (component : Component τ) (rest : List (Component τ)) :
    runEnd (component :: rest) 0 = if component.isRequired then 1 else runEnd rest 0 + 1 := by
  simp only [runEnd, List.drop_zero, List.findIdx?_cons]
  split
  · rfl
  · cases rest.findIdx? Component.isRequired <;> simp

theorem throughRequired_eq_take (components : List (Component τ)) :
    throughRequired components = components.take (runEnd components 0) := by
  induction components with
  | nil => rfl
  | cons component rest ih =>
      rw [throughRequired, runEnd_zero_cons]
      split
      · rfl
      · rw [List.take_succ_cons, ih]

theorem runEnd_succ_cons (component : Component τ) (rest : List (Component τ)) (start : Nat) :
    runEnd (component :: rest) (start + 1) = runEnd rest start + 1 := by
  simp only [runEnd, List.drop_succ_cons, List.length_cons]
  cases (rest.drop start).findIdx? Component.isRequired with
  | none => rfl
  | some count =>
      simp only [Option.map_some, Option.getD_some]
      omega

/-- The first clash in any run is that in the first run with one, by the places that runs start at.
-/
theorem runClash?_eq_findSome? (components : List (Component τ)) :
    runClash? components = (List.range components.length).findSome? (runClashFrom? components) := by
  induction components with
  | nil => rfl
  | cons component rest ih =>
      have hfirst : runClashFrom? (component :: rest) 0 =
          if component.isRequired then none else clash? (throughRequired (component :: rest)) := by
        rw [throughRequired_eq_take]
        rfl
      have hrest : runClashFrom? (component :: rest) ∘ Nat.succ = runClashFrom? rest := by
        funext start
        rw [Function.comp_apply, runClashFrom?, runClashFrom?, runEnd_succ_cons]
        rfl
      rw [runClash?, ih, List.length_cons, List.range_succ_eq_map, List.findSome?_cons,
        List.findSome?_map, hfirst, hrest]
      cases (if component.isRequired then none else clash? (throughRequired (component :: rest)))
      · exact Option.none_or
      · exact Option.some_or

theorem mayBeSkipped_of_lt_runEnd (h : j < runEnd components start) :
    MayBeSkipped components start j := by
  intro k hle hlt component hget
  have hdrop : (components.drop start)[k - start]? = some component := by
    rw [List.getElem?_drop, Nat.add_sub_cancel' hle]
    exact hget
  rw [runEnd] at h
  cases hfind : (components.drop start).findIdx? Component.isRequired with
  | none => exact List.findIdx?_eq_none_iff.mp hfind component (List.mem_of_getElem? hdrop)
  | some count =>
      rw [hfind, Option.map_some, Option.getD_some] at h
      obtain ⟨_, -, hbefore⟩ := List.findIdx?_eq_some_iff_getElem.mp hfind
      obtain ⟨_, heq⟩ := List.getElem?_eq_some_iff.mp hdrop
      have hnot := hbefore (k - start) (by omega)
      rwa [heq, Bool.not_eq_true] at hnot

theorem lt_runEnd_of_mayBeSkipped (hj : j < components.length)
    (h : MayBeSkipped components start j) : j < runEnd components start := by
  rw [runEnd]
  cases hfind : (components.drop start).findIdx? Component.isRequired with
  | none => exact hj
  | some count =>
      obtain ⟨hcount, hrequired, -⟩ := List.findIdx?_eq_some_iff_getElem.mp hfind
      rw [Option.map_some, Option.getD_some]
      by_contra hle
      have hget : components[start + count]? = some (components.drop start)[count] := by
        rw [← List.getElem?_drop]
        exact List.getElem?_eq_getElem hcount
      have hskipped := h (start + count) (by omega) (by omega) _ hget
      rw [hskipped] at hrequired
      contradiction

theorem getElem?_run (h : i < runEnd components start - start) :
    ((components.take (runEnd components start)).drop start)[i]? = components[start + i]? := by
  rw [List.getElem?_drop, List.getElem?_take_of_lt (by omega)]

end Runs

section Clashes

variable {τ : Type} {components : List (Component τ)} {clash : TagClash}

theorem lookup_eq_none_iff_not_mem {seen : List (Tag × String)} {tag : Tag} :
    seen.lookup tag = none ↔ tag ∉ seen.map Prod.fst := by
  rw [List.lookup_eq_none_iff]
  constructor
  · intro hall hmem
    obtain ⟨entry, hentry, rfl⟩ := List.mem_map.mp hmem
    simpa using hall entry hentry
  · intro hnot entry hentry
    have hne : tag ≠ entry.1 := fun heq => hnot (heq ▸ List.mem_map_of_mem hentry)
    simpa using hne

theorem repeatedTag?_eq_none_iff {seen tags : List (Tag × String)} :
    repeatedTag? seen tags = none ↔ (tags.map Prod.fst).Nodup ∧
      ∀ entry ∈ tags, entry.1 ∉ seen.map Prod.fst := by
  induction tags generalizing seen with
  | nil => simp [repeatedTag?]
  | cons entry rest ih =>
      obtain ⟨tag, name⟩ := entry
      rw [repeatedTag?, List.map_cons, List.nodup_cons, List.forall_mem_cons]
      cases hlookup : seen.lookup tag with
      | some first =>
          have hmem : ¬tag ∉ seen.map Prod.fst := by
            rw [← lookup_eq_none_iff_not_mem, hlookup]
            simp
          refine iff_of_false (by simp) ?_
          rintro ⟨-, hnew, -⟩
          exact hmem hnew
      | none =>
          simp only [ih, lookup_eq_none_iff_not_mem.mp hlookup, List.map_append, List.map_cons,
            List.map_nil, List.mem_append, List.mem_singleton, not_or]
          constructor
          · rintro ⟨hnodup, hrest⟩
            refine ⟨⟨?_, hnodup⟩, not_false, fun other hother => (hrest other hother).1⟩
            intro hmem
            obtain ⟨other, hother, heq⟩ := List.mem_map.mp hmem
            exact (hrest other hother).2 heq
          · rintro ⟨⟨hnew, hnodup⟩, -, hrest⟩
            refine ⟨hnodup, fun other hother => ⟨hrest other hother, ?_⟩⟩
            intro heq
            exact hnew (heq ▸ List.mem_map_of_mem hother)

theorem clash?_eq_none_iff :
    clash? components = none ↔ (∀ component ∈ components, component.tags.Nodup) ∧
      components.Pairwise fun a b => a.tags.Disjoint b.tags := by
  have hnames : (namedTags components).map Prod.fst = components.flatMap Component.tags := by
    simp [namedTags, List.map_flatMap, Function.comp_def]
  rw [clash?, repeatedTag?_eq_none_iff, hnames, List.nodup_flatMap]
  exact and_iff_left (by simp)

theorem namedTags_cons (component : Component τ) (rest : List (Component τ)) :
    namedTags (component :: rest) = component.tags.map (·, component.name) ++ namedTags rest :=
  List.flatMap_cons

theorem namedTags_concat (before : List (Component τ)) (component : Component τ) :
    namedTags (before ++ [component]) =
      namedTags before ++ component.tags.map (·, component.name) := by
  rw [namedTags, List.flatMap_append, List.flatMap_singleton]
  rfl

theorem mem_namedTags_iff {tag : Tag} {name : String} :
    (tag, name) ∈ namedTags components ↔
      ∃ component ∈ components, tag ∈ component.tags ∧ component.name = name := by
  simp [namedTags]

theorem repeatedTag?_append (seen tags others : List (Tag × String)) :
    repeatedTag? seen (tags ++ others) =
      (repeatedTag? seen tags).or (repeatedTag? (seen ++ tags) others) := by
  induction tags generalizing seen with
  | nil => rw [List.append_nil, repeatedTag?, Option.none_or, List.nil_append]
  | cons entry rest ih =>
      rw [List.cons_append, repeatedTag?, repeatedTag?]
      cases seen.lookup entry.1 with
      | some first => rfl
      | none =>
          simp only [ih, List.append_assoc, List.singleton_append]

/-- Among the tags of one component, which are all different, only one seen before is repeated. -/
theorem mem_of_repeatedTag? {seen : List (Tag × String)} {tags : List Tag} {name : String}
    (hdistinct : tags.Nodup) (h : repeatedTag? seen (tags.map (·, name)) = some clash) :
    clash.second = name ∧ clash.tag ∈ tags ∧ (clash.tag, clash.first) ∈ seen := by
  induction tags generalizing seen with
  | nil => contradiction
  | cons tag rest ih =>
      obtain ⟨hnew, hdistinct⟩ := List.nodup_cons.mp hdistinct
      rw [List.map_cons, repeatedTag?] at h
      cases hlookup : seen.lookup tag with
      | some first =>
          rw [hlookup] at h
          obtain rfl := Option.some.inj h
          obtain ⟨before, after, rfl, -⟩ := List.lookup_eq_some_iff.mp hlookup
          exact ⟨rfl, List.mem_cons_self, by simp⟩
      | none =>
          rw [hlookup] at h
          obtain ⟨hsecond, htag, hseen⟩ := ih hdistinct h
          refine ⟨hsecond, List.mem_cons_of_mem _ htag, ?_⟩
          have hne : clash.tag ≠ tag := ne_of_mem_of_not_mem htag hnew
          simpa [hne] using hseen

/-- The second component of a clash is the one that repeats a tag, and the first one is before it.
-/
theorem exists_component_of_repeatedTag? {before : List (Component τ)}
    (hdistinct : ∀ component ∈ components, component.tags.Nodup)
    (h : repeatedTag? (namedTags before) (namedTags components) = some clash) :
    ∃ front component back, components = front ++ component :: back ∧
      component.name = clash.second ∧ clash.tag ∈ component.tags ∧
        (clash.tag, clash.first) ∈ namedTags (before ++ front) := by
  induction components generalizing before with
  | nil => contradiction
  | cons component rest ih =>
      obtain ⟨hfirst, hrest⟩ := List.forall_mem_cons.mp hdistinct
      rw [namedTags_cons, repeatedTag?_append, ← namedTags_concat, Option.or_eq_some_iff] at h
      rcases h with hown | ⟨-, hlater⟩
      · obtain ⟨hsecond, htag, hseen⟩ := mem_of_repeatedTag? hfirst hown
        exact ⟨[], component, rest, rfl, hsecond.symm, htag, by rwa [List.append_nil]⟩
      · obtain ⟨front, found, back, rfl, hname, htag, hseen⟩ := ih hrest hlater
        refine ⟨component :: front, found, back, rfl, hname, htag, ?_⟩
        rwa [List.append_assoc, List.singleton_append] at hseen

theorem sharesTag_of_clash? (hdistinct : ∀ component ∈ components, component.tags.Nodup)
    (h : clash? components = some clash) :
    ∃ i j, SharesTag components i j clash.tag ∧
      components[i]?.map Component.name = some clash.first ∧
        components[j]?.map Component.name = some clash.second := by
  have hrepeated :
      repeatedTag? (namedTags ([] : List (Component τ))) (namedTags components) = some clash := h
  obtain ⟨front, b, back, rfl, hname, htag, hseen⟩ :=
    exists_component_of_repeatedTag? hdistinct hrepeated
  rw [List.nil_append] at hseen
  obtain ⟨a, hmem, hatag, haname⟩ := mem_namedTags_iff.mp hseen
  obtain ⟨i, hi, rfl⟩ := List.mem_iff_getElem.mp hmem
  have hfirst : (front ++ b :: back)[i]? = some front[i] := by
    rw [List.getElem?_append_left hi]
    exact List.getElem?_eq_getElem hi
  have hsecond : (front ++ b :: back)[front.length]? = some b := by simp
  refine ⟨i, front.length, ⟨hi, ⟨_, hfirst, hatag⟩, _, hsecond, htag⟩, ?_, ?_⟩
  · rw [hfirst, Option.map_some, haname]
  · rw [hsecond, Option.map_some, hname]

theorem SharesTag.clash?_ne_none {i j : Nat} {tag : Tag} (h : SharesTag components i j tag) :
    clash? components ≠ none := by
  obtain ⟨hlt, ⟨a, ha, hatag⟩, b, hb, hbtag⟩ := h
  intro hnone
  obtain ⟨-, hdisjoint⟩ := clash?_eq_none_iff.mp hnone
  obtain ⟨hi, rfl⟩ := List.getElem?_eq_some_iff.mp ha
  obtain ⟨hj, rfl⟩ := List.getElem?_eq_some_iff.mp hb
  exact List.pairwise_iff_getElem.mp hdisjoint i j hi hj hlt hatag hbtag

end Clashes

section Ambiguity

variable {τ : Type} {components : List (Component τ)} {clash : TagClash}

theorem sharesTag_of_runClashFrom? (hdistinct : ∀ component ∈ components, component.tags.Nodup)
    {start : Nat} (h : runClashFrom? components start = some clash) :
    ∃ i j, SharesTag components i j clash.tag ∧
      components[i]?.map Component.name = some clash.first ∧
        components[j]?.map Component.name = some clash.second ∧ MayBeSkipped components i j := by
  rw [runClashFrom?, Option.ite_none_left_eq_some] at h
  obtain ⟨-, hclash⟩ := h
  obtain ⟨i, j, ⟨hlt, ⟨a, ha, hatag⟩, b, hb, hbtag⟩, hfirst, hsecond⟩ :=
    sharesTag_of_clash? (fun component hmem =>
      hdistinct component (List.mem_of_mem_take (List.mem_of_mem_drop hmem))) hclash
  have hj : j < runEnd components start - start := by
    have hlength := (List.getElem?_eq_some_iff.mp hb).1
    rw [List.length_drop, List.length_take] at hlength
    omega
  rw [getElem?_run (by omega)] at ha hb hfirst hsecond
  have hskip : MayBeSkipped components start (start + j) := mayBeSkipped_of_lt_runEnd (by omega)
  exact ⟨start + i, start + j, ⟨by omega, ⟨a, ha, hatag⟩, b, hb, hbtag⟩, hfirst, hsecond,
    fun k hle hlt => hskip k (by omega) hlt⟩

theorem sharesTag_of_runClash? (hdistinct : ∀ component ∈ components, component.tags.Nodup)
    (h : runClash? components = some clash) :
    ∃ i j, SharesTag components i j clash.tag ∧
      components[i]?.map Component.name = some clash.first ∧
        components[j]?.map Component.name = some clash.second ∧ MayBeSkipped components i j := by
  rw [runClash?_eq_findSome?] at h
  obtain ⟨start, -, hstart⟩ := List.exists_of_findSome?_eq_some h
  exact sharesTag_of_runClashFrom? hdistinct hstart

theorem SharesTag.runClash?_ne_none {i j : Nat} {tag : Tag} (h : SharesTag components i j tag)
    (hskip : MayBeSkipped components i j) : runClash? components ≠ none := by
  obtain ⟨hlt, ⟨a, ha, hatag⟩, b, hb, hbtag⟩ := h
  rw [runClash?_eq_findSome?]
  intro hnone
  have hi := (List.getElem?_eq_some_iff.mp ha).1
  have hj := (List.getElem?_eq_some_iff.mp hb).1
  have hrun := List.findSome?_eq_none_iff.mp hnone i (List.mem_range.mpr hi)
  have hend := lt_runEnd_of_mayBeSkipped hj hskip
  rw [runClashFrom?, ha, Option.any_some, hskip i le_rfl hlt a ha,
    if_neg Bool.false_ne_true] at hrun
  have hshares : SharesTag ((components.take (runEnd components i)).drop i) 0 (j - i) tag := by
    refine ⟨by omega, ⟨a, ?_, hatag⟩, b, ?_, hbtag⟩
    · rwa [getElem?_run (by omega)]
    · rwa [getElem?_run (by omega), Nat.add_sub_cancel' hlt.le]
  exact hshares.clash?_ne_none hrun

/-- Components are refused exactly if two of them share a tag. In a SEQUENCE that counts only if
neither the first of the two nor any between them is required. The clash that is reported is one
between such components. -/
theorem ambiguity_is_shared_tag
    (hdistinct : ∀ component ∈ components, component.tags.Nodup) :
    (ambiguity? .sequence components ≠ none ↔
      ∃ i j tag, SharesTag components i j tag ∧ MayBeSkipped components i j) ∧
    (∀ kind, kind = .set ∨ kind = .choice →
      (ambiguity? kind components ≠ none ↔ ∃ i j tag, SharesTag components i j tag)) ∧
    ∀ kind clash, ambiguity? kind components = some clash →
      ∃ i j, SharesTag components i j clash.tag ∧
        components[i]?.map Component.name = some clash.first ∧
          components[j]?.map Component.name = some clash.second ∧
            (kind = .sequence → MayBeSkipped components i j) := by
  have hanyOrder {kind : CollectionKind} (hkind : kind = .set ∨ kind = .choice) :
      ambiguity? kind components = clash? components := by
    rcases hkind with rfl | rfl <;> rfl
  refine ⟨⟨fun h => ?_, ?_⟩, fun kind hkind => ⟨fun h => ?_, ?_⟩, fun kind clash h => ?_⟩
  · obtain ⟨clash, hclash⟩ := Option.ne_none_iff_exists'.mp h
    obtain ⟨i, j, hshares, -, -, hskip⟩ := sharesTag_of_runClash? hdistinct hclash
    exact ⟨i, j, clash.tag, hshares, hskip⟩
  · rintro ⟨i, j, tag, hshares, hskip⟩
    exact hshares.runClash?_ne_none hskip
  · rw [hanyOrder hkind] at h
    obtain ⟨clash, hclash⟩ := Option.ne_none_iff_exists'.mp h
    obtain ⟨i, j, hshares, -⟩ := sharesTag_of_clash? hdistinct hclash
    exact ⟨i, j, clash.tag, hshares⟩
  · rintro ⟨i, j, tag, hshares⟩
    rw [hanyOrder hkind]
    exact hshares.clash?_ne_none
  · cases kind with
    | sequence =>
        obtain ⟨i, j, hshares, hfirst, hsecond, hskip⟩ := sharesTag_of_runClash? hdistinct h
        exact ⟨i, j, hshares, hfirst, hsecond, fun _ => hskip⟩
    | set | choice =>
        obtain ⟨i, j, hshares, hfirst, hsecond⟩ := sharesTag_of_clash? hdistinct h
        exact ⟨i, j, hshares, hfirst, hsecond, fun hkind => by contradiction⟩
    | sequenceOf | setOf => contradiction

/-- The first component clashes with the required one that closes its run. -/
theorem ambiguity_is_shared_tag_closingComponent :
    let component (name : String) (optional : Bool) (tags : List Tag) : Component Unit :=
      ⟨name, 0, 1, optional, none, .name name, (), false, tags⟩
    let components := [component "first" false [.boolean], component "a" true [.integer, .null],
      component "b" true [.boolean], component "c" false [.null]]
    (∀ component ∈ components, component.tags.Nodup) ∧
      ambiguity? .sequence components = some ⟨"a", "c", .null⟩ ∧
        (∃ i j, SharesTag components i j .null ∧
          components[i]?.map Component.name = some "a" ∧
            components[j]?.map Component.name = some "c" ∧ MayBeSkipped components i j) ∧
          ambiguity? .set components = some ⟨"first", "b", .boolean⟩ := by
  intro component components
  have hdistinct : ∀ component ∈ components, component.tags.Nodup := by decide
  have hclash : ambiguity? .sequence components = some ⟨"a", "c", .null⟩ := by decide
  obtain ⟨-, -, hnamed⟩ := ambiguity_is_shared_tag hdistinct
  obtain ⟨i, j, hshares, hfirst, hsecond, hskip⟩ := hnamed _ _ hclash
  exact ⟨hdistinct, hclash, ⟨i, j, hshares, hfirst, hsecond, hskip rfl⟩, by decide⟩

end Ambiguity

end Asn1

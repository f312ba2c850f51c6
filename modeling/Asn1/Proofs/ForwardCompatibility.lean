import Asn1.Proofs.ElementExtents
import Asn1.Proofs.ForeignElements
import Asn1.Proofs.LayoutVersions
import Asn1.Proofs.SequenceRule
import Asn1.Proofs.UniqueEncoding

/-!
Forward compatibility of SEQUENCE types with automatic tags. What a later version of a type decodes
is decoded by an earlier one in the same way, with captured elements in the place of the additions
that it does not know, if the later version names one of its additions. The one thing that can come
in between is an element that the later version has captured: the earlier version takes it for the
component with that tag, if that component may still follow.
-/

namespace Asn1

open Results

/-- The octets of an element, with its header in the shortest form. -/
def PlacedElement.octets (element : PlacedElement) : Octets :=
  element.header.octets ++ element.content

/-- The entry in which an element is captured. -/
def PlacedElement.entry (element : PlacedElement) : String × Value :=
  (element.header.tag.text, .captured ⟨element.header.identifier, element.octets⟩)

namespace Layout

section Known

variable {τ : Type} {layout : Layout τ} {before after : Entries} {entry : String × Value}

/-- The index of the last component that entries name. -/
def lastIndex? (layout : Layout τ) (entries : Entries) : Option Nat :=
  (layout.known entries).getLast?.map Component.index

theorem known_append (before after : Entries) :
    layout.known (before ++ after) = layout.known before ++ layout.known after :=
  List.filterMap_append

theorem lastIndex?_append_singleton :
    layout.lastIndex? (before ++ [entry]) =
      ((layout.component? entry.1).map Component.index).or (layout.lastIndex? before) := by
  rw [lastIndex?, known_append]
  cases hfind : layout.component? entry.1 with
  | none =>
      rw [known_cons_of_none hfind]
      simp [known, lastIndex?]
  | some component =>
      rw [known_cons_of_some hfind]
      simp [known]

theorem le_of_getLast? {components : List (Component τ)} {last : Component τ}
    (hordered : components.Pairwise (·.index < ·.index))
    (hlast : components.getLast? = some last) :
    ∀ component ∈ components, component.index ≤ last.index := by
  intro component hmem
  obtain ⟨front, rfl⟩ := List.getLast?_eq_some_iff.mp hlast
  rcases List.mem_append.mp hmem with hmem | hmem
  · exact ((List.pairwise_append.mp hordered).2.2 component hmem last
      (List.mem_singleton_self last)).le
  · rw [List.mem_singleton.mp hmem]

/-- An element matches nothing behind the component named last if those with its tag do not lie
behind all that are named. -/
theorem match?_eq_none_iff (hregular : layout.IsRegular) (hkind : layout.kind = .sequence)
    (hordered : (layout.known before).Pairwise (·.index < ·.index)) {tag : Tag} :
    layout.match? (layout.lastIndex? before) tag = none ↔
      ∀ component ∈ layout.components, tag ∈ component.tags →
        ∃ named ∈ layout.known before, component.index ≤ named.index := by
  rw [match?, if_pos hkind, componentByTagFrom?_eq_none_iff hregular, lastIndex?]
  refine forall₂_congr fun component _ => ?_
  cases hlast : (layout.known before).getLast? with
  | none => simp [List.getLast?_eq_none_iff.mp hlast, nextIndex]
  | some last =>
      have hmem := List.mem_of_getLast? hlast
      constructor
      · intro hbehind htag
        refine ⟨last, hmem, ?_⟩
        by_contra hlt
        exact hbehind (Nat.lt_of_not_le hlt) htag
      · intro hnamed hnext htag
        obtain ⟨named, hnamed, hle⟩ := hnamed htag
        exact absurd (hle.trans (le_of_getLast? hordered hlast named hnamed))
          (Nat.not_le_of_lt hnext)

end Known

/-- Whether no captured element among the entries has the tag of a component behind all components
named before it. -/
def LeavesCaptured {τ : Type} (layout : Layout τ) (entries : Entries) : Prop :=
  ∀ before entry after captured, entries = before ++ entry :: after → entry.2 = .captured captured →
    ∀ component ∈ layout.components, captured.identifier.tag ∈ component.tags →
      ∃ named ∈ layout.known before, component.index ≤ named.index

/-- The entry that an earlier version has for an element, given that of a later version. What only
the later version knows is captured. -/
def earlierEntry {σ τ : Type} (earlier : Layout σ) (later : Layout τ) (element : PlacedElement)
    (entry : String × Value) : String × Value :=
  if (later.component? entry.1).isSome && (earlier.component? entry.1).isNone then element.entry
  else entry

variable {earlier later : Layout CompiledType} {start count : Nat} {entries : Entries}

/-- What is needed of the entries of a later version. -/
structure IsNaming (earlier later : Layout CompiledType) (entries : Entries) : Prop where
  ordered : (later.known entries).Pairwise (·.index < ·.index)
  allows : ∀ before entry after, entries = before ++ entry :: after →
    later.component? entry.1 = none →
      ∃ component, (later.known before).getLast? = some component ∧ component.isAddition = true
  named : ∃ entry ∈ entries, ∃ component, earlier.component? entry.1 = some component ∧
    component.isAddition = true

section Versions

variable {before after : Entries} {entry : String × Value} {parts : List PlacedElement}
  {part : PlacedElement} (h : earlier.IsEarlier later start count)

include h

theorem ordered_earlier (hordered : (later.known entries).Pairwise (·.index < ·.index)) :
    (earlier.known entries).Pairwise (·.index < ·.index) := by
  rw [known, List.pairwise_filterMap] at hordered ⊢
  refine hordered.imp ?_
  intro entry entry' hlt a ha b hb
  obtain ⟨a', ha', -, hindex⟩ := h.exists_like ha
  obtain ⟨b', hb', -, hindex'⟩ := h.exists_like hb
  have := hlt a' ha' b' hb'
  split at hindex <;> split at hindex' <;> omega

theorem exists_like_of_mem_known {component : Component CompiledType}
    (hmem : component ∈ earlier.known entries) :
    ∃ other ∈ later.known entries, component.IsLike other ∧
      other.index =
        if component.index < start then component.index else component.index + count := by
  obtain ⟨entry, hentry, hfind⟩ := mem_known_iff.mp hmem
  obtain ⟨other, hother, hlike, hindex⟩ := h.exists_like hfind
  exact ⟨other, mem_known_iff.mpr ⟨entry, hentry, hother⟩, hlike, hindex⟩

/-- Up to something that is unknown to the earlier version, the later one knows an addition last. -/
theorem exists_last_known (hnaming : earlier.IsNaming later (before ++ entry :: after))
    (hnone : earlier.component? entry.1 = none) :
    ∃ last, (later.known (before ++ [entry])).getLast? = some last ∧ last.isAddition = true := by
  rw [known_append]
  cases hlater : later.component? entry.1 with
  | some new =>
      refine ⟨new, ?_, (h.isNew hlater hnone).1⟩
      rw [known_cons_of_some hlater]
      exact List.getLast?_concat
  | none =>
      obtain ⟨last, hlast, haddition⟩ := hnaming.allows before entry after rfl hlater
      refine ⟨last, ?_, haddition⟩
      rw [known_cons_of_none hlater]
      simpa [known] using hlast

/-- Before something that is unknown to the earlier version, one of its additions is named. What is
new in the later version stands behind all of them. -/
theorem exists_addition_before (hnaming : earlier.IsNaming later (before ++ entry :: after))
    (hnone : earlier.component? entry.1 = none) :
    ∃ component ∈ earlier.known before, component.isAddition = true := by
  obtain ⟨last, hlast, hlastAddition⟩ := exists_last_known h hnaming hnone
  have hmem := List.mem_of_getLast? hlast
  obtain ⟨source, hsource, hfound⟩ := mem_known_iff.mp hmem
  have hbefore {found : String × Value} {component : Component CompiledType}
      (hin : found ∈ before ++ [entry]) (hfind : earlier.component? found.1 = some component)
      (haddition : component.isAddition = true) :
      ∃ component ∈ earlier.known before, component.isAddition = true := by
    rcases List.mem_append.mp hin with hin | hin
    · exact ⟨component, mem_known_iff.mpr ⟨found, hin, hfind⟩, haddition⟩
    · rw [List.mem_singleton.mp hin, hnone] at hfind
      contradiction
  cases hsame : earlier.component? source.1 with
  | some component =>
      obtain ⟨twin, htwin, hlike, -⟩ := h.exists_like hsame
      obtain rfl := Option.some.inj (htwin.symm.trans hfound)
      exact hbefore hsource hsame (hlike.isAddition_eq.trans hlastAddition)
  | none =>
      obtain ⟨-, hfrom, -⟩ := h.isNew hfound hsame
      obtain ⟨named, hnamed, addition, hfind, haddition⟩ := hnaming.named
      obtain ⟨other, hother, -, hindex⟩ := h.exists_like hfind
      have hstart := h.additions addition (mem_components_of_component? hfind) haddition
      rw [if_pos hstart] at hindex
      have hordered := hnaming.ordered
      rw [List.append_cons, known_append, List.pairwise_append] at hordered
      rw [List.append_cons] at hnamed
      rcases List.mem_append.mp hnamed with hin | hin
      · exact hbefore hin hfind haddition
      · have hbehind := hordered.2.2 last hmem other (mem_known_iff.mpr ⟨named, hin, hother⟩)
        omega

theorem exists_last_addition (hnaming : earlier.IsNaming later (before ++ entry :: after))
    (hnone : earlier.component? entry.1 = none) :
    ∃ last, (earlier.known before).getLast? = some last ∧ last.isAddition = true := by
  obtain ⟨addition, hmem, haddition⟩ := exists_addition_before h hnaming hnone
  obtain ⟨bound, hbound, hboundAddition⟩ := exists_last_known h hnaming hnone
  obtain ⟨last, hlast⟩ := Option.isSome_iff_exists.mp
    (List.getLast?_isSome.mpr (List.ne_nil_of_mem hmem))
  obtain ⟨other, hother, hlike, hindex⟩ := exists_like_of_mem_known h hmem
  obtain ⟨twin, htwin, hlike', hindex'⟩ :=
    exists_like_of_mem_known h (List.mem_of_getLast? hlast)
  have hordered := hnaming.ordered
  rw [List.append_cons, known_append, List.pairwise_append] at hordered
  have hle := le_of_getLast? hordered.1 hbound twin
    (by rw [known_append]; exact List.mem_append_left _ htwin)
  have hordered' := ordered_earlier h hnaming.ordered
  rw [known_append, List.pairwise_append] at hordered'
  have hnext := le_of_getLast? hordered'.1 hlast addition hmem
  refine ⟨last, hlast, hlike'.isAddition_eq.trans ?_⟩
  refine h.regular_later.isAddition_between (mem_components_of_mem_known hother)
    (mem_components_of_mem_known htwin)
    (mem_components_of_mem_known (List.mem_of_getLast? hbound)) ?_ hle
    (hlike.isAddition_eq.symm.trans haddition) hboundAddition
  split at hindex <;> split at hindex' <;> omega

theorem allowsUnknown_earlier (hkind : earlier.kind = .sequence)
    (hnaming : earlier.IsNaming later (before ++ entry :: after))
    (hnone : earlier.component? entry.1 = none) :
    earlier.allowsUnknown (earlier.lastIndex? before) = true := by
  have hlast : ∀ last ∈ (earlier.known before).getLast?, last ∈ earlier.components :=
    fun _ hmem => mem_components_of_mem_known (List.mem_of_getLast? hmem)
  exact (allowsUnknown_sequence_iff h.regular hkind hlast).mpr
    (exists_last_addition h hnaming hnone)

theorem nextIndex_le (hnaming : earlier.IsNaming later (before ++ entry :: after))
    {component : Component CompiledType} (hfind : earlier.component? entry.1 = some component) :
    nextIndex (earlier.lastIndex? before) ≤ component.index := by
  have hordered := ordered_earlier h hnaming.ordered
  rw [known_append, known_cons_of_some hfind, List.pairwise_append] at hordered
  rw [nextIndex, lastIndex?]
  cases hlast : (earlier.known before).getLast? with
  | none => exact Nat.zero_le _
  | some last =>
      exact hordered.2.2 last (List.mem_of_getLast? hlast) component List.mem_cons_self

theorem match?_of_isLike (hkind : earlier.kind = .sequence)
    {component other : Component CompiledType}
    (hmem : component ∈ earlier.components) (hother : other ∈ later.components)
    (hlike : component.IsLike other) {tag : Tag} (htag : tag ∈ other.tags) {previous? : Option Nat}
    (hnext : nextIndex previous? ≤ component.index) :
    earlier.match? previous? tag = some component := by
  rw [match?, if_pos hkind, componentByTagFrom?_eq_some_iff h.regular]
  refine ⟨hmem, hnext, hlike.tags ▸ htag, ?_⟩
  intro found hfound _ hlt hfoundTag
  have hname := h.name_eq_of_mem_tags hfound hother hfoundTag htag
  have hfind := h.regular.component?_eq_some_iff.mpr ⟨hfound, hname⟩
  rw [h.regular.component?_eq_some_iff.mpr ⟨hmem, hlike.name⟩] at hfind
  rw [Option.some.inj hfind] at hlt
  exact lt_irrefl _ hlt

theorem match?_of_isNew (hkind : earlier.kind = .sequence) {other : Component CompiledType}
    (hother : other ∈ later.components) (hnone : earlier.component? other.name = none) {tag : Tag}
    (htag : tag ∈ other.tags) (previous? : Option Nat) : earlier.match? previous? tag = none := by
  rw [match?, if_pos hkind, componentByTagFrom?_eq_none_iff h.regular]
  intro component hmem _ hcomponentTag
  have hname := h.name_eq_of_mem_tags hmem hother hcomponentTag htag
  rw [h.regular.component?_eq_some_iff.mpr ⟨hmem, hname⟩] at hnone
  contradiction

theorem topVersion_le : earlier.topVersion entries ≤ later.topVersion entries := by
  apply le_topVersion_iff.mpr
  rcases le_topVersion_iff.mp (Nat.le_refl (earlier.topVersion entries)) with
    hroot | ⟨component, hmem, hle⟩
  · exact .inl hroot
  · obtain ⟨other, hother, hlike, -⟩ := exists_like_of_mem_known h hmem
    exact .inr ⟨other, hother, hlike.version ▸ hle⟩

section Named

variable (hnames : ∀ component ∈ earlier.components, ∀ number,
  component.name ≠ (Tag.context number).text)

include hnames

theorem component?_earlierEntry
    (hkept : later.KeepsElement part entry) :
    earlier.component? (earlier.earlierEntry later part entry).1 = earlier.component? entry.1 := by
  rw [earlierEntry]
  split
  · next hnew =>
    rw [Bool.and_eq_true, Option.isSome_iff_exists, Option.isNone_iff_eq_none] at hnew
    obtain ⟨⟨other, hother⟩, hnone⟩ := hnew
    rw [KeepsElement, hother] at hkept
    obtain ⟨number, htags⟩ := h.context other (mem_components_of_component? hother)
    have htag : part.header.tag = .context number := List.mem_singleton.mp (htags ▸ hkept)
    rw [hnone]
    cases hfind : earlier.component? part.entry.1 with
    | none => rfl
    | some component =>
        obtain ⟨hmem, hname⟩ := h.regular.component?_eq_some_iff.mp hfind
        exact absurd (hname.trans (congrArg Tag.text htag)) (hnames component hmem number)
  · rfl

theorem known_earlierEntries
    (hkept : List.Forall₂ later.KeepsElement parts entries) :
    earlier.known (List.zipWith (earlier.earlierEntry later) parts entries) =
      earlier.known entries := by
  induction hkept with
  | nil => rfl
  | @cons part entry _ _ hentry _ ih =>
      have hsame := component?_earlierEntry h hnames hentry
      rw [List.zipWith_cons_cons]
      cases hfind : earlier.component? entry.1 with
      | none => rw [known_cons_of_none hfind, known_cons_of_none (hsame.trans hfind), ih]
      | some component =>
          rw [known_cons_of_some hfind, known_cons_of_some (hsame.trans hfind), ih]

theorem admits_earlier (hkind : earlier.kind = .sequence)
    (hnaming : earlier.IsNaming later entries) (hcomplete : later.IsComplete entries)
    (hkept : List.Forall₂ later.KeepsElement parts entries) :
    earlier.Admits (List.zipWith (earlier.earlierEntry later) parts entries) := by
  have hknown := known_earlierEntries h hnames hkept
  rw [admits_sequence_iff hkind, allowsAfter_sequence_iff h.regular hkind, hknown]
  refine ⟨?_, ordered_earlier h hnaming.ordered, ?_⟩
  · intro before entry after hsplit hnone
    obtain ⟨parts', before', part, source, after', rfl, rfl, rfl, hentry, hfront⟩ :=
      forall₂_exists_of_zipWith_eq hkept hsplit
    rw [component?_earlierEntry h hnames hentry] at hnone
    rw [known_earlierEntries h hnames hfront]
    exact exists_last_addition h hnaming hnone
  · obtain ⟨named, hnamed, -⟩ := hnaming.named
    have hne : List.zipWith (earlier.earlierEntry later) parts entries ≠ [] := by
      intro hnil
      have hlength := congrArg List.length hnil
      rw [List.length_zipWith, hkept.length_eq, Nat.min_self, List.length_nil] at hlength
      rw [List.eq_nil_of_length_eq_zero hlength] at hnamed
      contradiction
    rw [isComplete_iff_of_ne_nil hne]
    rw [isComplete_iff_of_ne_nil (List.ne_nil_of_mem hnamed)] at hcomplete
    intro component hmem hrequired hversion
    obtain ⟨other, hother, hlike, -⟩ := h.like component hmem
    rw [topVersion, hknown] at hversion
    have hpresent := hcomplete other hother (hlike.isRequired_eq.symm.trans hrequired)
      (hlike.version ▸ hversion.trans (topVersion_le h))
    obtain ⟨entry, hentry, hfind⟩ := mem_known_iff.mp hpresent
    have hname := (h.regular_later.component?_eq_some_iff.mp hfind).2
    rw [hknown]
    exact mem_known_iff.mpr ⟨entry, hentry,
      h.regular.component?_eq_some_iff.mpr ⟨hmem, hlike.name.trans hname⟩⟩

/-- If the earlier version leaves captured what was captured, it does not know the elements. -/
theorem leavesCaptured_of_isArranged (hkind : earlier.kind = .sequence)
    (hordered : (later.known entries).Pairwise (·.index < ·.index))
    (hunknown : ∀ entry ∈ entries, ∀ captured, entry.2 = .captured captured →
      later.component? entry.1 = none)
    (hkept : List.Forall₂ later.KeepsElement parts entries)
    (harranged : earlier.IsArranged (List.zipWith (earlier.earlierEntry later) parts entries)) :
    earlier.LeavesCaptured entries := by
  rintro before ⟨name, value⟩ after captured rfl hcaptured
  obtain rfl : value = .captured captured := hcaptured
  have hnone := hunknown (name, .captured captured) (by simp) captured rfl
  obtain ⟨front, part, back, rfl, hfront, -⟩ := forall₂_exists_split hkept
  have hsame : earlier.earlierEntry later part (name, .captured captured) =
      (name, .captured captured) := by
    rw [earlierEntry, hnone, Option.isSome_none, Bool.false_and, if_neg Bool.false_ne_true]
  have hforeign := harranged.foreign (List.zipWith (earlier.earlierEntry later) front before) name
    captured (List.zipWith (earlier.earlierEntry later) back after) (by
      rw [List.zipWith_append hfront.length_eq, List.zipWith_cons_cons, hsame])
  have hknown := ordered_earlier h hordered
  rw [known_append, List.pairwise_append] at hknown
  have hlast : ∀ last ∈ (earlier.known before).getLast?, last ∈ earlier.components :=
    fun _ hmem => mem_components_of_mem_known (List.mem_of_getLast? hmem)
  have hlist : earlier.kind.isList = false := by
    rw [hkind]
    rfl
  rw [known_earlierEntries h hnames hfront, isForeign_iff h.regular hlist hlast] at hforeign
  exact (match?_eq_none_iff h.regular hkind hknown.1).mp hforeign.1

end Named

end Versions

end Layout

namespace CompiledType

theorem read_eq_of_form_eq {type other : CompiledType} (h : type.form = other.form)
    (rules : EncodingRules) : type.read rules = other.read rules := by
  obtain ⟨info, form⟩ := type
  obtain ⟨info', form'⟩ := other
  obtain rfl : form = form' := h
  funext element
  rw [read, read, interpret_mk, interpret_mk]
  rfl

section Reading

variable {earlier later : Layout CompiledType} {start count depth : Nat}
  {before after : Entries} {entry : String × Value} {part : PlacedElement} {next? : Option Nat}
  {values : NamedValues} {scope : Scope}

theorem next?_of_reads (hregular : later.IsRegular)
    (htypes : ∀ component ∈ later.components, component.type.IsRegular)
    (haccept : ∀ component, later.component? entry.1 = some component →
      component.type.accept values scope entry.2 = .ok ()) {previous? : Option Nat}
    (hreads : (Decoder.readComponent .der (later.map fun type => type.read .der) depth previous?
      part.header).Reads part.position part.content (entry, next?)) :
    next? = ((later.component? entry.1).map Component.index).or previous? := by
  cases hmatch : later.match? previous? part.header.tag with
  | some component =>
      obtain ⟨hname, rfl, -⟩ := (reads_component_iff hmatch).mp hreads
      rw [hregular.component?_eq_some_iff.mpr
        ⟨Layout.mem_components_of_match? hmatch, hname.symm⟩]
      rfl
  | none =>
      obtain ⟨-, rfl, hunknown⟩ := (reads_unknown_iff hmatch).mp hreads
      obtain ⟨copied, -, rfl⟩ := Decoder.reads_readUnknown_iff.mp hunknown
      rw [Layout.component?_eq_none_of_accept_captured htypes haccept]
      rfl

/-- An element that the later version has read is read by the earlier one as well, captured if it
does not know the component. -/
theorem reads_earlier (h : earlier.IsEarlier later start count) (hkind : earlier.kind = .sequence)
    (hnaming : earlier.IsNaming later (before ++ entry :: after))
    (htypes : ∀ component ∈ later.components, component.type.IsRegular)
    (haccept : ∀ component, later.component? entry.1 = some component →
      component.type.accept values scope entry.2 = .ok ())
    (hreads : (Decoder.readComponent .der (later.map fun type => type.read .der) depth
      (later.lastIndex? before) part.header).Reads part.position part.content (entry, next?))
    {size : Nat} (hsize : part.header.length = .definite size)
    (hleaves : ∀ captured, entry.2 = .captured captured →
      earlier.match? (earlier.lastIndex? before) captured.identifier.tag = none) :
    (Decoder.readComponent .der (earlier.map fun type => type.read .der) depth
      (earlier.lastIndex? before) part.header).Reads part.position part.content
        (earlier.earlierEntry later part entry, earlier.lastIndex? (before ++ [entry])) := by
  cases hmatch : later.match? (later.lastIndex? before) part.header.tag with
  | some other =>
      obtain ⟨hname, -, hvalue, hdefault⟩ := (reads_component_iff hmatch).mp hreads
      have hmem := Layout.mem_components_of_match? hmatch
      have htag := Layout.mem_tags_of_match? hmatch
      have hother := h.regular_later.component?_eq_some_iff.mpr ⟨hmem, hname.symm⟩
      cases hfind : earlier.component? entry.1 with
      | some component =>
          obtain ⟨twin, htwin, hlike, -⟩ := h.exists_like hfind
          obtain rfl := Option.some.inj (htwin.symm.trans hother)
          have hfound := Layout.match?_of_isLike h hkind
            (Layout.mem_components_of_component? hfind) hmem hlike htag
            (Layout.nextIndex_le h hnaming hfind)
          rw [Layout.lastIndex?_append_singleton, Layout.earlierEntry, hfind, Option.isNone_some,
            Bool.and_false, if_neg Bool.false_ne_true, reads_component_iff hfound]
          refine ⟨hname.trans hlike.name.symm, rfl, ?_, hlike.default? ▸ hdefault⟩
          rw [read_eq_of_form_eq hlike.form]
          exact hvalue
      | none =>
          have hfound := Layout.match?_of_isNew h hkind hmem (hname ▸ hfind) htag
            (earlier.lastIndex? before)
          rw [Layout.lastIndex?_append_singleton, Layout.earlierEntry, hfind, hother,
            Option.isSome_some, Option.isNone_none, Bool.and_true, if_pos rfl,
            reads_unknown_iff hfound]
          refine ⟨Layout.allowsUnknown_earlier h hkind hnaming hfind, rfl,
            Decoder.reads_readUnknown_iff.mpr ⟨_, ?_, rfl⟩⟩
          exact (Captured.reads_copyElement_iff_of_definite hsize).mpr
            ⟨(isContent_of_reads hvalue).1 size hsize, rfl⟩
  | none =>
      obtain ⟨-, -, hunknown⟩ := (reads_unknown_iff hmatch).mp hreads
      obtain ⟨copied, hcopied, rfl⟩ := Decoder.reads_readUnknown_iff.mp hunknown
      have hnone := Layout.component?_eq_none_of_accept_captured htypes haccept
      have hnone' := h.component?_eq_none hnone
      rw [Layout.lastIndex?_append_singleton, Layout.earlierEntry, hnone, hnone',
        Option.isSome_none, Bool.false_and, if_neg Bool.false_ne_true,
        reads_unknown_iff (hleaves _ rfl)]
      exact ⟨Layout.allowsUnknown_earlier h hkind hnaming hnone', rfl, hunknown⟩

/-- Elements that the later version has read one by one, after those of the entries before, are read
by the earlier one as well, unless it takes a captured one for a component of its own. -/
theorem exists_parts (h : earlier.IsEarlier later start count) (hkind : earlier.kind = .sequence)
    {entries : Entries} (hnaming : earlier.IsNaming later entries)
    (htypes : ∀ component ∈ later.components, component.type.IsRegular)
    (haccept : ∀ entry ∈ entries, ∀ component, later.component? entry.1 = some component →
      component.type.accept values scope entry.2 = .ok ())
    {position : Nat} {previous? : Option Nat} {octets : Octets}
    (hreads : ReadsElements .der true (Decoder.readComponent .der
      (later.map fun type => type.read .der) depth) position previous? octets after)
    (hprevious : previous? = later.lastIndex? before) (hsplit : entries = before ++ after) :
    ∃ parts, Elements .der true position octets parts ∧
      octets = (parts.map PlacedElement.octets).flatten ∧
      List.Forall₂ later.KeepsElement parts after ∧
      (earlier.LeavesCaptured entries → ReadsElements .der true (Decoder.readComponent .der
        (earlier.map fun type => type.read .der) depth) position (earlier.lastIndex? before) octets
          (List.zipWith (earlier.earlierEntry later) parts after)) := by
  induction hreads generalizing before with
  | nil hend =>
      refine ⟨[], .nil hend, ?_, .nil, fun _ => .nil hend⟩
      simpa [IsEnd] using hend
  | @cons position previous? next? form content octets header entry after hform hheader helement _
      ih =>
      obtain ⟨size, hsize⟩ := hform.exists_size
      let part : PlacedElement := ⟨header, position + form.length, content⟩
      subst hprevious
      have hentry := haccept entry (by rw [hsplit]; simp)
      have hread : (Decoder.readComponent .der (later.map fun type => type.read .der) depth
          (later.lastIndex? before) part.header).Reads part.position part.content
            (entry, next?) := helement
      have hnext := (next?_of_reads h.regular_later htypes hentry hread).trans
        Layout.lastIndex?_append_singleton.symm
      have hrest : entries = (before ++ [entry]) ++ after := by rw [hsplit, List.append_assoc]; rfl
      obtain ⟨parts, hparts, hoctets, hkept, hearlier⟩ := ih hnext hrest
      refine ⟨part :: parts, ?_, ?_, ?_, ?_⟩
      · refine .cons hform hheader ?_ hparts
        exact isContent_of_readComponent (fun _ _ _ _ _ _ => isContent_of_reads) helement
      · rw [List.map_cons, List.flatten_cons, ← hoctets, PlacedElement.octets,
          ← Header.eq_octets_of_isForm rfl hform, List.append_assoc]
      · refine .cons ?_ hkept
        exact (readsPart_of_readComponent h.regular_later hread).keepsElement htypes hentry
      · intro hleaves
        have hordered := Layout.ordered_earlier h hnaming.ordered
        rw [hsplit, Layout.known_append, List.pairwise_append] at hordered
        refine .cons hform hheader ?_ (hearlier hleaves)
        refine reads_earlier h hkind (hsplit ▸ hnaming) htypes hentry hread hsize
          fun captured hcaptured => ?_
        exact (Layout.match?_eq_none_iff h.regular hkind hordered.1).mpr
          (hleaves before entry after captured hsplit hcaptured)

end Reading

section Accepting

variable {earlier later : Layout CompiledType} {start count : Nat} {info info' : TypeInfo}
  {entries : Entries} {parts : List PlacedElement} {values : NamedValues}

theorem accept_iff_of_form_eq {type other : CompiledType} (hregular : type.IsRegular)
    (hranges : type.HasRangesOnly) (hform : type.form = other.form)
    (hconstraints : type.info.constraints = other.info.constraints) {scope scope' : Scope}
    {value : Value} :
    type.accept values scope value = .ok () ↔ other.accept values scope' value = .ok () := by
  obtain ⟨info, form⟩ := type
  obtain ⟨info', form'⟩ := other
  obtain rfl : form = form' := hform
  obtain ⟨hlayout, htypes⟩ := hregular.of_mk
  obtain ⟨hchecks, hinner⟩ := hranges.of_mk
  have hiff (scope scope' : Scope) (resolved : Value) :
      form.Accepts values scope resolved ↔
        ∃ canonical, form.Canonicalizes values scope' resolved canonical :=
    accepts_iff_exists_canonicalizes (fun inner hmem _ _ _ => accept_eq_ok_iff_exists_canonical
      (htypes inner hmem) (hinner inner hmem)) scope scope' resolved
  rw [accept_mk_iff hlayout, accept_mk_iff hlayout]
  refine exists_congr fun resolved => and_congr_right fun _ => and_congr ?_ ?_
  · rw [hiff _ .top, hiff _ .top]
  · rw [← show info.constraints = info'.constraints from hconstraints]
    exact forall₂_congr fun constraint hmem =>
      Constraint.check_eq_ok_iff_of_isAlike (hchecks constraint hmem) (.refl resolved) _ _

theorem accept_earlierEntries (h : earlier.IsEarlier later start count)
    (hregular : IsRegular ⟨info, .collection earlier⟩)
    (hkind : earlier.kind = .sequence) (hranges : HasRangesOnly ⟨info, .collection earlier⟩)
    (hconstraints : info'.constraints = info.constraints)
    (hnames : ∀ component ∈ earlier.components, ∀ number,
      component.name ≠ (Tag.context number).text)
    (hnaming : earlier.IsNaming later entries)
    (hkept : List.Forall₂ later.KeepsElement parts entries) {scope : Scope}
    (haccept : accept ⟨info', .collection later⟩ values scope (.collection entries) = .ok ()) :
    accept ⟨info, .collection earlier⟩ values scope
      (.collection (List.zipWith (earlier.earlierEntry later) parts entries)) = .ok () := by
  obtain ⟨hlayout, htypes⟩ := hregular.of_mk
  obtain ⟨hchecks, hinner⟩ := hranges.of_mk
  have hlist {layout : Layout CompiledType} (hkind : layout.kind = .sequence) :
      layout.kind.isList = false := by
    rw [hkind]
    rfl
  have hkind' := h.kind.symm.trans hkind
  have hlayout' (layout : Layout CompiledType)
      (hform : TypeForm.collection later = .collection layout) : layout.IsRegular :=
    TypeForm.collection.inj hform ▸ h.regular_later
  rw [accept_mk_iff_of_not_isReference hlayout' rfl,
    TypeForm.accepts_entries_iff (hlist hkind')] at haccept
  obtain ⟨⟨hadmits, hall⟩, hconstraint⟩ := haccept
  rw [accept_mk_iff_of_not_isReference hlayout rfl, TypeForm.accepts_entries_iff (hlist hkind)]
  refine ⟨⟨?_, ?_⟩, ?_⟩
  · exact Layout.admits_earlier h hnames hkind hnaming
      ((Layout.admits_sequence_iff hkind').mp hadmits).2.2 hkept
  · intro entry hmem component hfind
    obtain ⟨front, back, hsplit⟩ := List.append_of_mem hmem
    obtain ⟨_, before, part, source, after, rfl, -, rfl, hentry, -⟩ :=
      forall₂_exists_of_zipWith_eq hkept hsplit
    rw [Layout.component?_earlierEntry h hnames hentry] at hfind
    obtain ⟨twin, htwin, hlike, -⟩ := h.exists_like hfind
    have hmem := TypeForm.type_mem_types (Layout.mem_components_of_component? hfind)
    rw [Layout.earlierEntry, hfind, Option.isNone_some, Bool.and_false, if_neg Bool.false_ne_true,
      accept_iff_of_form_eq (htypes _ hmem) (hinner _ hmem) hlike.form hlike.constraints]
    exact hall source (by simp) twin htwin
  · intro constraint hmem
    refine (Constraint.check_eq_ok_iff_of_isAlike (hchecks constraint hmem) ?_ _ _).mp
      (hconstraint constraint (hconstraints ▸ hmem))
    exact ⟨rfl, fun _ => by simp⟩

end Accepting

/-- A SEQUENCE value is read under DER from the elements inside the element. -/
theorem reads_sequence_iff {info : TypeInfo} {layout : Layout CompiledType}
    (hkind : layout.kind = .sequence) {start depth position : Nat} {form octets : Octets}
    {header : Header} (hform : Header.IsForm .der start form header) {entries : Entries} :
    (read ⟨info, .collection layout⟩ .der ⟨header, none, depth⟩).Reads position octets
        (.collection entries) ↔
      header.tag = .sequence ∧ header.isConstructed = true ∧
        (∀ size, header.length = .definite size → octets.length = size) ∧
          ∃ inner, depth = inner + 1 ∧ ReadsElements .der true (Decoder.readComponent .der
            (layout.map fun type => type.read .der) inner) position none octets entries := by
  have htag : layout.kind.tag? = some .sequence := by rw [hkind]; rfl
  have hlist : layout.kind.isList = false := by rw [hkind]; rfl
  obtain ⟨size, hsize⟩ := hform.exists_size
  have hdefinite : (!header.length.isIndefinite) = true := by rw [hsize]; rfl
  cases depth with
  | zero => simp [read_zero, Read.not_reads_failAt]
  | succ depth =>
      rw [reads_entries_iff htag hlist, hdefinite]
      simp only [Option.getD_none, Value.collection.injEq, Nat.add_right_cancel_iff,
        exists_eq_left']

end CompiledType

namespace Schema

variable {schema : Schema} {handle handle' : Handle} {info info' : TypeInfo}
  {layout layout' : Layout CompiledType} {collection : CollectionDeclaration}

/-- What a SEQUENCE type decodes under DER, an earlier version of it with fewer extension additions
decodes in the same way, with the elements of the additions that it does not know captured in their
places, if one of its own additions is there. The presence rules never stand against this. What can
is an element that the later version has captured and the earlier version knows, and a constraint
made by the user of the library, which need not take what is captured. -/
theorem Reachable.decode_earlier_iff (h : schema.Reachable)
    (hcompiled : schema.compiled handle = .ok ⟨info, .collection layout⟩)
    (hcompiled' : schema.compiled handle' = .ok ⟨info', .collection layout'⟩)
    {more : List ExtensionAddition}
    (hdefinition : schema.definition? handle = some (.collection collection))
    (hdefinition' : schema.definition? handle' =
      some (.collection { collection with additions := collection.additions ++ more }))
    (hconstraints : info'.constraints = info.constraints)
    (hkind : collection.kind = .sequence)
    (hautomatic : schema.TagsAutomatically
      { collection with additions := collection.additions ++ more })
    (hbound : layout'.components.length ≤ 2 ^ 32)
    (hnames : ∀ component ∈ layout.components, ∀ number,
      component.name ≠ (Tag.context number).text)
    {maxDepth : Nat} {octets : Octets} {entries : Entries}
    (hdecode : schema.decode handle' ⟨.der, maxDepth⟩ octets = .ok (.collection entries))
    (hnamed : ∃ entry ∈ entries, ∃ component, layout.component? entry.1 = some component ∧
      component.isAddition = true) :
    ∃ (element : PlacedElement) (parts : List PlacedElement) (left : Entries),
      element.Fills .der octets ∧ element.IsMadeOf .der parts ∧
      element.content = (parts.map PlacedElement.octets).flatten ∧
      parts.length = entries.length ∧
      left = List.zipWith (layout.earlierEntry layout') parts entries ∧
      layout.Admits left ∧
      (schema.decode handle ⟨.der, maxDepth⟩ octets = .ok (.collection left) ↔
        layout.LeavesCaptured entries ∧ schema.accept handle (.collection left) = .ok ()) ∧
      (CompiledType.HasRangesOnly ⟨info, .collection layout⟩ →
        schema.accept handle (.collection left) = .ok ()) := by
  have hregular := h.consistent.isRegular hcompiled
  have hregular' := h.consistent.isRegular hcompiled'
  have htypes : ∀ component ∈ layout'.components, component.type.IsRegular :=
    fun component hmem => hregular'.of_mk.2 _ (TypeForm.type_mem_types hmem)
  have hsequence := (h.consistent.kind_eq hcompiled hdefinition).trans hkind
  obtain ⟨start, count, hearlier⟩ := h.consistent.exists_isEarlier hcompiled hcompiled' hdefinition
    hdefinition' hautomatic hbound
  have hsequence' := hearlier.kind.symm.trans hsequence
  have hlist : layout'.kind.isList = false := by rw [hsequence']; rfl
  obtain ⟨form, header, content, rfl, hform, hreads, haccept⟩ :=
    (decode_eq_ok_iff hcompiled').mp hdecode
  obtain ⟨htag, hconstructed, hsize, depth, hdepth, helements⟩ :=
    (CompiledType.reads_sequence_iff hsequence' hform).mp hreads
  obtain ⟨⟨hadmits, hall⟩, -⟩ :=
    (accept_collection_iff h.consistent hcompiled' hlist).mp haccept
  obtain ⟨hallows, hordered, hcomplete⟩ := (Layout.admits_sequence_iff hsequence').mp hadmits
  have hnaming : layout.IsNaming layout' entries :=
    ⟨hordered, (Layout.allowsAfter_sequence_iff hearlier.regular_later hsequence').mp hallows,
      hnamed⟩
  obtain ⟨parts, hparts, hoctets, hkept, hleaves⟩ := CompiledType.exists_parts hearlier
    hsequence hnaming htypes hall helements rfl (List.nil_append entries).symm
  have hdefinite : (!header.length.isIndefinite) = true := by
    obtain ⟨size, hlength⟩ := hform.exists_size
    rw [hlength]
    rfl
  refine ⟨⟨header, form.length, content⟩, parts, _, ⟨form, rfl, hform, rfl⟩,
    Elements.isMadeOf (hdefinite ▸ hparts), hoctets, hkept.length_eq, rfl, ?_, ?_, ?_⟩
  · exact Layout.admits_earlier hearlier hnames hsequence hnaming hcomplete hkept
  · rw [decode_eq_ok_iff hcompiled]
    constructor
    · rintro ⟨form', header', content', -, -, hreads', haccept'⟩
      refine ⟨?_, haccept'⟩
      rw [accept_eq_ok_iff hcompiled] at haccept'
      have hkeeps := CompiledType.keeps_of_reads hregular hreads' haccept'
      cases hkeeps with
      | entries _ _ harranged _ =>
          refine Layout.leavesCaptured_of_isArranged hearlier hnames hsequence
            hordered ?_ hkept harranged
          intro entry hmem captured hcaptured
          exact Layout.component?_eq_none_of_accept_captured htypes
            (hcaptured ▸ hall entry hmem)
    · rintro ⟨hcaptured, haccept'⟩
      refine ⟨form, header, content, rfl, hform, ?_, haccept'⟩
      exact (CompiledType.reads_sequence_iff hsequence hform).mpr
        ⟨htag, hconstructed, hsize, depth, hdepth, hleaves hcaptured⟩
  · intro hranges
    rw [accept_eq_ok_iff hcompiled'] at haccept
    rw [accept_eq_ok_iff hcompiled]
    exact CompiledType.accept_earlierEntries hearlier hregular hsequence
      hranges hconstraints hnames hnaming hkept haccept

theorem hasRangesOnly_earlierSequence :
    CompiledType.HasRangesOnly ⟨⟨⟨2⟩, none, []⟩, .collection earlierSequence⟩ := by
  rw [CompiledType.HasRangesOnly]
  simp [CompiledType.forall_reaches_mk_iff, TypeForm.types, CompiledType.info, earlierSequence,
    taggedComponent, integerType, booleanType]

theorem name_ne_text_earlierSequence : ∀ component ∈ earlierSequence.components, ∀ number,
    component.name ≠ (Tag.context number).text := by
  intro component hmem number heq
  have hhead : component.name.toList.head? = some '[' := by
    rw [heq]
    simp [Tag.text, Tag.context, toString]
  simp [earlierSequence, taggedComponent] at hmem
  rcases hmem with rfl | rfl | rfl
  all_goals contradiction

/-- The element of the addition that is new is captured. -/
theorem decode_earlier_versionedSequences :
    let octets : Octets := [0x30, 0x09, 0x81, 0x01, 0x05, 0x83, 0x01, 0x07, 0x80, 0x01, 0x00]
    let five : Integer := ⟨5, by decide, by decide⟩
    let entries : Entries :=
      [("x", .integer five), ("y", .integer ⟨7, by decide, by decide⟩), ("b", .boolean false)]
    let left : Entries :=
      [("x", .integer five), ("[3]", .captured ⟨⟨.context 3, false⟩, [0x83, 0x01, 0x07]⟩),
        ("b", .boolean false)]
    (versionedSequences []).decode ⟨3⟩ ⟨.der, 3⟩ octets = .ok (.collection entries) ∧
      (versionedSequences []).decode ⟨2⟩ ⟨.der, 3⟩ octets = .ok (.collection left) ∧
        ∃ (element : PlacedElement) (parts : List PlacedElement),
          element.Fills .der octets ∧ element.IsMadeOf .der parts ∧
            left = List.zipWith (earlierSequence.earlierEntry laterSequence) parts entries := by
  intro octets five entries left
  have hdecode : (versionedSequences []).decode ⟨3⟩ ⟨.der, 3⟩ octets =
      .ok (.collection entries) := by
    decide +kernel
  have hdecode' : (versionedSequences []).decode ⟨2⟩ ⟨.der, 3⟩ octets = .ok (.collection left) := by
    decide +kernel
  obtain ⟨element, parts, found, hfills, hmade, -, -, hfound, -, hiff, haccept⟩ :=
    Reachable.decode_earlier_iff (reachable_versionedSequences [])
      compiled_earlierSequence compiled_laterSequence
      definition?_earlierSequence definition?_laterSequence rfl rfl
      tagsAutomatically_versionedSequences (by decide) name_ne_text_earlierSequence hdecode
      ⟨_, List.mem_cons_self, _, rfl, by decide⟩
  have hleaves : earlierSequence.LeavesCaptured entries := by
    intro before entry after captured hsplit hcaptured
    have hmem : entry ∈ entries := by rw [hsplit]; simp
    simp only [entries, List.mem_cons, List.not_mem_nil, or_false] at hmem
    rcases hmem with rfl | rfl | rfl
    all_goals cases hcaptured
  have hsame := hiff.mpr ⟨hleaves, haccept hasRangesOnly_earlierSequence⟩
  rw [hdecode', Except.ok.injEq, Value.collection.injEq] at hsame
  exact ⟨hdecode, hdecode', element, parts, hfills, hmade, hsame.trans hfound⟩

/-- The earlier version knows an element that the later one has captured, since it has the tag of an
addition that may still follow there. And a constraint that takes no captured elements does not take
what is left to the earlier version. -/
theorem decode_earlier_fails_of_captured :
    let plain : Constraint := .custom fun _ value =>
      match value with
      | .collection entries =>
        if entries.any (·.2 matches .captured _) then .error .emptyValue else .ok ()
      | _ => .ok ()
    let five : Integer := ⟨5, by decide, by decide⟩
    let seven : Integer := ⟨7, by decide, by decide⟩
    let octets : Octets :=
      [0x30, 0x0C, 0x81, 0x01, 0x05, 0x83, 0x01, 0x07, 0x82, 0x01, 0xFF, 0x80, 0x01, 0x00]
    let new : String × Value := ("[3]", .captured ⟨⟨.context 3, false⟩, [0x83, 0x01, 0x07]⟩)
    let foreign : String × Value := ("[2]", .captured ⟨⟨.context 2, false⟩, [0x82, 0x01, 0xFF]⟩)
    let octets' : Octets := [0x30, 0x09, 0x81, 0x01, 0x05, 0x83, 0x01, 0x07, 0x80, 0x01, 0x00]
    ((versionedSequences []).Reachable ∧
      (versionedSequences []).definition? ⟨2⟩ = some (.collection additionSequence) ∧
      (versionedSequences []).definition? ⟨3⟩ = some (.collection
        { additionSequence with additions := additionSequence.additions ++ [newAddition] }) ∧
      (versionedSequences []).TagsAutomatically
        { additionSequence with additions := additionSequence.additions ++ [newAddition] }) ∧
    ((versionedSequences []).decode ⟨3⟩ ⟨.der, 3⟩ octets = .ok (.collection
        [("x", .integer five), ("y", .integer seven), foreign, ("b", .boolean false)]) ∧
      (versionedSequences []).decode ⟨2⟩ ⟨.der, 3⟩ octets = .ok (.collection
        [("x", .integer five), new, ("z", .boolean true), ("b", .boolean false)]) ∧
      (versionedSequences []).decode ⟨2⟩ ⟨.der, 3⟩ octets ≠ .ok (.collection
        [("x", .integer five), new, foreign, ("b", .boolean false)])) ∧
    ((versionedSequences [plain]).decode ⟨3⟩ ⟨.der, 3⟩ octets' = .ok (.collection
        [("x", .integer five), ("y", .integer seven), ("b", .boolean false)]) ∧
      ∀ value, (versionedSequences [plain]).decode ⟨2⟩ ⟨.der, 3⟩ octets' ≠ .ok value) := by
  intro plain five seven octets new foreign octets'
  have hdecode : (versionedSequences []).decode ⟨2⟩ ⟨.der, 3⟩ octets = .ok (.collection
      [("x", .integer five), new, ("z", .boolean true), ("b", .boolean false)]) := by
    decide +kernel
  refine ⟨⟨reachable_versionedSequences [], definition?_earlierSequence,
    definition?_laterSequence, tagsAutomatically_versionedSequences⟩, ⟨?_, hdecode, ?_⟩, ?_, ?_⟩
  · decide +kernel
  · rw [hdecode]
    simp [foreign]
  · decide +kernel
  · intro value
    refine ne_of_eq_of_ne (b := .error (.format (.value .emptyValue) 0)) ?_ (by simp)
    decide +kernel

end Schema

end Asn1

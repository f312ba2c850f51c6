import Asn1.Proofs.CapturedElements
import Asn1.Proofs.LeafReading
import Asn1.Proofs.TagMatching

namespace Asn1

open Read Source

namespace Layout

variable {τ : Type}

/-- The component that the next element with the tag is of. -/
def match? (layout : Layout τ) (previous? : Option Nat) (tag : Tag) : Option (Component τ) :=
  if layout.kind = .sequence then layout.componentByTagFrom? (nextIndex previous?) tag
  else layout.componentByTag? tag

theorem match?_map {σ : Type} (f : σ → τ) (layout : Layout σ) (previous? : Option Nat) (tag : Tag) :
    (layout.map f).match? previous? tag = (layout.match? previous? tag).map (Component.map f) := by
  rw [match?, match?, componentByTagFrom?_map, componentByTag?_map, apply_ite (Option.map _)]
  rfl

theorem match?_of_ne_sequence {layout : Layout τ} (hkind : layout.kind ≠ .sequence)
    (previous? : Option Nat) (tag : Tag) :
    layout.match? previous? tag = layout.componentByTag? tag := by
  rw [match?, if_neg hkind]

/-- Where no addition is required, the elements of the entries are matched to the components that
these name. -/
theorem match?_of_admits {layout : Layout τ} {component : Component τ} (h : layout.IsRegular)
    (hlist : layout.kind.isList = false)
    (hadditions : ∀ component ∈ layout.components, component.isAddition = true →
      component.isRequired = false)
    {entries : Entries} (hadmits : layout.Admits entries) {before after : List (Component τ)}
    (hknown : layout.known entries = before ++ component :: after) {tag : Tag}
    (htag : tag ∈ component.tags) :
    layout.match? (before.getLast?.map Component.index) tag = some component := by
  rw [match?]
  split
  · next hkind =>
    obtain ⟨-, horder, hcomplete⟩ := (admits_sequence_iff hkind).mp hadmits
    have hseparated := isSeparated_of_additions_optional h hkind hadditions
    exact componentByTagFrom?_of_isSeparated h hseparated horder hcomplete hknown htag
  · next hkind =>
    have hpresent : component ∈ layout.known entries := by
      rw [hknown]
      exact List.mem_append_right _ List.mem_cons_self
    exact componentByTag?_eq_some h hlist hkind (mem_components_of_mem_known hpresent) htag

theorem mem_components_of_match? {layout : Layout τ} {previous? : Option Nat} {tag : Tag}
    {component : Component τ} (h : layout.match? previous? tag = some component) :
    component ∈ layout.components := by
  rw [match?] at h
  split at h
  · exact List.mem_of_mem_drop (List.mem_of_find?_eq_some h)
  · exact List.mem_of_find?_eq_some h

theorem mem_tags_of_match? {layout : Layout τ} {previous? : Option Nat} {tag : Tag}
    {component : Component τ} (h : layout.match? previous? tag = some component) :
    tag ∈ component.tags := by
  rw [match?] at h
  split at h <;> simpa [Component.hasTag] using List.find?_some h

end Layout

namespace Decoder

variable {rules : EncodingRules} {depth : Nat}

section Explicit

variable {inner : ValueReader}

theorem outcome_readExplicit_iff (hlocal : ∀ element, (inner element).IsLocal) {definite : Bool}
    {octets : Octets} {position : Nat} {value : Value} {source : Source} :
    (readExplicit rules inner depth definite).outcome (ofOctets octets position) =
        (.ok value, source) ↔
      ∃ c rest, octets = c ++ rest ∧ source = ofOctets rest (position + c.length) ∧
        (definite = true → rest = []) ∧
          ∃ form header content mark, c = form ++ (content ++ mark) ∧
            Header.IsForm rules position form header ∧ header.isEndOfContents = false ∧
              (inner ⟨header, none, depth⟩).Reads (position + form.length) content value ∧
                IsEnd rules definite (position + form.length + content.length) mark := by
  rw [readExplicit, outcome_bind_of_ok (outcome_position _)]
  constructor
  · intro h
    obtain ⟨found, middle, hfound, hlast⟩ := exists_of_outcome_bind h
    rcases found with _ | header
    · simp at hlast
    · obtain ⟨form, rest, rfl, rfl, hform, hheader⟩ := outcome_nextHeader?_eq_some_iff.mp hfound
      obtain ⟨found, middle, hvalue, hlast⟩ := exists_of_outcome_bind hlast
      obtain ⟨content, rest, rfl, rfl, hcontent⟩ := hlocal _ _ _ _ _ hvalue
      rw [outcome_bind_of_ok (outcome_position _)] at hlast
      obtain ⟨last?, middle, hend, hlast⟩ := exists_of_outcome_bind hlast
      rcases last? with _ | last
      · obtain ⟨mark, rest, rfl, rfl, hrest, hend⟩ := outcome_nextHeader?_eq_none_iff.mp hend
        simp only [outcome_pure, Prod.mk.injEq, Except.ok.injEq] at hlast
        obtain ⟨rfl, rfl⟩ := hlast
        exact ⟨form ++ (content ++ mark), rest, by simp, by simp [Nat.add_assoc], hrest, form,
          header, content, mark, rfl, hform, hheader, hcontent, hend⟩
      · simp at hlast
  · rintro ⟨_, rest, rfl, rfl, hrest, form, header, content, mark, rfl, hform, hheader, hcontent,
      hend⟩
    simp only [List.append_assoc]
    rw [outcome_bind_of_ok (outcome_nextHeader?_eq_some_iff.mpr
      ⟨form, _, rfl, rfl, hform, hheader⟩)]
    simp only
    rw [outcome_bind_of_ok (hcontent _), outcome_bind_of_ok (outcome_position _),
      outcome_bind_of_ok (outcome_nextHeader?_eq_none_iff.mpr
        ⟨mark, rest, rfl, rfl, hrest, hend⟩)]
    simp [Nat.add_assoc]

theorem isLocalTo_readExplicit (hlocal : ∀ element, (inner element).IsLocal) (definite : Bool) :
    (readExplicit rules inner depth definite).IsLocalTo definite := by
  apply isLocalTo_of_outcome
  intro _ _ _ _
  exact outcome_readExplicit_iff hlocal

theorem readsTo_readExplicit_iff (hlocal : ∀ element, (inner element).IsLocal) {definite : Bool}
    {octets : Octets} {position : Nat} {value : Value} :
    (readExplicit rules inner depth definite).ReadsTo definite position octets value ↔
      ∃ form header content mark, octets = form ++ (content ++ mark) ∧
        Header.IsForm rules position form header ∧ header.isEndOfContents = false ∧
          (inner ⟨header, none, depth⟩).Reads (position + form.length) content value ∧
            IsEnd rules definite (position + form.length + content.length) mark := by
  apply readsTo_iff_of_outcome
  intro _ _ _ _
  exact outcome_readExplicit_iff hlocal

end Explicit

theorem isLocal_readUnknown (rules : EncodingRules) (header : Header) (depth : Nat) :
    (readUnknown rules header depth).IsLocal := by
  apply (Captured.isLocal_read rules depth header).bind
  intro _
  exact isLocal_pure _

theorem reads_readUnknown_iff {header : Header} {position : Nat} {octets : Octets}
    {entry : String × Value} :
    (readUnknown rules header depth).Reads position octets entry ↔
      ∃ copied, (Captured.copyElement rules depth header).Reads position octets copied ∧
        entry = (header.tag.text, .captured ⟨header.identifier, copied⟩) := by
  rw [readUnknown,
    reads_bind_iff (Captured.isLocal_read rules depth header) fun _ => isLocal_pure _]
  simp only [Captured.reads_read_iff]
  constructor
  · rintro ⟨c, d, captured, rfl, ⟨copied, hcopied, rfl⟩, hd⟩
    obtain ⟨rfl, rfl⟩ := reads_pure_iff.mp hd
    exact ⟨copied, by simpa using hcopied, rfl⟩
  · rintro ⟨copied, hcopied, rfl⟩
    exact ⟨octets, [], _, by simp, ⟨copied, hcopied, rfl⟩, by simp⟩

section Collections

variable {layout : Layout ValueReader}

theorem readComponent_eq (previous? : Option Nat) (header : Header) :
    readComponent rules layout depth previous? header =
      match layout.match? previous? header.tag with
      | some component => do
        let value ← component.type ⟨header, none, depth⟩
        if rules.isRestricted && component.default? = some value then
          failAt (.ruleViolation .defaultPresent) header.position
        return ((component.name, value), some component.index)
      | none => do
        unless layout.allowsUnknown previous? do failAt (.unknownTag header.tag) header.position
        return (← readUnknown rules header depth, previous?) :=
  rfl

theorem isLocal_readComponent
    (hlocal : ∀ component ∈ layout.components, ∀ element, (component.type element).IsLocal)
    (previous? : Option Nat) (header : Header) :
    (readComponent rules layout depth previous? header).IsLocal := by
  rw [readComponent_eq]
  split
  · next component hfound =>
    refine (hlocal component (Layout.mem_components_of_match? hfound) _).bind fun value => ?_
    simp only [failAt_bind]
    exact IsLocal.ite (isLocal_failAt _ _) (isLocal_pure _)
  · refine IsLocal.ite ?_ (isLocal_failAt _ _)
    exact (isLocal_readUnknown _ _ _).bind fun _ => isLocal_pure _

theorem reads_readComponent_iff_of_some {previous? : Option Nat} {header : Header}
    {component : Component ValueReader}
    (hmatch : layout.match? previous? header.tag = some component)
    (hlocal : ∀ element, (component.type element).IsLocal) {position : Nat} {octets : Octets}
    {entry : String × Value} {next? : Option Nat} :
    (readComponent rules layout depth previous? header).Reads position octets (entry, next?) ↔
      entry.1 = component.name ∧ next? = some component.index ∧
        (component.type ⟨header, none, depth⟩).Reads position octets entry.2 ∧
          (rules.isRestricted = true → component.default? ≠ some entry.2) := by
  rw [readComponent_eq, hmatch]
  simp only [failAt_bind]
  rw [reads_bind_iff (hlocal _) fun value =>
    IsLocal.ite (isLocal_failAt _ _) (isLocal_pure _)]
  simp only [reads_ite_failAt_iff, reads_pure_iff, Prod.mk.injEq, Bool.and_eq_true,
    decide_eq_true_eq, not_and]
  constructor
  · rintro ⟨c, d, value, rfl, hvalue, hdefault, rfl, rfl, rfl⟩
    exact ⟨rfl, rfl, by simpa using hvalue, hdefault⟩
  · rintro ⟨hname, rfl, hvalue, hdefault⟩
    exact ⟨octets, [], entry.2, by simp, hvalue, hdefault, rfl, Prod.ext hname rfl, rfl⟩

theorem reads_readComponent_iff_of_none {previous? : Option Nat} {header : Header}
    (hmatch : layout.match? previous? header.tag = none) {position : Nat} {octets : Octets}
    {entry : String × Value} {next? : Option Nat} :
    (readComponent rules layout depth previous? header).Reads position octets (entry, next?) ↔
      layout.allowsUnknown previous? = true ∧ next? = previous? ∧
        (readUnknown rules header depth).Reads position octets entry := by
  rw [readComponent_eq, hmatch]
  simp only [failAt_bind, reads_ite_else_failAt_iff]
  rw [reads_bind_iff (isLocal_readUnknown _ _ _) fun _ => isLocal_pure _]
  simp only [reads_pure_iff, Prod.mk.injEq]
  refine and_congr_right fun _ => ?_
  constructor
  · rintro ⟨c, d, found, rfl, hfound, rfl, rfl, rfl⟩
    exact ⟨rfl, by simpa using hfound⟩
  · rintro ⟨rfl, hfound⟩
    exact ⟨octets, [], entry, by simp, hfound, rfl, rfl, rfl⟩

/-- Reads an item of a list. -/
def readItem (element : Component ValueReader) (depth : Nat) (_ : Unit) (header : Header) :
    Read (Value × Unit) :=
  return (← element.type ⟨header, none, depth⟩, ())

theorem isLocal_readItem {element : Component ValueReader}
    (hlocal : ∀ header, (element.type header).IsLocal) (state : Unit) (header : Header) :
    (readItem element depth state header).IsLocal := by
  apply (hlocal _).bind
  intro _
  exact isLocal_pure _

theorem reads_readItem_iff {element : Component ValueReader}
    (hlocal : ∀ header, (element.type header).IsLocal) {state next : Unit} {header : Header}
    {position : Nat} {octets : Octets} {item : Value} :
    (readItem element depth state header).Reads position octets (item, next) ↔
      (element.type ⟨header, none, depth⟩).Reads position octets item := by
  rw [readItem, reads_bind_iff (hlocal _) fun _ => isLocal_pure _]
  simp only [reads_pure_iff, Prod.mk.injEq, and_true]
  constructor
  · rintro ⟨c, d, found, rfl, hfound, rfl, rfl⟩
    simpa using hfound
  · intro h
    exact ⟨octets, [], item, by simp, h, rfl, rfl⟩

theorem readCollection_of_list (hlist : layout.kind.isList = true) {element : Component ValueReader}
    (helement : layout.element? = some element) (definite : Bool) :
    readCollection rules layout depth definite =
      (readElements rules definite (readItem element depth) () >>= fun items =>
        pure (.list items)) := by
  rw [readCollection, if_pos hlist, helement]
  rfl

theorem readCollection_of_not_list (hlist : layout.kind.isList = false) (definite : Bool) :
    readCollection rules layout depth definite =
      (readElements rules definite (readComponent rules layout depth) none >>= fun entries =>
        pure (.collection entries)) := by
  rw [readCollection, if_neg (by simp [hlist])]

theorem isLocalTo_readCollection
    (hlocal : ∀ component ∈ layout.components, ∀ element, (component.type element).IsLocal)
    (definite : Bool) : (readCollection rules layout depth definite).IsLocalTo definite := by
  cases hlist : layout.kind.isList with
  | false =>
      rw [readCollection_of_not_list hlist]
      exact (isLocalTo_readElements (isLocal_readComponent hlocal) _).bind fun _ => isLocal_pure _
  | true =>
      cases helement : layout.element? with
      | none =>
          rw [readCollection, if_pos hlist, helement]
          exact isLocal_position.bind_to fun _ => fun _ _ _ _ h => by simp at h
      | some element =>
          rw [readCollection_of_list hlist helement]
          exact (isLocalTo_readElements (isLocal_readItem
            (hlocal element (Layout.mem_components_of_element? helement))) _).bind
              fun _ => isLocal_pure _

end Collections

section Choice

variable {layout : Layout ValueReader}

theorem isLocal_readChoice
    (hlocal : ∀ component ∈ layout.components, ∀ element, (component.type element).IsLocal)
    (header : Header) (depth : Nat) : (readChoice rules layout header depth).IsLocal := by
  rw [readChoice]
  split
  · next component hfound =>
    exact (hlocal component (List.mem_of_find?_eq_some hfound) _).bind fun _ => isLocal_pure _
  · refine IsLocal.ite ?_ (isLocal_failAt _ _)
    exact (isLocal_readUnknown _ _ _).bind fun _ => isLocal_pure _

theorem reads_readChoice_iff_of_some {header : Header} {component : Component ValueReader}
    (hmatch : layout.componentByTag? header.tag = some component)
    (hlocal : ∀ element, (component.type element).IsLocal) {position : Nat} {octets : Octets}
    {value : Value} :
    (readChoice rules layout header depth).Reads position octets value ↔
      ∃ inner, value = .choice component.name inner ∧
        (component.type ⟨header, none, depth⟩).Reads position octets inner := by
  rw [readChoice, hmatch]
  simp only
  rw [reads_bind_iff (hlocal _) fun _ => isLocal_pure _]
  simp only [reads_pure_iff]
  constructor
  · rintro ⟨c, d, inner, rfl, hinner, rfl, rfl⟩
    exact ⟨inner, rfl, by simpa using hinner⟩
  · rintro ⟨inner, rfl, hinner⟩
    exact ⟨octets, [], inner, by simp, hinner, rfl, rfl⟩

theorem reads_readChoice_iff_of_none {header : Header}
    (hmatch : layout.componentByTag? header.tag = none) {position : Nat} {octets : Octets}
    {value : Value} :
    (readChoice rules layout header depth).Reads position octets value ↔
      layout.allowsUnknown none = true ∧ ∃ name inner, value = .choice name inner ∧
        (readUnknown rules header depth).Reads position octets (name, inner) := by
  rw [readChoice, hmatch]
  simp only [failAt_bind, reads_ite_else_failAt_iff]
  rw [reads_bind_iff (isLocal_readUnknown _ _ _) fun _ => isLocal_pure _]
  simp only [reads_pure_iff]
  refine and_congr_right fun _ => ?_
  constructor
  · rintro ⟨c, d, ⟨name, inner⟩, rfl, hinner, rfl, rfl⟩
    exact ⟨name, inner, rfl, by simpa using hinner⟩
  · rintro ⟨name, inner, rfl, hinner⟩
    exact ⟨octets, [], (name, inner), by simp, hinner, rfl, rfl⟩

end Choice

end Decoder

namespace CompiledType

variable {rules : EncodingRules} {info : TypeInfo} {header : Header} {tag? : Option Tag}
  {depth position : Nat} {octets : Octets} {value : Value}

theorem read_zero (type : CompiledType) : type.read rules ⟨header, tag?, 0⟩ =
    failAt .depthExceeded header.position := by
  obtain ⟨info, form⟩ := type
  rw [read, interpret_mk]
  rfl

theorem read_builtin (builtin : Builtin) :
    read ⟨info, .builtin builtin⟩ rules ⟨header, tag?, depth + 1⟩ =
      Decoder.readBuiltin rules builtin ⟨header, tag?, depth⟩ := by
  rw [read, interpret_mk]
  rfl

theorem read_alias (target : CompiledType) :
    read ⟨info, .alias target⟩ rules ⟨header, tag?, depth + 1⟩ =
      target.read rules ⟨header, tag?, depth⟩ := by
  rw [read, interpret_mk]
  rfl

theorem read_implicit (tag : Tag) (inner : CompiledType) :
    read ⟨info, .tagged tag .implicit inner⟩ rules ⟨header, tag?, depth + 1⟩ =
      inner.read rules ⟨header, some (tag?.getD tag), depth⟩ := by
  rw [read, interpret_mk]
  rfl

theorem read_explicit (tag : Tag) (inner : CompiledType) :
    read ⟨info, .tagged tag .explicit inner⟩ rules ⟨header, tag?, depth + 1⟩ =
      (checkTag header (tag?.getD tag) >>= fun _ =>
        readConstructed header (Decoder.readExplicit rules (inner.read rules) depth)) := by
  rw [read, interpret_mk]
  rfl

theorem read_collection {layout : Layout CompiledType} {tag : Tag}
    (htag : layout.kind.tag? = some tag) :
    read ⟨info, .collection layout⟩ rules ⟨header, tag?, depth + 1⟩ =
      (checkTag header (tag?.getD tag) >>= fun _ => readConstructed header
        (Decoder.readCollection rules (layout.map fun type => type.read rules) depth)) := by
  rw [read, interpret_mk]
  show Decoder.step rules info (.collection (layout.map fun type => type.read rules)) _ = _
  simp only [Decoder.step, Layout.kind_map, htag]

theorem read_choice {layout : Layout CompiledType} (hkind : layout.kind = .choice) :
    read ⟨info, .collection layout⟩ rules ⟨header, none, depth + 1⟩ =
      Decoder.readChoice rules (layout.map fun type => type.read rules) header depth := by
  have htag := CollectionKind.tag?_eq_none_iff.mpr hkind
  rw [read, interpret_mk]
  show Decoder.step rules info (.collection (layout.map fun type => type.read rules)) _ = _
  simp only [Decoder.step, Layout.kind_map, htag]

theorem read_tagged_choice {layout : Layout CompiledType} (hkind : layout.kind = .choice)
    {tag : Tag} : read ⟨info, .collection layout⟩ rules ⟨header, some tag, depth + 1⟩ =
      failAt (.value (.illegal .implicitlyTaggedChoice)) header.position := by
  have htag := CollectionKind.tag?_eq_none_iff.mpr hkind
  rw [read, interpret_mk]
  show Decoder.step rules info (.collection (layout.map fun type => type.read rules)) _ = _
  simp only [Decoder.step, Layout.kind_map, htag]

/-- Induction along the types that an element is read as a value of, each of which takes one unit of
depth. Implicit tags are handed down; what reads the element in an explicit tag, or the components
of a collection, is called with other elements. -/
@[elab_as_elim]
theorem depthInduct {motive : CompiledType → Option Tag → Nat → Prop}
    (zero : ∀ type tag?, motive type tag? 0)
    (builtin : ∀ info builtin tag? depth, motive ⟨info, .builtin builtin⟩ tag? (depth + 1))
    («alias» : ∀ info target tag? depth, motive target tag? depth →
      motive ⟨info, .alias target⟩ tag? (depth + 1))
    (implicit : ∀ info tag inner tag? depth, motive inner (some (tag?.getD tag)) depth →
      motive ⟨info, .tagged tag .implicit inner⟩ tag? (depth + 1))
    (explicit : ∀ info tag inner tag? depth, (∀ tag? depth, motive inner tag? depth) →
      motive ⟨info, .tagged tag .explicit inner⟩ tag? (depth + 1))
    (collection : ∀ info layout tag? depth,
      (∀ component ∈ layout.components, ∀ tag? depth, motive component.type tag? depth) →
        motive ⟨info, .collection layout⟩ tag? (depth + 1))
    (type : CompiledType) (tag? : Option Tag) (depth : Nat) : motive type tag? depth := by
  induction type using CompiledType.induct generalizing tag? depth with
  | mk info form ih =>
      cases depth with
      | zero => exact zero _ tag?
      | succ depth =>
          cases form with
          | builtin leaf => exact builtin info leaf tag? depth
          | «alias» target => exact «alias» info target _ _ (ih _ TypeForm.target_mem_types _ _)
          | tagged tag method inner =>
              have hinner := ih inner TypeForm.inner_mem_types
              cases method with
              | implicit => exact implicit info tag inner _ _ (hinner _ _)
              | explicit => exact explicit info tag inner _ _ hinner
          | collection layout =>
              refine collection info layout _ _ fun component hmem => ?_
              exact ih component.type (TypeForm.type_mem_types hmem)

/-- Induction along reading, where collections are told apart by how they are read: in an element of
their own, or as an untagged CHOICE, which has no tag that an implicit one could replace. -/
@[elab_as_elim]
theorem readInduct {motive : CompiledType → Option Tag → Nat → Prop}
    (zero : ∀ type tag?, motive type tag? 0)
    (builtin : ∀ info builtin tag? depth, motive ⟨info, .builtin builtin⟩ tag? (depth + 1))
    («alias» : ∀ info target tag? depth, motive target tag? depth →
      motive ⟨info, .alias target⟩ tag? (depth + 1))
    (implicit : ∀ info tag inner tag? depth, motive inner (some (tag?.getD tag)) depth →
      motive ⟨info, .tagged tag .implicit inner⟩ tag? (depth + 1))
    (explicit : ∀ info tag inner tag? depth, (∀ tag? depth, motive inner tag? depth) →
      motive ⟨info, .tagged tag .explicit inner⟩ tag? (depth + 1))
    (constructed : ∀ info layout tag tag? depth, layout.kind.tag? = some tag →
      (∀ component ∈ layout.components, ∀ tag? depth, motive component.type tag? depth) →
        motive ⟨info, .collection layout⟩ tag? (depth + 1))
    (choice : ∀ info layout depth, layout.kind = .choice →
      (∀ component ∈ layout.components, ∀ tag? depth, motive component.type tag? depth) →
        motive ⟨info, .collection layout⟩ none (depth + 1))
    (taggedChoice : ∀ info layout tag depth, layout.kind = .choice →
      motive ⟨info, .collection layout⟩ (some tag) (depth + 1))
    (type : CompiledType) (tag? : Option Tag) (depth : Nat) : motive type tag? depth := by
  refine depthInduct zero builtin «alias» implicit explicit ?_ type tag? depth
  intro info layout tag? depth ih
  cases htag : layout.kind.tag? with
  | some tag => exact constructed info layout tag tag? depth htag ih
  | none =>
      have hkind := CollectionKind.tag?_eq_none_iff.mp htag
      cases tag? with
      | none => exact choice info layout depth hkind ih
      | some tag => exact taggedChoice info layout tag depth hkind

theorem isLocal_read (type : CompiledType) (rules : EncodingRules) (element : Element) :
    (type.read rules element).IsLocal := by
  obtain ⟨header, tag?, depth⟩ := element
  have hlocal {layout : Layout CompiledType}
      (ih : ∀ component ∈ layout.components, ∀ tag? depth header,
        (component.type.read rules ⟨header, tag?, depth⟩).IsLocal) :
      ∀ component ∈ (layout.map fun type => type.read rules).components,
        ∀ element, (component.type element).IsLocal := by
    intro component hmem element
    obtain ⟨source, hsource, rfl⟩ := List.mem_map.mp hmem
    exact ih source hsource _ _ _
  induction type, tag?, depth using readInduct generalizing header with
  | zero type tag? =>
      rw [read_zero]
      exact isLocal_failAt _ _
  | builtin info builtin tag? depth =>
      rw [read_builtin]
      exact isLocal_readBuiltin _ _ _
  | «alias» info target tag? depth ih =>
      rw [read_alias]
      exact ih header
  | implicit info tag inner tag? depth ih =>
      rw [read_implicit]
      exact ih header
  | explicit info tag inner tag? depth ih =>
      rw [read_explicit]
      exact (isLocal_checkTag _ _).bind fun _ => isLocal_readConstructed
        (Decoder.isLocalTo_readExplicit fun element => ih _ _ _)
  | constructed info layout tag tag? depth htag ih =>
      rw [read_collection htag]
      exact (isLocal_checkTag _ _).bind fun _ =>
        isLocal_readConstructed (Decoder.isLocalTo_readCollection (hlocal ih))
  | choice info layout depth hkind ih =>
      rw [read_choice hkind]
      exact Decoder.isLocal_readChoice (hlocal ih) _ _
  | taggedChoice info layout tag depth hkind =>
      rw [read_tagged_choice hkind]
      exact isLocal_failAt _ _

theorem isLocal_component (layout : Layout CompiledType) (rules : EncodingRules) :
    ∀ component ∈ (layout.map fun type => type.read rules).components,
      ∀ element, (component.type element).IsLocal := by
  intro component hmem element
  obtain ⟨source, -, rfl⟩ := List.mem_map.mp hmem
  exact isLocal_read source.type rules element

theorem reads_explicit_iff {tag : Tag} {inner : CompiledType} :
    (read ⟨info, .tagged tag .explicit inner⟩ rules ⟨header, tag?, depth + 1⟩).Reads position octets
        value ↔
      header.tag = tag?.getD tag ∧ header.isConstructed = true ∧
        (∀ size, header.length = .definite size → octets.length = size) ∧
          ∃ form outer content mark, octets = form ++ (content ++ mark) ∧
            Header.IsForm rules position form outer ∧ outer.isEndOfContents = false ∧
              (inner.read rules ⟨outer, none, depth⟩).Reads (position + form.length) content value ∧
                IsEnd rules (!header.length.isIndefinite)
                  (position + form.length + content.length) mark := by
  rw [read_explicit, reads_checkTag_bind_iff,
    reads_readConstructed_iff (Decoder.isLocalTo_readExplicit (isLocal_read inner rules)),
    Decoder.readsTo_readExplicit_iff (isLocal_read inner rules)]

/-- Induction on what is read: a value is read from an element only if those inside it are read from
elements of the types that the type is made of. -/
@[elab_as_elim]
theorem readsInduct
    {motive : ∀ {type : CompiledType} {header : Header} {tag? : Option Tag} {depth position : Nat}
      {octets : Octets} {value : Value},
        (type.read rules ⟨header, tag?, depth⟩).Reads position octets value → Prop}
    (builtin : ∀ {info : TypeInfo} {builtin : Builtin} {header : Header} {tag? : Option Tag}
      {depth position : Nat} {octets : Octets} {value : Value}
      (h : (read ⟨info, .builtin builtin⟩ rules ⟨header, tag?, depth + 1⟩).Reads position octets
        value),
      (Decoder.readBuiltin rules builtin ⟨header, tag?, depth⟩).Reads position octets value →
        motive h)
    («alias» : ∀ {info : TypeInfo} {target : CompiledType} {header : Header} {tag? : Option Tag}
      {depth position : Nat} {octets : Octets} {value : Value}
      (h : (read ⟨info, .alias target⟩ rules ⟨header, tag?, depth + 1⟩).Reads position octets value)
      (htarget : (target.read rules ⟨header, tag?, depth⟩).Reads position octets value),
      motive htarget → motive h)
    (implicit : ∀ {info : TypeInfo} (tag : Tag) {inner : CompiledType} {header : Header}
      {tag? : Option Tag} {depth position : Nat} {octets : Octets} {value : Value}
      (h : (read ⟨info, .tagged tag .implicit inner⟩ rules ⟨header, tag?, depth + 1⟩).Reads position
        octets value)
      (hinner : (inner.read rules ⟨header, some (tag?.getD tag), depth⟩).Reads position octets
        value),
      motive hinner → motive h)
    (explicit : ∀ {info : TypeInfo} (tag : Tag) {inner : CompiledType} {header outer : Header}
      {tag? : Option Tag} {depth position : Nat} {form content mark : Octets} {value : Value}
      (h : (read ⟨info, .tagged tag .explicit inner⟩ rules ⟨header, tag?, depth + 1⟩).Reads position
        (form ++ (content ++ mark)) value)
      (hinner : (inner.read rules ⟨outer, none, depth⟩).Reads (position + form.length) content
        value),
      Header.IsForm rules position form outer → outer.isEndOfContents = false →
        IsEnd rules (!header.length.isIndefinite) (position + form.length + content.length) mark →
          motive hinner → motive h)
    (collection : ∀ {info : TypeInfo} (layout : Layout CompiledType) {header : Header}
      {tag? : Option Tag} {depth position : Nat} {octets : Octets} {value : Value}
      (h : (read ⟨info, .collection layout⟩ rules ⟨header, tag?, depth + 1⟩).Reads position octets
        value),
      (∀ component ∈ layout.components, ∀ {header position octets value}
        (hcomponent : (component.type.read rules ⟨header, none, depth⟩).Reads position octets
          value), motive hcomponent) →
        motive h)
    {type : CompiledType} {header : Header} {tag? : Option Tag} {depth position : Nat}
    {octets : Octets} {value : Value}
    (h : (type.read rules ⟨header, tag?, depth⟩).Reads position octets value) : motive h := by
  induction type, tag?, depth using depthInduct generalizing header position octets value with
  | zero type tag? =>
      rw [read_zero] at h
      exact absurd h not_reads_failAt
  | builtin info leaf tag? depth => exact builtin h (by rwa [read_builtin] at h)
  | «alias» info target tag? depth ih =>
      have htarget := h
      rw [read_alias] at htarget
      exact «alias» h htarget (ih htarget)
  | implicit info tag inner tag? depth ih =>
      have hinner := h
      rw [read_implicit] at hinner
      exact implicit tag h hinner (ih hinner)
  | explicit info tag inner tag? depth ih =>
      obtain ⟨-, -, -, form, outer, content, mark, rfl, hform, houter, hinner, hend⟩ :=
        reads_explicit_iff.mp h
      exact explicit tag h hinner hform houter hend (ih none depth hinner)
  | collection info layout tag? depth ih =>
      exact collection layout h fun component hmem => ih component hmem none depth

theorem reads_list_iff {layout : Layout CompiledType} {tag : Tag}
    (htag : layout.kind.tag? = some tag) (hlist : layout.kind.isList = true)
    {element : Component CompiledType} (helement : layout.element? = some element) :
    (read ⟨info, .collection layout⟩ rules ⟨header, tag?, depth + 1⟩).Reads position octets value ↔
      header.tag = tag?.getD tag ∧ header.isConstructed = true ∧
        (∀ size, header.length = .definite size → octets.length = size) ∧
          ∃ items, value = .list items ∧ ReadsElements rules (!header.length.isIndefinite)
            (Decoder.readItem (element.map fun type => type.read rules) depth) position () octets
              items := by
  have hitem : ∀ header, ((element.map fun type => type.read rules).type header).IsLocal :=
    isLocal_read element.type rules
  rw [read_collection htag, reads_checkTag_bind_iff,
    reads_readConstructed_iff (Decoder.isLocalTo_readCollection (isLocal_component layout rules)),
    Decoder.readCollection_of_list hlist (Layout.element?_map_of_some _ helement),
    readsTo_map_iff (isLocalTo_readElements (Decoder.isLocal_readItem hitem) _)]
  simp only [readsTo_readElements_iff (Decoder.isLocal_readItem hitem), and_comm]

theorem element?_ne_none_of_reads {layout : Layout CompiledType} {tag : Tag}
    (htag : layout.kind.tag? = some tag) (hlist : layout.kind.isList = true)
    (h : (read ⟨info, .collection layout⟩ rules ⟨header, tag?, depth + 1⟩).Reads position octets
      value) : layout.element? ≠ none := by
  intro hnone
  rw [read_collection htag, reads_checkTag_bind_iff, reads_readConstructed_iff
    (Decoder.isLocalTo_readCollection (isLocal_component layout rules))] at h
  obtain ⟨-, -, -, hreads⟩ := h
  rw [Decoder.readCollection, Layout.kind_map, if_pos hlist, Layout.element?_map, hnone] at hreads
  exact absurd (congrArg Prod.fst hreads.outcome_nil) (by rintro ⟨⟩)

theorem reads_entries_iff {layout : Layout CompiledType} {tag : Tag}
    (htag : layout.kind.tag? = some tag) (hlist : layout.kind.isList = false) :
    (read ⟨info, .collection layout⟩ rules ⟨header, tag?, depth + 1⟩).Reads position octets value ↔
      header.tag = tag?.getD tag ∧ header.isConstructed = true ∧
        (∀ size, header.length = .definite size → octets.length = size) ∧
          ∃ entries, value = .collection entries ∧ ReadsElements rules (!header.length.isIndefinite)
            (Decoder.readComponent rules (layout.map fun type => type.read rules) depth) position
              none octets entries := by
  have hlocal : ∀ previous? header, (Decoder.readComponent rules
      (layout.map fun type => type.read rules) depth previous? header).IsLocal :=
    Decoder.isLocal_readComponent (isLocal_component layout rules)
  rw [read_collection htag, reads_checkTag_bind_iff,
    reads_readConstructed_iff (Decoder.isLocalTo_readCollection (isLocal_component layout rules)),
    Decoder.readCollection_of_not_list hlist, readsTo_map_iff (isLocalTo_readElements hlocal _)]
  simp only [readsTo_readElements_iff hlocal, and_comm]

theorem reads_component_iff {layout : Layout CompiledType} {component : Component CompiledType}
    {previous? next? : Option Nat} (hmatch : layout.match? previous? header.tag = some component)
    {entry : String × Value} :
    (Decoder.readComponent rules (layout.map fun type => type.read rules) depth previous?
        header).Reads position octets (entry, next?) ↔
      entry.1 = component.name ∧ next? = some component.index ∧
        (component.type.read rules ⟨header, none, depth⟩).Reads position octets entry.2 ∧
          (rules.isRestricted = true → component.default? ≠ some entry.2) := by
  have hmap : (layout.map fun type => type.read rules).match? previous? header.tag =
      some (component.map fun type => type.read rules) := by
    rw [Layout.match?_map, hmatch]
    rfl
  exact Decoder.reads_readComponent_iff_of_some hmap (isLocal_read component.type rules)

theorem reads_unknown_iff {layout : Layout CompiledType} {previous? next? : Option Nat}
    (hmatch : layout.match? previous? header.tag = none) {entry : String × Value} :
    (Decoder.readComponent rules (layout.map fun type => type.read rules) depth previous?
        header).Reads position octets (entry, next?) ↔
      layout.allowsUnknown previous? = true ∧ next? = previous? ∧
        (Decoder.readUnknown rules header depth).Reads position octets entry := by
  have hmap : (layout.map fun type => type.read rules).match? previous? header.tag = none := by
    rw [Layout.match?_map, hmatch]
    rfl
  rw [Decoder.reads_readComponent_iff_of_none hmap, Layout.allowsUnknown_map]

theorem reads_choice_iff {layout : Layout CompiledType} (hkind : layout.kind = .choice)
    {component : Component CompiledType}
    (hmatch : layout.componentByTag? header.tag = some component) :
    (read ⟨info, .collection layout⟩ rules ⟨header, none, depth + 1⟩).Reads position octets value ↔
      ∃ inner, value = .choice component.name inner ∧
        (component.type.read rules ⟨header, none, depth⟩).Reads position octets inner := by
  have hmap : (layout.map fun type => type.read rules).componentByTag? header.tag =
      some (component.map fun type => type.read rules) := by
    rw [Layout.componentByTag?_map, hmatch]
    rfl
  rw [read_choice hkind]
  exact Decoder.reads_readChoice_iff_of_some hmap (isLocal_read component.type rules)

theorem reads_unknown_choice_iff {layout : Layout CompiledType} (hkind : layout.kind = .choice)
    (hmatch : layout.componentByTag? header.tag = none) :
    (read ⟨info, .collection layout⟩ rules ⟨header, none, depth + 1⟩).Reads position octets value ↔
      layout.allowsUnknown none = true ∧ ∃ name inner, value = .choice name inner ∧
        (Decoder.readUnknown rules header depth).Reads position octets (name, inner) := by
  have hmap : (layout.map fun type => type.read rules).componentByTag? header.tag = none := by
    rw [Layout.componentByTag?_map, hmatch]
    rfl
  rw [read_choice hkind, Decoder.reads_readChoice_iff_of_none hmap, Layout.allowsUnknown_map]

end CompiledType

namespace Schema

variable {schema : Schema} {handle : Handle} {type : CompiledType} {decoder : Decoder}
  {octets : Octets} {value : Value}

theorem isLocal_decodeOne (schema : Schema) (handle : Handle) (decoder : Decoder) :
    (decodeOne schema handle decoder).IsLocal := by
  refine isLocal_position.bind fun start => (isLocal_checked _ _).bind fun type => ?_
  refine (Header.isLocal_read _).bind fun header => (type.isLocal_read _ _).bind fun value => ?_
  exact (isLocal_checked _ _).bind fun _ => isLocal_pure _

theorem reads_decodeOne_iff (hcompiled : schema.compiled handle = .ok type) {position : Nat} :
    (decodeOne schema handle decoder).Reads position octets value ↔
      ∃ form header content, octets = form ++ content ∧
        Header.IsForm decoder.rules position form header ∧
          (type.read decoder.rules ⟨header, none, decoder.maxDepth⟩).Reads (position + form.length)
            content value ∧ schema.accept handle value = .ok () := by
  rw [decodeOne, reads_position_bind_iff, hcompiled]
  show (Header.read decoder.rules >>= fun header =>
    type.read decoder.rules ⟨header, none, decoder.maxDepth⟩ >>= fun value =>
      checked ((schema.accept handle value).mapError .value) position >>= fun _ =>
        (pure value : Read Value)).Reads position octets value ↔ _
  have hlast (value : Value) : (checked ((schema.accept handle value).mapError .value) position >>=
      fun _ => (pure value : Read Value)).IsLocal :=
    (isLocal_checked _ _).bind fun _ => isLocal_pure _
  rw [reads_bind_iff (Header.isLocal_read _) fun header =>
    (type.isLocal_read _ _).bind hlast]
  constructor
  · rintro ⟨form, rest, header, rfl, hform, hrest⟩
    obtain ⟨content, last, found, rfl, hfound, hlast⟩ :=
      (reads_bind_iff (type.isLocal_read _ _) hlast).mp hrest
    obtain ⟨c, d, _, rfl, hchecked, hpure⟩ :=
      (reads_bind_iff (isLocal_checked _ _) fun _ => isLocal_pure _).mp hlast
    obtain ⟨rfl, haccept⟩ := reads_checked_iff.mp hchecked
    obtain ⟨rfl, rfl⟩ := reads_pure_iff.mp hpure
    exact ⟨form, header, content, by simp, Header.reads_read_iff.mp hform, hfound,
      Results.mapError_eq_ok_iff.mp haccept⟩
  · rintro ⟨form, header, content, rfl, hform, hcontent, haccept⟩
    refine ⟨form, content, header, rfl, Header.reads_read_iff.mpr hform, ?_⟩
    refine (reads_bind_iff (type.isLocal_read _ _) hlast).mpr
      ⟨content, [], value, by simp, hcontent, ?_⟩
    exact (reads_bind_iff (isLocal_checked _ _) fun _ => isLocal_pure _).mpr
      ⟨[], [], (), rfl, reads_checked_iff.mpr ⟨rfl, Results.mapError_eq_ok_iff.mpr haccept⟩,
        reads_pure_iff.mpr ⟨rfl, rfl⟩⟩

theorem exists_compiled_of_reads {position : Nat}
    (h : (decodeOne schema handle decoder).Reads position octets value) :
    ∃ type, schema.compiled handle = .ok type := by
  cases hcompiled : schema.compiled handle with
  | error error =>
      rw [decodeOne, reads_position_bind_iff, hcompiled] at h
      exact absurd h not_reads_failAt
  | ok type => exact ⟨type, rfl⟩

theorem decode_eq_ok_iff_reads : schema.decode handle decoder octets = .ok value ↔
    (decodeOne schema handle decoder).Reads 0 octets value := by
  show ((decodeAll schema handle decoder).outcome (ofOctets octets 0)).1 = .ok value ↔ _
  constructor
  · intro h
    obtain ⟨found, middle, hfound, hlast⟩ := exists_of_outcome_bind (Prod.ext h rfl)
    obtain ⟨c, rest, rfl, rfl, hc⟩ := isLocal_decodeOne _ _ _ _ _ _ _ hfound
    rw [outcome_bind_of_ok (outcome_position _),
      outcome_bind_of_ok (outcome_isExhausted _ _)] at hlast
    cases rest with
    | nil =>
        obtain ⟨heq, -⟩ := Prod.mk.injEq .. ▸ hlast
        obtain rfl := Except.ok.inj heq
        simpa using hc
    | cons octet rest => exact absurd (congrArg Prod.fst hlast) (by rintro ⟨⟩)
  · intro h
    rw [decodeAll, outcome_bind_of_ok h.outcome_nil, outcome_bind_of_ok (outcome_position _),
      outcome_bind_of_ok (outcome_isExhausted _ _)]
    rfl

theorem decode_eq_ok_iff (hcompiled : schema.compiled handle = .ok type) :
    schema.decode handle decoder octets = .ok value ↔
      ∃ form header content, octets = form ++ content ∧
        Header.IsForm decoder.rules 0 form header ∧
          (type.read decoder.rules ⟨header, none, decoder.maxDepth⟩).Reads form.length content
            value ∧ schema.accept handle value = .ok () := by
  have hone : (decodeOne schema handle decoder).Reads 0 octets value ↔ _ :=
    reads_decodeOne_iff hcompiled
  simp only [Nat.zero_add] at hone
  rw [← hone]
  exact decode_eq_ok_iff_reads

end Schema

end Asn1

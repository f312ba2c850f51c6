import Asn1.Proofs.CanonicalValues
import Asn1.Proofs.CompilationSteps
import Asn1.Proofs.TypeReading
import Asn1.Proofs.TypeWriting

namespace Asn1

open Read Source Results

theorem Header.IsForm.exists_size {position : Nat} {form : Octets} {header : Header}
    (h : Header.IsForm .der position form header) : ∃ size, header.length = .definite size := by
  obtain ⟨-, hfault, -⟩ := h
  cases hlength : header.length with
  | definite size => exact ⟨size, rfl⟩
  | indefinite =>
      rw [Header.fault?] at hfault
      split at hfault
      · simp [hlength, Length.isZero] at hfault
      · cases hconstructed : header.isConstructed <;>
          simp [hlength, hconstructed, Length.isIndefinite,
            EncodingRules.allowsIndefiniteConstructed] at hfault

namespace CompiledType

/-- What a type must be like for the octets of its values to be unique. -/
structure IsStrict (type : CompiledType) : Prop where
  ranges : ∀ constraint ∈ type.info.constraints, constraint.isRange = true
  ordered : ∀ layout, type.form = .collection layout → layout.kind ≠ .set
  alternatives : ∀ layout, type.form = .collection layout → layout.kind = .choice →
    ∀ component ∈ layout.components, component.default? = none

/-- Whether all types in a type are strict. -/
def IsStrictWithin (type : CompiledType) : Prop :=
  ∀ inner, type.Reaches inner → inner.IsStrict

theorem IsStrictWithin.of_mk {info : TypeInfo} {form : TypeForm CompiledType}
    (h : IsStrictWithin ⟨info, form⟩) :
    IsStrict ⟨info, form⟩ ∧ ∀ inner ∈ form.types, inner.IsStrictWithin :=
  forall_reaches_mk_iff.mp h

theorem IsStrictWithin.hasRangesOnly {type : CompiledType} (h : type.IsStrictWithin) :
    type.HasRangesOnly := by
  intro inner hreaches
  exact (h inner hreaches).ranges

/-- Whether values that are read from elements of a type are no references and, if they are
acceptable, canonical, and the elements are what is written for them. -/
def Restores (type : CompiledType) (values : NamedValues) (tag? : Option Tag) (depth : Nat) :
    Prop :=
  ∀ start form header position content value, Header.IsForm .der start form header →
    (type.read .der ⟨header, tag?, depth⟩).Reads position content value →
      value.isReference = false ∧ ∀ scope, type.accept values scope value = .ok () →
        type.Writes ⟨.der, true⟩ value tag? (form ++ content) ∧ type.IsCanonical value

section Forms

variable {info : TypeInfo} {values : NamedValues} {tag? : Option Tag} {depth : Nat}

theorem restores_builtin (builtin : Builtin) :
    Restores ⟨info, .builtin builtin⟩ values tag? (depth + 1) := by
  intro start form header position content value hform hreads
  rw [read_builtin] at hreads
  have hconstructed := isConstructed_eq_false_of_reads rfl rfl hreads
  obtain ⟨htag, hlength, -, hvalue⟩ := (reads_readBuiltin_primitive_iff hconstructed).mp hreads
  have hcontent := Builtin.isContent_of_decodeContent rfl hvalue
  have hreference : value.isReference = false := by
    cases hcontent <;> rfl
  refine ⟨hreference, fun scope _ => ⟨?_, isCanonical_builtin_iff.mpr hreference⟩⟩
  refine writes_builtin_iff.mpr (Encoder.builtin_eq_done_iff.mpr
    ⟨content, Builtin.encodeContent_of_isContent hcontent, .inl ⟨?_, ?_⟩⟩)
  · rintro ⟨⟨⟩, _⟩
  · obtain ⟨⟨tag, constructed⟩, length, _⟩ := header
    obtain rfl : tag = tag?.getD builtin.tag := htag
    obtain rfl : constructed = false := hconstructed
    obtain rfl : length = .definite content.length := hlength
    rw [Header.eq_octets_of_isForm rfl hform]
    rfl

theorem constructed_eq_done_of_isForm {tag : Tag} {start : Nat} {form content : Octets}
    {header : Header} (hform : Header.IsForm .der start form header) (htag : header.tag = tag)
    (hconstructed : header.isConstructed = true)
    (hlength : ∀ size, header.length = .definite size → content.length = size) {written : Written}
    (hwritten : written = .done content) :
    Encoder.constructed ⟨.der, true⟩ tag written = .done (form ++ content) := by
  obtain ⟨size, hdefinite⟩ := hform.exists_size
  obtain rfl := hlength size hdefinite
  rw [Encoder.constructed_eq_done_iff]
  refine ⟨content, hwritten, ?_⟩
  show form ++ content = headerOctets tag true (.definite content.length) ++ content
  rw [Header.eq_octets_of_isForm rfl hform]
  obtain ⟨⟨_, _⟩, _, _⟩ := header
  obtain rfl : _ = tag := htag
  obtain rfl : _ = true := hconstructed
  obtain rfl : _ = Length.definite content.length := hdefinite
  rfl

theorem isEnd_nil_of_isForm {start position : Nat} {form mark : Octets} {header : Header}
    (hform : Header.IsForm .der start form header)
    (hend : IsEnd .der (!header.length.isIndefinite) position mark) : mark = [] := by
  obtain ⟨size, hdefinite⟩ := hform.exists_size
  rw [hdefinite] at hend
  exact hend

theorem restores_alias {target : CompiledType} (htarget : target.Restores values tag? depth) :
    Restores ⟨info, .alias target⟩ values tag? (depth + 1) := by
  intro start form header position content value hform hreads
  rw [read_alias] at hreads
  obtain ⟨hreference, hwrites⟩ := htarget _ _ _ _ _ _ hform hreads
  refine ⟨hreference, fun scope haccept => ?_⟩
  obtain ⟨haccepts, -⟩ :=
    (accept_mk_iff_of_not_isReference (by rintro _ ⟨⟩) hreference).mp haccept
  rw [writes_alias_iff, isCanonical_alias_iff]
  exact hwrites _ haccepts

theorem restores_implicit {tag : Tag} {inner : CompiledType}
    (hinner : inner.Restores values (some (tag?.getD tag)) depth) :
    Restores ⟨info, .tagged tag .implicit inner⟩ values tag? (depth + 1) := by
  intro start form header position content value hform hreads
  rw [read_implicit] at hreads
  obtain ⟨hreference, hwrites⟩ := hinner _ _ _ _ _ _ hform hreads
  refine ⟨hreference, fun scope haccept => ?_⟩
  obtain ⟨haccepts, -⟩ :=
    (accept_mk_iff_of_not_isReference (by rintro _ ⟨⟩) hreference).mp haccept
  rw [writes_implicit_iff, isCanonical_tagged_iff]
  exact hwrites _ haccepts

theorem restores_explicit {tag : Tag} {inner : CompiledType}
    (hinner : inner.Restores values none depth) :
    Restores ⟨info, .tagged tag .explicit inner⟩ values tag? (depth + 1) := by
  intro start form header position content value hform hreads
  obtain ⟨htag, hconstructed, hlength, outerForm, outer, rest, mark, rfl, houter, -, hrest, hend⟩ :=
    reads_explicit_iff.mp hreads
  obtain rfl := isEnd_nil_of_isForm hform hend
  obtain ⟨hreference, hwrites⟩ := hinner _ _ _ _ _ _ houter hrest
  refine ⟨hreference, fun scope haccept => ?_⟩
  obtain ⟨haccepts, -⟩ :=
    (accept_mk_iff_of_not_isReference (by rintro _ ⟨⟩) hreference).mp haccept
  obtain ⟨hinnerWrites, hcanonical⟩ := hwrites _ haccepts
  rw [List.append_nil] at hlength ⊢
  exact ⟨writes_explicit_iff.mpr
    (constructed_eq_done_of_isForm hform htag hconstructed hlength hinnerWrites),
    isCanonical_tagged_iff.mpr hcanonical⟩

theorem exists_pieces_of_items {element : Component CompiledType}
    (helement : element.type.Restores values none depth) {scope : Scope} {position : Nat}
    {state : Unit} {octets : Octets} {items : List Value}
    (h : ReadsElements .der true (Decoder.readItem (element.map fun type => type.read .der) depth)
      position state octets items)
    (haccept : ∀ item ∈ items, element.type.accept values scope item = .ok ()) :
    ∃ pieces, octets = pieces.flatten ∧ List.Forall₂ (fun item piece =>
      element.type.Writes ⟨.der, true⟩ item none piece ∧ element.type.IsCanonical item)
        items pieces := by
  induction h with
  | nil hend =>
      obtain rfl : _ = [] := hend
      exact ⟨[], rfl, .nil⟩
  | cons hform _ hitem _ ih =>
      rw [List.forall_mem_cons] at haccept
      obtain ⟨hfirst, hrest⟩ := haccept
      obtain ⟨pieces, rfl, hpieces⟩ := ih hrest
      have hreads := (Decoder.reads_readItem_iff (isLocal_read element.type .der)).mp hitem
      refine ⟨_ :: pieces, ?_, .cons ((helement _ _ _ _ _ _ hform hreads).2 _ hfirst) hpieces⟩
      rw [List.flatten_cons, List.append_assoc]

theorem unknown_eq_done_of_reads {start position : Nat} {form content : Octets} {header : Header}
    {entry : String × Value} (hform : Header.IsForm .der start form header)
    (h : (Decoder.readUnknown .der header depth).Reads position content entry) :
    ∃ captured, entry.2 = .captured captured ∧
      Encoder.unknown ⟨.der, true⟩ (.captured captured) = .done (form ++ content) := by
  obtain ⟨size, hdefinite⟩ := hform.exists_size
  obtain ⟨copied, hcopied, rfl⟩ := Decoder.reads_readUnknown_iff.mp h
  obtain ⟨rfl, rfl⟩ := (Captured.reads_copyElement_iff_of_definite hdefinite).mp hcopied
  refine ⟨_, rfl, ?_⟩
  have hfront : Header.IsForm .der 0 form ⟨header.identifier, header.length, 0⟩ :=
    ⟨rfl, hform.2.1, hform.2.2⟩
  rw [← Header.eq_octets_of_isForm rfl hform]
  exact Encoder.unknown_captured_eq_done (Captured.ofOctets_of_isForm hfront hdefinite)

/-- Whether octets are what is written for an entry, and the entry one of a canonical value. -/
structure RestoresEntry (layout : Layout CompiledType) (entry : String × Value)
    (octets : Octets) : Prop where
  writes : WritesEntry layout ⟨.der, true⟩ entry octets
  canonical : ∀ component, layout.component? entry.1 = some component →
    component.default? ≠ some entry.2 ∧ component.type.IsCanonical entry.2

theorem restoresEntry_of_component {layout : Layout CompiledType}
    {component : Component CompiledType} {entry : String × Value}
    (hfind : layout.component? entry.1 = some component)
    (hdefault : component.default? ≠ some entry.2)
    {octets : Octets} (h : component.type.Writes ⟨.der, true⟩ entry.2 none octets ∧
      component.type.IsCanonical entry.2) : RestoresEntry layout entry octets := by
  refine ⟨?_, ?_⟩
  · rw [WritesEntry, hfind]
    exact h.1
  · intro other hother
    obtain rfl := Option.some.inj (hfind.symm.trans hother)
    exact ⟨hdefault, h.2⟩

/-- An entry for a captured element names no component, as no type accepts the element. -/
theorem restoresEntry_of_unknown {layout : Layout CompiledType}
    (htypes : ∀ component ∈ layout.components, component.type.IsRegular) {start position : Nat}
    {form content : Octets} {header : Header} {entry : String × Value} {scope : Scope}
    (hform : Header.IsForm .der start form header)
    (h : (Decoder.readUnknown .der header depth).Reads position content entry)
    (haccept : ∀ component, layout.component? entry.1 = some component →
      component.type.accept values scope entry.2 = .ok ()) :
    RestoresEntry layout entry (form ++ content) := by
  obtain ⟨captured, hvalue, hdone⟩ := unknown_eq_done_of_reads hform h
  rw [hvalue] at haccept
  have hnone := Layout.component?_eq_none_of_accept_captured htypes haccept
  refine ⟨?_, ?_⟩
  · rw [WritesEntry, hnone, hvalue]
    exact hdone
  · intro component hfind
    exact absurd (hnone.symm.trans hfind) (by rintro ⟨⟩)

theorem exists_pieces_of_entries {layout : Layout CompiledType} (hregular : layout.IsRegular)
    (htypes : ∀ component ∈ layout.components, component.type.IsRegular)
    (hrestores : ∀ component ∈ layout.components, component.type.Restores values none depth)
    {scope : Scope} {position : Nat} {previous? : Option Nat} {octets : Octets} {entries : Entries}
    (h : ReadsElements .der true
      (Decoder.readComponent .der (layout.map fun type => type.read .der) depth) position previous?
        octets entries)
    (haccept : ∀ entry ∈ entries, ∀ component, layout.component? entry.1 = some component →
      component.type.accept values scope entry.2 = .ok ()) :
    ∃ pieces, octets = pieces.flatten ∧ List.Forall₂ (RestoresEntry layout) entries pieces := by
  induction h with
  | nil hend =>
      obtain rfl : _ = [] := hend
      exact ⟨[], rfl, .nil⟩
  | @cons _ previous? _ form content _ header entry _ hform _ hentry _ ih =>
      rw [List.forall_mem_cons] at haccept
      obtain ⟨hfirst, hrest⟩ := haccept
      obtain ⟨pieces, rfl, hpieces⟩ := ih hrest
      refine ⟨(form ++ content) :: pieces, ?_, .cons ?_ hpieces⟩
      · rw [List.flatten_cons, List.append_assoc]
      · cases hmatch : layout.match? previous? header.tag with
        | some component =>
            obtain ⟨hname, -, hreads, hdefault⟩ := (reads_component_iff hmatch).mp hentry
            have hmem := Layout.mem_components_of_match? hmatch
            have hfind := hregular.component?_eq_some_iff.mpr ⟨hmem, hname.symm⟩
            exact restoresEntry_of_component hfind (hdefault rfl)
              ((hrestores component hmem _ _ _ _ _ _ hform hreads).2 _ (hfirst component hfind))
        | none =>
            obtain ⟨-, -, hunknown⟩ := (reads_unknown_iff hmatch).mp hentry
            exact restoresEntry_of_unknown htypes hform hunknown hfirst

/-- A collection value is canonical if its entries are, unless these have to be sorted. -/
theorem isCanonical_entries_of_restoresEntry {layout : Layout CompiledType}
    (hset : layout.kind ≠ .set) {entries : Entries} {pieces : List Octets}
    (h : List.Forall₂ (RestoresEntry layout) entries pieces) :
    IsCanonical ⟨info, .collection layout⟩ (.collection entries) := by
  refine isCanonical_entries_iff.mpr ⟨fun hkind => absurd hkind hset, ?_⟩
  intro entry hentry
  obtain ⟨piece, hpiece⟩ := forall₂_exists_iff.mp ⟨pieces, h⟩ entry hentry
  exact hpiece.canonical

theorem restores_list {layout : Layout CompiledType} {tag : Tag}
    (htag : layout.kind.tag? = some tag) (hlist : layout.kind.isList = true)
    (hregular : layout.IsRegular)
    (hrestores : ∀ component ∈ layout.components, component.type.Restores values none depth) :
    Restores ⟨info, .collection layout⟩ values tag? (depth + 1) := by
  intro start form header position content value hform hreads
  cases helement : layout.element? with
  | none => exact absurd helement (element?_ne_none_of_reads htag hlist hreads)
  | some element =>
      obtain ⟨htagHeader, hconstructed, hlength, items, rfl, helements⟩ :=
        (reads_list_iff htag hlist helement).mp hreads
      refine ⟨rfl, fun scope haccept => ?_⟩
      have hall := (TypeForm.accepts_list_iff hlist helement).mp
        (accepts_collection_of_accept hregular rfl haccept)
      obtain ⟨size, hdefinite⟩ := hform.exists_size
      rw [hdefinite] at helements
      obtain ⟨pieces, rfl, hpieces⟩ := exists_pieces_of_items
        (hrestores element (Layout.mem_components_of_element? helement)) helements hall
      have hcontent := (content_list_eq_done_iff hlist helement).mpr
        ⟨pieces, rfl, hpieces.imp fun _ _ => And.left⟩
      refine ⟨(writes_collection_iff htag).mpr
        (constructed_eq_done_of_isForm hform htagHeader hconstructed hlength hcontent),
        isCanonical_list_iff.mpr ?_⟩
      intro other hother item hitem
      obtain rfl : element = other := Option.some.inj (helement.symm.trans hother)
      obtain ⟨piece, -, hcanonical⟩ := forall₂_exists_iff.mp ⟨pieces, hpieces⟩ item hitem
      exact hcanonical

theorem restores_entries {layout : Layout CompiledType} {tag : Tag}
    (htag : layout.kind.tag? = some tag) (hlist : layout.kind.isList = false)
    (hset : layout.kind ≠ .set) (hregular : layout.IsRegular)
    (htypes : ∀ component ∈ layout.components, component.type.IsRegular)
    (hrestores : ∀ component ∈ layout.components, component.type.Restores values none depth) :
    Restores ⟨info, .collection layout⟩ values tag? (depth + 1) := by
  intro start form header position content value hform hreads
  obtain ⟨htagHeader, hconstructed, hlength, entries, rfl, helements⟩ :=
    (reads_entries_iff htag hlist).mp hreads
  refine ⟨rfl, fun scope haccept => ?_⟩
  obtain ⟨-, hall⟩ := (TypeForm.accepts_entries_iff hlist).mp
    (accepts_collection_of_accept hregular rfl haccept)
  obtain ⟨size, hdefinite⟩ := hform.exists_size
  rw [hdefinite] at helements
  obtain ⟨pieces, rfl, hpieces⟩ :=
    exists_pieces_of_entries hregular htypes hrestores helements hall
  have hcontent := (content_entries_eq_done_iff hlist).mpr
    ⟨pieces, rfl, hpieces.imp fun _ _ => RestoresEntry.writes⟩
  exact ⟨(writes_collection_iff htag).mpr
    (constructed_eq_done_of_isForm hform htagHeader hconstructed hlength hcontent),
    isCanonical_entries_of_restoresEntry hset hpieces⟩

theorem writes_choice_of_restoresEntry {layout : Layout CompiledType}
    (hkind : layout.kind = .choice) {name : String} {inner : Value} {octets : Octets}
    (h : RestoresEntry layout (name, inner) octets) :
    Writes ⟨info, .collection layout⟩ ⟨.der, true⟩ (.choice name inner) none octets ∧
      IsCanonical ⟨info, .collection layout⟩ (.choice name inner) := by
  exact ⟨(writes_choice_iff_entry hkind).mpr ⟨rfl, h.writes⟩,
    isCanonical_entries_of_restoresEntry (by simp [hkind]) (.cons h .nil)⟩

theorem restores_choice {layout : Layout CompiledType} (hkind : layout.kind = .choice)
    (hregular : layout.IsRegular)
    (htypes : ∀ component ∈ layout.components, component.type.IsRegular)
    (hdefaults : ∀ component ∈ layout.components, component.default? = none)
    (hrestores : ∀ component ∈ layout.components, component.type.Restores values none depth) :
    Restores ⟨info, .collection layout⟩ values tag? (depth + 1) := by
  intro start form header position content value hform hreads
  have hlist : layout.kind.isList = false := CollectionKind.isList_of_choice hkind
  cases tag? with
  | some tag =>
      rw [read_tagged_choice hkind] at hreads
      exact absurd hreads not_reads_failAt
  | none =>
      have hentry {name : String} {inner : Value} {scope : Scope}
          (haccept : accept ⟨info, .collection layout⟩ values scope (.choice name inner) =
            .ok ()) :=
        ((TypeForm.accepts_entries_iff hlist).mp
          (accepts_collection_of_accept hregular rfl haccept)).2 _ List.mem_cons_self
      cases hmatch : layout.componentByTag? header.tag with
      | some component =>
          obtain ⟨inner, rfl, hinner⟩ := (reads_choice_iff hkind hmatch).mp hreads
          have hmem : component ∈ layout.components := List.mem_of_find?_eq_some hmatch
          have hfind := hregular.component?_eq_some_iff.mpr ⟨hmem, rfl⟩
          refine ⟨rfl, fun scope haccept =>
            writes_choice_of_restoresEntry hkind ?_⟩
          exact restoresEntry_of_component hfind (by simp [hdefaults component hmem])
            ((hrestores component hmem _ _ _ _ _ _ hform hinner).2 _
              (hentry haccept component hfind))
      | none =>
          obtain ⟨-, name, inner, rfl, hunknown⟩ :=
            (reads_unknown_choice_iff hkind hmatch).mp hreads
          exact ⟨rfl, fun scope haccept => writes_choice_of_restoresEntry hkind
            (restoresEntry_of_unknown htypes hform hunknown (hentry haccept))⟩

end Forms

/-- Elements of a strict type are written as they were read. -/
theorem restores {type : CompiledType} (hregular : type.IsRegular) (hstrict : type.IsStrictWithin)
    (values : NamedValues) (tag? : Option Tag) (depth : Nat) :
    type.Restores values tag? depth := by
  induction type, tag?, depth using depthInduct with
  | zero type tag? =>
      intro start form header position content value _ hreads
      rw [read_zero] at hreads
      exact absurd hreads not_reads_failAt
  | builtin info builtin tag? depth => exact restores_builtin builtin
  | «alias» info target tag? depth ih =>
      have htarget := hregular.of_mk.2 target TypeForm.target_mem_types
      exact restores_alias (ih htarget (hstrict.of_mk.2 target TypeForm.target_mem_types))
  | implicit info tag inner tag? depth ih =>
      have hinner := hregular.of_mk.2 inner TypeForm.inner_mem_types
      exact restores_implicit (ih hinner (hstrict.of_mk.2 inner TypeForm.inner_mem_types))
  | explicit info tag inner tag? depth ih =>
      have hinner := hregular.of_mk.2 inner TypeForm.inner_mem_types
      exact restores_explicit
        (ih none depth hinner (hstrict.of_mk.2 inner TypeForm.inner_mem_types))
  | collection info layout tag? depth ih =>
      obtain ⟨hlayout, htypes⟩ := hregular.of_mk
      obtain ⟨hself, hinner⟩ := hstrict.of_mk
      have hregularLayout := hlayout layout rfl
      have hregularTypes (component) (hmem : component ∈ layout.components) :=
        htypes component.type (TypeForm.type_mem_types hmem)
      have hcomponents (component) (hmem : component ∈ layout.components) :=
        ih component hmem none depth (hregularTypes component hmem)
          (hinner _ (TypeForm.type_mem_types hmem))
      cases htag : layout.kind.tag? with
      | some tag =>
          cases hlist : layout.kind.isList with
          | true => exact restores_list htag hlist hregularLayout hcomponents
          | false =>
              exact restores_entries htag hlist (hself.ordered layout rfl) hregularLayout
                hregularTypes hcomponents
      | none =>
          have hkind := CollectionKind.tag?_eq_none_iff.mp htag
          exact restores_choice hkind hregularLayout hregularTypes
            (hself.alternatives layout rfl hkind) hcomponents

end CompiledType

namespace Schema

variable {schema : Schema} {handle : Handle} {type : CompiledType} {octets : Octets} {value : Value}
  {maxDepth : Nat}

theorem encode_of_decode (hconsistent : schema.Consistent)
    (hcompiled : schema.compiled handle = .ok type) (hstrict : type.IsStrictWithin)
    (hdecode : schema.decode handle ⟨.der, maxDepth⟩ octets = .ok value) :
    (schema.encode handle ⟨.der, true⟩ value).toExcept = .ok octets := by
  have hregular := hconsistent.isRegular hcompiled
  obtain ⟨form, header, content, rfl, hform, hreads, haccept⟩ :=
    (decode_eq_ok_iff hcompiled).mp hdecode
  rw [accept_eq_ok_iff hcompiled] at haccept
  obtain ⟨hreference, hrestores⟩ := CompiledType.restores hregular hstrict schema.values none
    maxDepth _ _ _ _ _ _ hform hreads
  obtain ⟨hwrites, hcanonical⟩ := hrestores _ haccept
  obtain ⟨result, hresult⟩ :
      ∃ result, type.canonicalize schema.values (.top schema.view) value = .ok result :=
    (CompiledType.accept_eq_ok_iff_exists_canonical hregular hstrict.hasRangesOnly).mp haccept
  obtain rfl := CompiledType.eq_of_canonicalize_of_isCanonical hregular hcanonical hresult
  have hcanonicalize : schema.canonicalize handle value = .ok ⟨value, false⟩ :=
    (canonicalize_eq_ok_iff hcompiled).mpr
      ⟨⟨value, NamedValues.resolve_of_not_isReference hreference⟩, hresult⟩
  exact (encode_eq_done_iff hcompiled hcanonicalize).mpr hwrites

/-- What is decoded under the distinguished rules is encoded as the same octets, so that no two
different encodings are decoded as one value. -/
theorem Reachable.encode_decode_eq_octets (hschema : schema.Reachable)
    (hcompiled : schema.compiled handle = .ok type) (hstrict : type.IsStrictWithin)
    (hdecode : schema.decode handle ⟨.der, maxDepth⟩ octets = .ok value) :
    (schema.encode handle ⟨.der, true⟩ value).toExcept = .ok octets ∧
      ∀ otherDepth others, schema.decode handle ⟨.der, otherDepth⟩ others = .ok value →
        others = octets := by
  have hencode := encode_of_decode hschema.consistent hcompiled hstrict hdecode
  refine ⟨hencode, ?_⟩
  intro otherDepth others hother
  exact Except.ok.inj
    ((encode_of_decode hschema.consistent hcompiled hstrict hother).symm.trans hencode)

/-- An element that the sequence does not know is captured, and written as it was. -/
theorem encode_decode_defaultedSequence :
    defaultedSequence.decode ⟨2⟩ ⟨.der, 2⟩ [0x30, 0x06, 0x02, 0x01, 0x05, 0x85, 0x01, 0x07] =
        .ok (.collection [("x", .integer ⟨5, by decide, by decide⟩),
          ((Tag.context 5).text, .captured ⟨⟨.context 5, false⟩, [0x85, 0x01, 0x07]⟩)]) ∧
      (defaultedSequence.encode ⟨2⟩ ⟨.der, true⟩
        (.collection [("x", .integer ⟨5, by decide, by decide⟩),
          ((Tag.context 5).text, .captured ⟨⟨.context 5, false⟩, [0x85, 0x01, 0x07]⟩)])).toExcept =
        .ok [0x30, 0x06, 0x02, 0x01, 0x05, 0x85, 0x01, 0x07] := by
  have hstrict : CompiledType.IsStrictWithin
      ⟨⟨⟨2⟩, none, []⟩, .collection defaultedLayout⟩ := by
    apply forall_reaches_defaultedLayout
    · refine ⟨by simp [CompiledType.info], ?_, ?_⟩
      · rintro _ ⟨⟩
        decide
      · rintro _ ⟨⟩ hkind
        exact absurd hkind (by decide)
    · exact ⟨by simp [CompiledType.info], by rintro _ ⟨⟩, by rintro _ ⟨⟩⟩
    · exact ⟨by simp [CompiledType.info], by rintro _ ⟨⟩, by rintro _ ⟨⟩⟩
  have hdecode : defaultedSequence.decode ⟨2⟩ ⟨.der, 2⟩
      [0x30, 0x06, 0x02, 0x01, 0x05, 0x85, 0x01, 0x07] =
        .ok (.collection [("x", .integer ⟨5, by decide, by decide⟩),
          ((Tag.context 5).text, .captured ⟨⟨.context 5, false⟩, [0x85, 0x01, 0x07]⟩)]) := rfl
  refine ⟨hdecode, ?_⟩
  exact (Reachable.encode_decode_eq_octets (reachable_extendedSequence _ _ _)
    compiled_defaultedSequence hstrict hdecode).1

end Schema

end Asn1

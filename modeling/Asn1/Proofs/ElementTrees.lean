import Asn1.Proofs.WrittenRules

/-!
What encoders write, as trees of elements. Encoders that hold content back and those that do not
write the same trees or fail for the same reason; they differ in the form of the length that
constructed elements have. Encoders for distinguished rules that hold nothing back write no
constructed elements at all.
-/

namespace Asn1

open Results

/-- An element that an encoder writes. Captured elements are leaves, whatever is in them. -/
inductive ElementTree
  | primitive (tag : Tag) (content : Octets)
  | constructed (tag : Tag) (elements : List ElementTree)
  | captured (element : Captured)

namespace ElementTree

def isConstructed : ElementTree → Bool
  | constructed _ _ => true
  | primitive _ _ | captured _ => false

mutual

/-- The octets of an element: either all constructed elements in it have definite length, or all
have indefinite length and an end-of-contents marker. -/
def octets (definite : Bool) : ElementTree → Octets
  | primitive tag content => primitiveElement tag content
  | constructed tag elements =>
    let content := octetsOfAll definite elements
    if definite then headerOctets tag true (.definite content.length) ++ content
    else headerOctets tag true .indefinite ++ content ++ Header.endOfContents
  | captured element => element.octets

def octetsOfAll (definite : Bool) : List ElementTree → Octets
  | [] => []
  | element :: rest => octets definite element ++ octetsOfAll definite rest

end

mutual

/-- The captured elements among the leaves. -/
def captures : ElementTree → List Captured
  | primitive _ _ => []
  | constructed _ elements => capturesOfAll elements
  | captured element => [element]

def capturesOfAll : List ElementTree → List Captured
  | [] => []
  | element :: rest => captures element ++ capturesOfAll rest

end

variable {definite : Bool} {elements rest : List ElementTree}

theorem octetsOfAll_append :
    octetsOfAll definite (elements ++ rest) =
      octetsOfAll definite elements ++ octetsOfAll definite rest := by
  induction elements with
  | nil => rfl
  | cons element elements ih => simp [octetsOfAll, ih]

theorem octetsOfAll_primitive {tag : Tag} {contents : List Octets} :
    octetsOfAll definite (contents.map (primitive tag)) =
      (contents.map (primitiveElement tag)).flatten := by
  induction contents with
  | nil => rfl
  | cons content contents ih => simp [octetsOfAll, octets, ih]

theorem capturesOfAll_append :
    capturesOfAll (elements ++ rest) = capturesOfAll elements ++ capturesOfAll rest := by
  induction elements with
  | nil => rfl
  | cons element elements ih => simp [capturesOfAll, ih]

theorem capturesOfAll_primitive {tag : Tag} {contents : List Octets} :
    capturesOfAll (contents.map (primitive tag)) = [] := by
  induction contents with
  | nil => rfl
  | cons content contents ih => simp [capturesOfAll, captures, ih]

theorem octetsOfAll_of_unconstructed {other : Bool}
    (h : ∀ element ∈ elements, element.isConstructed = false) :
    octetsOfAll definite elements = octetsOfAll other elements := by
  induction elements with
  | nil => rfl
  | cons element elements ih =>
      obtain ⟨hfirst, hrest⟩ := List.forall_mem_cons.mp h
      rw [octetsOfAll, octetsOfAll, ih hrest]
      cases element with
      | constructed => simp [isConstructed] at hfirst
      | primitive | captured => simp [octets]

end ElementTree

open ElementTree

/-- The elements to write for the value of a type; the tag, if there is one, replaces the type's
own. -/
abbrev ElementWriter := Value × Option Tag → Except EncodeError (List ElementTree)

namespace Encoder

variable (encoder : Encoder)

/-- Whether the rules allow constructed elements with the length that the encoder can give them. -/
def writesConstructed : Bool :=
  encoder.isDefinite || encoder.rules.allowsIndefiniteConstructed

def constructedElements (tag : Tag) (content : Except EncodeError (List ElementTree)) :
    Except EncodeError (List ElementTree) :=
  if encoder.writesConstructed then (fun elements => [.constructed tag elements]) <$> content
  else .error (.format (.ruleViolation .bufferingRequired))

def builtinElements (builtin : Builtin) (value : Value) (tag : Tag) :
    Except EncodeError (List ElementTree) :=
  match builtin.encodeContent encoder.rules value with
  | .error error => .error (.ofFormatError error)
  | .ok content =>
    if !encoder.rules.allowsDefiniteConstructed && builtin.isSegmentable &&
        EncodingRules.segmentLength < content.length then
      encoder.constructedElements tag <| .ok <|
        (segments EncodingRules.segmentLength content).map (.primitive .octetString)
    else .ok [.primitive tag content]

def unknownElements (value : Value) : Except EncodeError (List ElementTree) :=
  match value with
  | .captured element =>
    match encoder.rules.isRestricted, Captured.ofOctets encoder.rules element.octets with
    | true, .error _ => .error (.format (.ruleViolation .capturedValue))
    | _, _ => .ok [.captured element]
  | _ => .error (.value (.illegal (.unknownNotEncodable value.kind)))

def contentElements (layout : Layout ElementWriter) (value : Value) :
    Except EncodeError (List ElementTree) :=
  if layout.kind.isList then
    match layout.element?, value with
    | none, _ => .error (.value (.illegal .listWithoutElement))
    | some element, .list items =>
      List.flatten <$> items.mapM fun item => element.type (item, none)
    | some _, _ => .error (.value (.illegal (.listExpected value.kind)))
  else
    match value with
    | .collection entries => List.flatten <$> entries.mapM fun (name, value) =>
      match layout.component? name with
      | some component => component.type (value, none)
      | none => encoder.unknownElements value
    | _ => .error (.value (.illegal (.collectionExpected value.kind)))

/-- The elements to write for the value of a type in terms of those for the types it holds. -/
def elementsStep (_ : TypeInfo) (form : TypeForm ElementWriter) : ElementWriter
  | (value, tag?) =>
    match form with
    | .builtin builtin => encoder.builtinElements builtin value (tag?.getD builtin.tag)
    | .alias target => target (value, tag?)
    | .tagged tag .implicit inner => inner (value, some (tag?.getD tag))
    | .tagged tag .explicit inner =>
      encoder.constructedElements (tag?.getD tag) (inner (value, none))
    | .collection layout =>
      match layout.kind.tag?, tag? with
      | some tag, _ =>
        encoder.constructedElements (tag?.getD tag) (encoder.contentElements layout value)
      | none, some _ => .error (.value (.illegal .implicitlyTaggedChoice))
      | none, none => encoder.contentElements layout value

end Encoder

/-- The elements to write for a canonical value of a type. -/
def CompiledType.elements (type : CompiledType) (encoder : Encoder) : ElementWriter :=
  type.interpret encoder.elementsStep

/-- The elements to write for the canonical form of a value of a type. -/
def Schema.elements (schema : Schema) (handle : Handle) (encoder : Encoder) (value : Value) :
    Except EncodeError (List ElementTree) :=
  match schema.canonicalize handle value, schema.compiled handle with
  | .error error, _ => .error (.value error)
  | .ok _, .error error => .error (.value (.schema error))
  | .ok form, .ok type => type.elements encoder (form.value, none)

section Rendering

/-- Whether what has been written are the octets of elements, or writing has failed for the reason
that there are none. -/
inductive Written.Renders (definite : Bool) : Written → Except EncodeError (List ElementTree) → Prop
  | done (elements : List ElementTree) :
      Renders definite (.done (octetsOfAll definite elements)) (.ok elements)
  | fail (octets : Octets) (error : EncodeError) :
      Renders definite ⟨octets, some error⟩ (.error error)

namespace Written

variable {definite : Bool}

theorem Renders.toExcept_eq {written : Written} {elements? : Except EncodeError (List ElementTree)}
    (h : written.Renders definite elements?) :
    written.toExcept = octetsOfAll definite <$> elements? := by
  cases h <;> rfl

theorem Renders.single (element : ElementTree) :
    Renders definite (.done (element.octets definite)) (.ok [element]) := by
  have h : Renders definite _ (.ok [element]) := .done [element]
  rwa [octetsOfAll, octetsOfAll, List.append_nil] at h

theorem renders_concat {α : Type} {write : α → Written}
    {elements : α → Except EncodeError (List ElementTree)} {as : List α}
    (h : ∀ a ∈ as, (write a).Renders definite (elements a)) :
    (concat (as.map write)).Renders definite (List.flatten <$> as.mapM elements) := by
  induction as with
  | nil => exact .done []
  | cons a rest ih =>
      obtain ⟨hfirst, hrest⟩ := List.forall_mem_cons.mp h
      rw [List.map_cons, concat, List.mapM_cons]
      generalize write a = written, elements a = result at hfirst
      cases hfirst with
      | fail octets error => exact .fail octets error
      | done first =>
          have ih := ih hrest
          generalize concat (rest.map write) = written, rest.mapM elements = result at ih
          cases result with
          | error error =>
              cases ih with
              | fail octets => exact .fail _ error
          | ok lists =>
              cases ih
              show Renders definite
                (done (octetsOfAll definite first ++ octetsOfAll definite lists.flatten))
                (.ok (first ++ lists.flatten))
              rw [← octetsOfAll_append]
              exact .done _

end Written

namespace Encoder

open Written

variable {encoder : Encoder}

theorem renders_constructed {tag : Tag} {content : Written}
    {elements? : Except EncodeError (List ElementTree)}
    (h : content.Renders encoder.isDefinite elements?) :
    (encoder.constructed tag content).Renders encoder.isDefinite
      (encoder.constructedElements tag elements?) := by
  rw [constructed, constructedElements, writesConstructed]
  cases hdefinite : encoder.isDefinite with
  | true =>
      have hlength : (encoder.buffering && encoder.rules.allowsDefiniteConstructed) = true :=
        hdefinite
      rw [hdefinite] at h
      rw [if_pos hlength, Bool.true_or, if_pos rfl]
      cases h with
      | fail octets error => exact .fail [] error
      | done elements => exact .single (.constructed tag elements)
  | false =>
      have hlength : (encoder.buffering && encoder.rules.allowsDefiniteConstructed) ≠ true :=
        ne_true_of_eq_false hdefinite
      rw [hdefinite] at h
      rw [if_neg hlength, Bool.false_or]
      cases encoder.rules.allowsIndefiniteConstructed with
      | false => exact .fail [] _
      | true =>
          cases h with
          | fail octets error => exact .fail _ error
          | done elements => exact .single (.constructed tag elements)

theorem renders_builtin (builtin : Builtin) (value : Value) (tag : Tag) :
    (encoder.builtin builtin value tag).Renders encoder.isDefinite
      (encoder.builtinElements builtin value tag) := by
  rw [Encoder.builtin, builtinElements]
  cases builtin.encodeContent encoder.rules value with
  | error error => exact .fail [] _
  | ok content =>
      simp only
      split
      · have hsegments : Written.Renders encoder.isDefinite _ (.ok
            ((segments EncodingRules.segmentLength content).map (.primitive .octetString))) :=
          .done _
        rw [octetsOfAll_primitive] at hsegments
        rw [concat_segments]
        exact renders_constructed hsegments
      · exact .single (.primitive tag content)

theorem renders_unknown (value : Value) :
    (encoder.unknown value).Renders encoder.isDefinite (encoder.unknownElements value) := by
  cases value with
  | captured element =>
      rw [unknown, unknownElements]
      cases encoder.rules.isRestricted with
      | false => exact .single (.captured element)
      | true =>
          cases Captured.ofOctets encoder.rules element.octets with
          | error error => exact .fail [] _
          | ok captured => exact .single (.captured element)
  | _ => exact .fail [] _

end Encoder

namespace CompiledType

variable {encoder : Encoder} {layout : Layout CompiledType}

theorem renders_content
    (htypes : ∀ component ∈ layout.components, ∀ value tag?,
      (component.type.interpret encoder.step (value, tag?)).Renders encoder.isDefinite
        (component.type.elements encoder (value, tag?))) (value : Value) :
    (encoder.content (layout.map (interpret encoder.step)) value).Renders encoder.isDefinite
      (encoder.contentElements (layout.map (interpret encoder.elementsStep)) value) := by
  cases hlist : layout.kind.isList with
  | true =>
      unfold Encoder.content Encoder.contentElements
      rw [Layout.kind_map, Layout.kind_map, if_pos hlist, if_pos hlist, Layout.element?_map,
        Layout.element?_map]
      cases helement : layout.element? with
      | none => exact .fail [] _
      | some element =>
          cases value with
          | list items =>
              exact Written.renders_concat fun item _ =>
                htypes element (Layout.mem_components_of_element? helement) item none
          | _ => exact .fail [] _
  | false =>
      unfold Encoder.content Encoder.contentElements
      rw [Layout.kind_map, Layout.kind_map, if_neg (by simp [hlist]), if_neg (by simp [hlist])]
      cases value with
      | collection entries =>
          refine Written.renders_concat fun entry _ => ?_
          simp only [Layout.component?_map]
          cases hfind : layout.component? entry.1 with
          | none => exact Encoder.renders_unknown entry.2
          | some component =>
              exact htypes component (Layout.mem_components_of_component? hfind) entry.2 none
      | _ => exact .fail [] _

/-- What an encoder writes are the octets of the elements to write. -/
theorem renders_elements (type : CompiledType) (value : Value) (tag? : Option Tag) :
    (type.interpret encoder.step (value, tag?)).Renders encoder.isDefinite
      (type.elements encoder (value, tag?)) := by
  induction type using CompiledType.induct generalizing value tag? with
  | mk info form ih =>
      rw [elements, interpret_mk, interpret_mk]
      cases form with
      | builtin builtin => exact Encoder.renders_builtin builtin value _
      | «alias» target => exact ih target TypeForm.target_mem_types value tag?
      | tagged tag method inner =>
          cases method with
          | implicit => exact ih inner TypeForm.inner_mem_types value _
          | explicit =>
              exact Encoder.renders_constructed (ih inner TypeForm.inner_mem_types value none)
      | collection layout =>
          have hcontent : (encoder.content (layout.map (interpret encoder.step)) value).Renders
              encoder.isDefinite
              (encoder.contentElements (layout.map (interpret encoder.elementsStep)) value) :=
            renders_content
              (fun component hmem => ih component.type (TypeForm.type_mem_types hmem)) value
          simp only [TypeForm.map, Encoder.step, Encoder.elementsStep, Layout.kind_map]
          cases layout.kind.tag? with
          | some tag => exact Encoder.renders_constructed hcontent
          | none =>
              cases tag? with
              | some tag => exact .fail [] _
              | none => exact hcontent

end CompiledType

end Rendering

section Listing

variable {encoder : Encoder}

theorem Encoder.exists_constructed (hconstructs : encoder.writesConstructed = true) (tag : Tag)
    {content : Written} {c : Octets} (h : content = .done c) :
    ∃ octets, encoder.constructed tag content = .done octets := by
  rw [writesConstructed] at hconstructs
  simp only [constructed_eq_done_iff]
  cases hdefinite : encoder.isDefinite with
  | true => exact ⟨_, c, h, rfl⟩
  | false =>
      rw [hdefinite, Bool.false_or] at hconstructs
      exact ⟨_, c, h, hconstructs, rfl⟩

theorem Encoder.constructedElements_eq_ok_iff {tag : Tag}
    {content : Except EncodeError (List ElementTree)} {elements : List ElementTree} :
    encoder.constructedElements tag content = .ok elements ↔
      encoder.writesConstructed = true ∧
        ∃ inner, content = .ok inner ∧ elements = [.constructed tag inner] := by
  rw [constructedElements]
  cases encoder.writesConstructed with
  | true => rw [if_pos rfl, map_eq_ok_iff]; simp [eq_comm]
  | false => simp

namespace CompiledType

variable {info : TypeInfo} {layout : Layout CompiledType} {value : Value} {tag? : Option Tag}
  {elements : List ElementTree}

theorem elements_builtin (builtin : Builtin) :
    CompiledType.elements ⟨info, .builtin builtin⟩ encoder (value, tag?) =
      encoder.builtinElements builtin value (tag?.getD builtin.tag) := by
  rw [CompiledType.elements, interpret_mk]
  rfl

theorem elements_alias (target : CompiledType) :
    CompiledType.elements ⟨info, .alias target⟩ encoder (value, tag?) =
      target.elements encoder (value, tag?) := by
  rw [CompiledType.elements, interpret_mk]
  rfl

theorem elements_implicit (tag : Tag) (inner : CompiledType) :
    CompiledType.elements ⟨info, .tagged tag .implicit inner⟩ encoder (value, tag?) =
      inner.elements encoder (value, some (tag?.getD tag)) := by
  rw [CompiledType.elements, interpret_mk]
  rfl

theorem elements_explicit (tag : Tag) (inner : CompiledType) :
    CompiledType.elements ⟨info, .tagged tag .explicit inner⟩ encoder (value, tag?) =
      encoder.constructedElements (tag?.getD tag) (inner.elements encoder (value, none)) := by
  rw [CompiledType.elements, interpret_mk]
  rfl

theorem elements_collection_eq_ok_iff :
    CompiledType.elements ⟨info, .collection layout⟩ encoder (value, tag?) = .ok elements ↔
      (∃ tag, layout.kind.tag? = some tag ∧
        encoder.constructedElements (tag?.getD tag) (encoder.contentElements
          (layout.map (interpret encoder.elementsStep)) value) = .ok elements) ∨
      (layout.kind.tag? = none ∧ tag? = none ∧ encoder.contentElements
        (layout.map (interpret encoder.elementsStep)) value = .ok elements) := by
  rw [CompiledType.elements, interpret_mk]
  simp only [TypeForm.map, Encoder.elementsStep, Layout.kind_map]
  cases layout.kind.tag? with
  | some tag => simp
  | none => cases tag? <;> simp

/-- The elements to write for an entry of a collection. -/
def entryElements (layout : Layout CompiledType) (encoder : Encoder) (entry : String × Value) :
    Except EncodeError (List ElementTree) :=
  match layout.component? entry.1 with
  | some component => component.type.elements encoder (entry.2, none)
  | none => encoder.unknownElements entry.2

theorem contentElements_list_eq_ok_iff (hlist : layout.kind.isList = true) :
    encoder.contentElements (layout.map (interpret encoder.elementsStep)) value = .ok elements ↔
      ∃ element items pieces, layout.element? = some element ∧ value = .list items ∧
        elements = pieces.flatten ∧ List.Forall₂ (fun item piece =>
          element.type.elements encoder (item, none) = .ok piece) items pieces := by
  unfold Encoder.contentElements
  rw [Layout.kind_map, if_pos hlist, Layout.element?_map]
  cases layout.element? with
  | none => simp
  | some element =>
      cases value with
      | list items =>
          simp only [Option.map_some, map_eq_ok_iff, mapM_eq_ok_iff]
          constructor
          · rintro ⟨pieces, hpieces, rfl⟩
            exact ⟨element, items, pieces, rfl, rfl, rfl, hpieces⟩
          · rintro ⟨_, _, pieces, ⟨⟩, ⟨⟩, rfl, hpieces⟩
            exact ⟨pieces, hpieces, rfl⟩
      | _ => simp

theorem contentElements_entries_eq_ok_iff (hlist : layout.kind.isList = false) :
    encoder.contentElements (layout.map (interpret encoder.elementsStep)) value = .ok elements ↔
      ∃ entries pieces, value = .collection entries ∧ elements = pieces.flatten ∧
        List.Forall₂ (fun entry piece => entryElements layout encoder entry = .ok piece) entries
          pieces := by
  unfold Encoder.contentElements
  rw [Layout.kind_map, if_neg (by simp [hlist])]
  cases value with
  | collection entries =>
      have hentry (entry : String × Value) : (match
          (layout.map (interpret encoder.elementsStep)).component? entry.1 with
            | some component => component.type (entry.2, none)
            | none => encoder.unknownElements entry.2) = entryElements layout encoder entry := by
        rw [entryElements, Layout.component?_map]
        cases layout.component? entry.1 <;> rfl
      simp only [map_eq_ok_iff, mapM_eq_ok_iff]
      constructor
      · rintro ⟨pieces, hpieces, rfl⟩
        exact ⟨entries, pieces, rfl, rfl, hpieces.imp fun entry _ => (hentry entry).symm.trans⟩
      · rintro ⟨_, pieces, ⟨⟩, rfl, hpieces⟩
        exact ⟨pieces, hpieces.imp fun entry _ => (hentry entry).trans, rfl⟩
  | _ => simp

end CompiledType

end Listing

section Representing

variable {encoder : Encoder}

/-- Whether elements have the captured elements of a value as leaves and are constructed only if
that is allowed. -/
structure Value.IsRepresentedBy (value : Value) (constructs : Bool) (elements : List ElementTree) :
    Prop where
  captures : capturesOfAll elements = value.captures
  unconstructed : constructs = false → ∀ element ∈ elements, element.isConstructed = false

theorem Value.isRepresentedBy_list {constructs : Bool} {items : List Value}
    {pieces : List (List ElementTree)}
    (h : List.Forall₂ (IsRepresentedBy · constructs ·) items pieces) :
    (Value.list items).IsRepresentedBy constructs pieces.flatten := by
  constructor
  · rw [Value.captures]
    induction h with
    | nil => rfl
    | cons hfirst _ ih =>
        rw [List.flatten_cons, capturesOfAll_append, hfirst.captures, ih, itemCaptures]
  · intro hconstructs element hmem
    obtain ⟨piece, hpiece, helement⟩ := List.mem_flatten.mp hmem
    obtain ⟨item, -, hitem⟩ := forall₂_exists_of_mem h hpiece
    exact hitem.unconstructed hconstructs element helement

theorem Value.isRepresentedBy_collection {constructs : Bool} {entries : Entries}
    {pieces : List (List ElementTree)}
    (h : List.Forall₂ (fun entry piece => entry.2.IsRepresentedBy constructs piece) entries
      pieces) : (Value.collection entries).IsRepresentedBy constructs pieces.flatten := by
  constructor
  · rw [Value.captures]
    induction h with
    | nil => rfl
    | cons hfirst _ ih =>
        rw [List.flatten_cons, capturesOfAll_append, hfirst.captures, ih, entryCaptures]
  · intro hconstructs element hmem
    obtain ⟨piece, hpiece, helement⟩ := List.mem_flatten.mp hmem
    obtain ⟨entry, -, hentry⟩ := forall₂_exists_of_mem h hpiece
    exact hentry.unconstructed hconstructs element helement

namespace Encoder

theorem isRepresentedBy_constructed {value : Value} {tag : Tag}
    {content : Except EncodeError (List ElementTree)} {elements : List ElementTree}
    (h : encoder.constructedElements tag content = .ok elements)
    (hcontent : ∀ inner, content = .ok inner →
      value.IsRepresentedBy encoder.writesConstructed inner) :
    value.IsRepresentedBy encoder.writesConstructed elements := by
  obtain ⟨hconstructed, inner, hinner, rfl⟩ := constructedElements_eq_ok_iff.mp h
  refine ⟨?_, by simp [hconstructed]⟩
  simpa [capturesOfAll, captures] using (hcontent inner hinner).captures

theorem isRepresentedBy_builtin {builtin : Builtin} {value : Value} {tag : Tag}
    {elements : List ElementTree} (h : encoder.builtinElements builtin value tag = .ok elements) :
    value.IsRepresentedBy encoder.writesConstructed elements := by
  rw [builtinElements] at h
  cases hcontent : builtin.encodeContent encoder.rules value with
  | error error => simp [hcontent] at h
  | ok content =>
      have hcaptures := Builtin.captures_eq_nil hcontent
      simp only [hcontent] at h
      split at h
      · refine isRepresentedBy_constructed h fun inner hinner => ?_
        obtain rfl := Except.ok.inj hinner
        exact ⟨by rw [capturesOfAll_primitive, hcaptures], by simp [isConstructed]⟩
      · obtain rfl := Except.ok.inj h
        exact ⟨by simp [capturesOfAll, captures, hcaptures], by simp [isConstructed]⟩

theorem isRepresentedBy_unknown {value : Value} {elements : List ElementTree}
    (h : encoder.unknownElements value = .ok elements) :
    value.IsRepresentedBy encoder.writesConstructed elements := by
  cases value with
  | captured element =>
      have helements : elements = [.captured element] := by
        rw [unknownElements] at h
        split at h
        · simp at h
        · exact (Except.ok.inj h).symm
      subst helements
      exact ⟨rfl, by simp [isConstructed]⟩
  | _ => simp [unknownElements] at h

end Encoder

namespace CompiledType

theorem isRepresentedBy_content {layout : Layout CompiledType} {value : Value}
    {elements : List ElementTree}
    (htypes : ∀ component ∈ layout.components, ∀ {value elements},
      component.type.elements encoder (value, none) = .ok elements →
        value.IsRepresentedBy encoder.writesConstructed elements)
    (h : encoder.contentElements (layout.map (interpret encoder.elementsStep)) value =
      .ok elements) : value.IsRepresentedBy encoder.writesConstructed elements := by
  cases hlist : layout.kind.isList with
  | true =>
      obtain ⟨element, items, pieces, helement, rfl, rfl, hpieces⟩ :=
        (contentElements_list_eq_ok_iff hlist).mp h
      exact Value.isRepresentedBy_list (hpieces.imp fun _ _ =>
        htypes element (Layout.mem_components_of_element? helement))
  | false =>
      obtain ⟨entries, pieces, rfl, rfl, hpieces⟩ := (contentElements_entries_eq_ok_iff hlist).mp h
      refine Value.isRepresentedBy_collection (hpieces.imp fun entry piece hpiece => ?_)
      rw [entryElements] at hpiece
      cases hfind : layout.component? entry.1 with
      | none =>
          rw [hfind] at hpiece
          exact Encoder.isRepresentedBy_unknown hpiece
      | some component =>
          rw [hfind] at hpiece
          exact htypes component (Layout.mem_components_of_component? hfind) hpiece

theorem isRepresentedBy_elements (type : CompiledType) {value : Value} {tag? : Option Tag}
    {elements : List ElementTree} (h : type.elements encoder (value, tag?) = .ok elements) :
    value.IsRepresentedBy encoder.writesConstructed elements := by
  induction type using formInduct generalizing value tag? elements with
  | builtin info builtin =>
      rw [elements_builtin] at h
      exact Encoder.isRepresentedBy_builtin h
  | «alias» info target ih =>
      rw [elements_alias] at h
      exact ih h
  | tagged info tag method inner ih =>
      cases method with
      | implicit =>
          rw [elements_implicit] at h
          exact ih h
      | explicit =>
          rw [elements_explicit] at h
          exact Encoder.isRepresentedBy_constructed h fun _ => ih
  | collection info layout ih =>
      obtain ⟨tag, -, h⟩ | ⟨-, -, h⟩ := elements_collection_eq_ok_iff.mp h
      · exact Encoder.isRepresentedBy_constructed h fun _ =>
          isRepresentedBy_content fun component hmem => ih component hmem
      · exact isRepresentedBy_content (fun component hmem => ih component hmem) h

end CompiledType

end Representing

section Distinguished

/-- Whatever content distinguished rules allow for a value, other rules allow as well. -/
theorem Builtin.encodeContent_of_der {builtin : Builtin} {value : Value} {content : Octets}
    (h : builtin.encodeContent .der value = .ok content) (rules : EncodingRules) :
    builtin.encodeContent rules value = .ok content := by
  cases value with
  | text string =>
      have htext : builtin.isText = true := by
        cases builtin <;> first | rfl | simp [encodeContent, isText] at h
      rw [encodeContent_text htext] at h ⊢
      cases rules with
      | ber =>
          split at h
          · contradiction
          · exact h
      | cer | der => exact h
  | _ => cases builtin <;> exact h

variable {buffering : Bool} {encoder : Encoder}

namespace Encoder

theorem constructedElements_of_der (hdefinite : encoder.isDefinite = true) {tag : Tag}
    {content other : Except EncodeError (List ElementTree)} {elements : List ElementTree}
    (hcontent : ∀ inner, content = .ok inner → other = .ok inner)
    (h : constructedElements ⟨.der, buffering⟩ tag content = .ok elements) :
    encoder.constructedElements tag other = .ok elements := by
  obtain ⟨-, inner, hinner, rfl⟩ := constructedElements_eq_ok_iff.mp h
  refine constructedElements_eq_ok_iff.mpr ⟨?_, inner, hcontent inner hinner, rfl⟩
  simp [writesConstructed, hdefinite]

theorem builtinElements_of_der (hdefinite : encoder.isDefinite = true) {builtin : Builtin}
    {value : Value} {tag : Tag} {elements : List ElementTree}
    (h : builtinElements ⟨.der, buffering⟩ builtin value tag = .ok elements) :
    encoder.builtinElements builtin value tag = .ok elements := by
  have hlength : encoder.rules.allowsDefiniteConstructed = true := by
    rw [isDefinite, Bool.and_eq_true] at hdefinite
    exact hdefinite.2
  rw [builtinElements] at h ⊢
  cases hcontent : builtin.encodeContent .der value with
  | error error => simp [hcontent] at h
  | ok content =>
      simp only [hcontent, EncodingRules.allowsDefiniteConstructed] at h
      simpa [Builtin.encodeContent_of_der hcontent encoder.rules, hlength] using h

theorem unknownElements_of_der (hdefinite : encoder.isDefinite = true) {value : Value}
    {elements : List ElementTree}
    (h : unknownElements ⟨.der, buffering⟩ value = .ok elements) :
    encoder.unknownElements value = .ok elements := by
  obtain ⟨rules, holding⟩ := encoder
  cases value with
  | captured element =>
      cases rules with
      | der => exact h
      | cer => simp [isDefinite, EncodingRules.allowsDefiniteConstructed] at hdefinite
      | ber =>
          rw [unknownElements] at h
          split at h
          · contradiction
          · exact h
  | _ => simp [unknownElements] at h

end Encoder

namespace CompiledType

theorem contentElements_of_der (hdefinite : encoder.isDefinite = true)
    {layout : Layout CompiledType}
    (htypes : ∀ component ∈ layout.components, ∀ {value elements},
      component.type.elements ⟨.der, buffering⟩ (value, none) = .ok elements →
        component.type.elements encoder (value, none) = .ok elements)
    {value : Value} {elements : List ElementTree}
    (h : Encoder.contentElements ⟨.der, buffering⟩
      (layout.map (interpret (Encoder.elementsStep ⟨.der, buffering⟩))) value = .ok elements) :
    encoder.contentElements (layout.map (interpret encoder.elementsStep)) value = .ok elements := by
  cases hlist : layout.kind.isList with
  | true =>
      obtain ⟨element, items, pieces, helement, rfl, rfl, hpieces⟩ :=
        (contentElements_list_eq_ok_iff hlist).mp h
      have hmem := Layout.mem_components_of_element? helement
      exact (contentElements_list_eq_ok_iff hlist).mpr ⟨element, items, pieces, helement, rfl, rfl,
        hpieces.imp fun _ _ => htypes element hmem⟩
  | false =>
      obtain ⟨entries, pieces, rfl, rfl, hpieces⟩ := (contentElements_entries_eq_ok_iff hlist).mp h
      refine (contentElements_entries_eq_ok_iff hlist).mpr ⟨entries, pieces, rfl, rfl,
        hpieces.imp fun entry piece hpiece => ?_⟩
      rw [entryElements] at hpiece ⊢
      cases hfind : layout.component? entry.1 with
      | none =>
          rw [hfind] at hpiece
          exact Encoder.unknownElements_of_der hdefinite hpiece
      | some component =>
          rw [hfind] at hpiece
          exact htypes component (Layout.mem_components_of_component? hfind) hpiece

theorem elements_of_der (hdefinite : encoder.isDefinite = true) (type : CompiledType)
    {value : Value} {tag? : Option Tag} {elements : List ElementTree}
    (h : type.elements ⟨.der, buffering⟩ (value, tag?) = .ok elements) :
    type.elements encoder (value, tag?) = .ok elements := by
  induction type using formInduct generalizing value tag? elements with
  | builtin info builtin =>
      rw [elements_builtin] at h ⊢
      exact Encoder.builtinElements_of_der hdefinite h
  | «alias» info target ih =>
      rw [elements_alias] at h ⊢
      exact ih h
  | tagged info tag method inner ih =>
      cases method with
      | implicit =>
          rw [elements_implicit] at h ⊢
          exact ih h
      | explicit =>
          rw [elements_explicit] at h ⊢
          exact Encoder.constructedElements_of_der hdefinite (fun _ => ih) h
  | collection info layout ih =>
      refine elements_collection_eq_ok_iff.mpr ?_
      obtain ⟨tag, htag, h⟩ | ⟨htag, hnone, h⟩ := elements_collection_eq_ok_iff.mp h
      · exact .inl ⟨tag, htag, Encoder.constructedElements_of_der hdefinite
          (fun _ => contentElements_of_der hdefinite fun component hmem => ih component hmem) h⟩
      · exact .inr ⟨htag, hnone,
          contentElements_of_der hdefinite (fun component hmem => ih component hmem) h⟩

end CompiledType

end Distinguished

namespace Schema

variable {schema : Schema} {handle : Handle} {value : Value} {encoder : Encoder}

theorem toExcept_encode_eq :
    (schema.encode handle encoder value).toExcept =
      octetsOfAll encoder.isDefinite <$> schema.elements handle encoder value := by
  rw [encode, elements]
  cases schema.canonicalize handle value with
  | error error => rfl
  | ok form =>
      cases schema.compiled handle with
      | error error => rfl
      | ok type => exact (type.renders_elements form.value none).toExcept_eq

theorem exists_form_of_elements {elements : List ElementTree}
    (h : schema.elements handle encoder value = .ok elements) :
    ∃ form, schema.canonicalize handle value = .ok form ∧
      form.value.IsRepresentedBy encoder.writesConstructed elements := by
  rw [Schema.elements] at h
  cases hform : schema.canonicalize handle value with
  | error error => simp [hform] at h
  | ok form =>
      cases hcompiled : schema.compiled handle with
      | error error => simp [hform, hcompiled] at h
      | ok type =>
          rw [hform, hcompiled] at h
          exact ⟨form, rfl, type.isRepresentedBy_elements h⟩

theorem elements_of_der {buffering : Bool} (hdefinite : encoder.isDefinite = true)
    {elements : List ElementTree}
    (h : schema.elements handle ⟨.der, buffering⟩ value = .ok elements) :
    schema.elements handle encoder value = .ok elements := by
  rw [Schema.elements] at h ⊢
  cases hform : schema.canonicalize handle value with
  | error error => simp [hform] at h
  | ok form =>
      cases hcompiled : schema.compiled handle with
      | error error => simp [hform, hcompiled] at h
      | ok type =>
          rw [hform, hcompiled] at h
          exact type.elements_of_der hdefinite h

/-- Whether encoders hold content back makes no difference under canonical rules. Under
distinguished rules those that do not hold it back succeed only if there is nothing constructed to
write, and then write what the others write. Under basic rules both write the same elements, all
constructed ones with definite or all with indefinite length, or fail for the same reason; held
back, the content is what distinguished rules write if they can. -/
theorem encoders_agree (schema : Schema) (handle : Handle) (value : Value) :
    (schema.encode handle ⟨.cer, false⟩ value).toExcept =
        (schema.encode handle ⟨.cer, true⟩ value).toExcept ∧
      (∀ octets, (schema.encode handle ⟨.der, false⟩ value).toExcept = .ok octets →
        (schema.encode handle ⟨.der, true⟩ value).toExcept = .ok octets ∧
          ∃ form elements, schema.canonicalize handle value = .ok form ∧
            capturesOfAll elements = form.value.captures ∧
            (∀ element ∈ elements, element.isConstructed = false) ∧
            octets = octetsOfAll true elements) ∧
      (∃ elements? : Except EncodeError (List ElementTree),
        (schema.encode handle ⟨.ber, true⟩ value).toExcept = octetsOfAll true <$> elements? ∧
          (schema.encode handle ⟨.ber, false⟩ value).toExcept = octetsOfAll false <$> elements? ∧
          ∀ elements, elements? = .ok elements →
            ∃ form, schema.canonicalize handle value = .ok form ∧
              capturesOfAll elements = form.value.captures) ∧
      ∀ octets, (schema.encode handle ⟨.der, true⟩ value).toExcept = .ok octets →
        (schema.encode handle ⟨.ber, true⟩ value).toExcept = .ok octets := by
  refine ⟨?_, ?_, ?_, ?_⟩
  · rw [toExcept_encode_eq, toExcept_encode_eq]
    rfl
  · intro octets h
    rw [toExcept_encode_eq, map_eq_ok_iff] at h
    obtain ⟨elements, helements, rfl⟩ := h
    obtain ⟨form, hform, hrepresented⟩ := exists_form_of_elements helements
    have hunconstructed := hrepresented.unconstructed rfl
    refine ⟨?_, form, elements, hform, hrepresented.captures, hunconstructed,
      octetsOfAll_of_unconstructed hunconstructed⟩
    rw [toExcept_encode_eq, elements_of_der rfl helements]
    exact congrArg Except.ok (octetsOfAll_of_unconstructed hunconstructed)
  · refine ⟨schema.elements handle ⟨.ber, true⟩ value, toExcept_encode_eq, toExcept_encode_eq, ?_⟩
    intro elements helements
    obtain ⟨form, hform, hrepresented⟩ := exists_form_of_elements helements
    exact ⟨form, hform, hrepresented.captures⟩
  · intro octets h
    rw [toExcept_encode_eq, map_eq_ok_iff] at h ⊢
    obtain ⟨elements, helements, rfl⟩ := h
    exact ⟨elements, elements_of_der rfl helements, rfl⟩

/-- Distinguished rules take a sequence only if its content is held back. -/
theorem encoders_agree_defaultedSequence :
    let value : Value := .collection [("b", .boolean true),
      ("x", .integer ⟨5, by decide, by decide⟩)]
    let octets : Octets := [0x30, 0x06, 0x01, 0x01, 0xff, 0x02, 0x01, 0x05]
    (defaultedSequence.encode ⟨2⟩ ⟨.der, false⟩ value).toExcept =
        .error (.format (.ruleViolation .bufferingRequired)) ∧
      (defaultedSequence.encode ⟨2⟩ ⟨.der, true⟩ value).toExcept = .ok octets ∧
      (defaultedSequence.encode ⟨2⟩ ⟨.ber, true⟩ value).toExcept = .ok octets := by
  intro value octets
  have hencode : (defaultedSequence.encode ⟨2⟩ ⟨.der, true⟩ value).toExcept = .ok octets := by
    decide +kernel
  refine ⟨?_, hencode, (encoders_agree defaultedSequence ⟨2⟩ value).2.2.2 octets hencode⟩
  decide +kernel

end Schema

end Asn1

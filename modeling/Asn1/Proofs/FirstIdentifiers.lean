import Asn1.Proofs.OnlyElements
import Asn1.Proofs.RoundTrip
import Asn1.Proofs.TypeComparison

/-!
The first identifier in the encoding of a value. The tag that is written or expected there is handed
down through aliases, tags and alternatives, while a schema finds the first tags of a type without
going through its values. They agree for all values but those of alternatives that are not known.
-/

namespace Asn1

open Read Source

/-- The tag of the identifier that octets start with, if they do. -/
def firstTag? (octets : Octets) : Option Tag :=
  match (Identifier.read?.outcome (ofOctets octets 0)).1 with
  | .ok (some identifier) => some identifier.tag
  | _ => none

theorem firstTag?_append (identifier : Identifier) (rest : Octets) :
    firstTag? (identifier.octets ++ rest) = some identifier.tag := by
  rw [firstTag?, Identifier.outcome_read?_eq_some_iff.mpr ⟨rest, rfl, rfl⟩]

theorem firstTag?_headerOctets (tag : Tag) (constructed : Bool) (length : Length) (rest : Octets) :
    firstTag? (headerOctets tag constructed length ++ rest) = some tag := by
  rw [headerOctets, List.append_assoc]
  exact firstTag?_append ⟨tag, constructed⟩ _

theorem firstTag?_of_isForm {rules : EncodingRules} {position : Nat} {form : Octets}
    {header : Header} (h : Header.IsForm rules position form header) (rest : Octets) :
    firstTag? (form ++ rest) = some header.tag := by
  obtain ⟨-, -, length, rfl, -⟩ := h
  rw [List.append_assoc]
  exact firstTag?_append header.identifier _

namespace Encoder

variable {encoder : Encoder} {tag : Tag} {octets : Octets}

theorem firstTag?_of_constructed {content : Written}
    (h : encoder.constructed tag content = .done octets) : firstTag? octets = some tag := by
  obtain ⟨c, -, hform⟩ := constructed_eq_done_iff.mp h
  split at hform
  · subst hform
    exact firstTag?_headerOctets _ _ _ _
  · obtain ⟨-, rfl⟩ := hform
    exact firstTag?_headerOctets _ _ _ _

theorem firstTag?_of_builtin {builtin : Builtin} {value : Value}
    (h : encoder.builtin builtin value tag = .done octets) : firstTag? octets = some tag := by
  obtain ⟨content, -, ⟨-, rfl⟩ | ⟨-, rfl⟩⟩ := builtin_eq_done_iff.mp h
  · exact firstTag?_headerOctets _ _ _ _
  · exact firstTag?_headerOctets _ _ _ _

end Encoder

namespace Layout

/-- The canonical form of a CHOICE value is that of the value of its alternative, unless that has a
default or is not known. -/
theorem CanonicalizesEntries.exists_alternative {layout : Layout CompiledType}
    {values : NamedValues} {scope : Scope} {value : Value} {form : CanonicalForm}
    (hkind : layout.kind = .choice)
    (hdefaults : ∀ component ∈ layout.components, component.default? = none)
    (h : layout.CanonicalizesEntries values scope value form) :
    ∃ name inner, value = .choice name inner ∧
      ∀ component, layout.component? name = some component →
        ∃ scope canonical, component.type.canonicalize values scope inner = .ok canonical ∧
          form.value = .choice name canonical.value := by
  obtain ⟨entries, results, rfl, hadmits, hresults, rfl⟩ := h
  obtain ⟨-, hlength⟩ := (admits_choice_iff hkind).mp hadmits
  obtain ⟨⟨name, inner⟩, rfl⟩ := List.length_eq_one_iff.mp hlength
  obtain ⟨result, rest, hresult, hrest, rfl⟩ := List.forall₂_cons_left_iff.mp hresults
  obtain rfl := List.forall₂_nil_left_iff.mp hrest
  refine ⟨name, inner, rfl, fun component hfind => ?_⟩
  rw [CanonicalizesEntry, hfind] at hresult
  obtain ⟨canonical, hcanonical, rfl⟩ := hresult
  have hdefault := hdefaults component (mem_components_of_component? hfind)
  refine ⟨_, canonical, hcanonical, ?_⟩
  rw [hdefault, hkind]
  rfl

end Layout

namespace CompiledType

def leadsToUnknownStep (values : NamedValues) (_ : TypeInfo) (form : TypeForm (Value → Prop))
    (value : Value) : Prop :=
  ∃ resolved, values.resolve value = .ok resolved ∧
    match form with
    | .builtin _ => False
    | .alias target => target resolved
    | .tagged _ _ _ => False
    | .collection layout => layout.kind = .choice ∧ ∃ name inner, resolved = .choice name inner ∧
        ∀ component, layout.component? name = some component → component.type inner

/-- Whether a value of an untagged CHOICE is of an alternative that is not known, or of a known one
that is an untagged CHOICE itself and whose value leads to such an alternative. -/
def LeadsToUnknown (type : CompiledType) (values : NamedValues) : Value → Prop :=
  type.interpret (leadsToUnknownStep values)

/-- Whether no alternative of a CHOICE in a type has a default. -/
def HasPlainAlternatives (type : CompiledType) : Prop :=
  ∀ inner, type.Reaches inner → ∀ layout, inner.form = .collection layout →
    layout.kind = .choice → ∀ component ∈ layout.components, component.default? = none

theorem HasPlainAlternatives.of_mk {info : TypeInfo} {form : TypeForm CompiledType}
    (h : HasPlainAlternatives ⟨info, form⟩) :
    (∀ layout, form = .collection layout → layout.kind = .choice →
      ∀ component ∈ layout.components, component.default? = none) ∧
      ∀ inner ∈ form.types, inner.HasPlainAlternatives :=
  forall_reaches_mk_iff.mp h

section Leading

variable {info : TypeInfo} {values : NamedValues} {value : Value}

theorem not_leadsToUnknown_tagged {tag : Tag} {method : TagMethod} {inner : CompiledType} :
    ¬LeadsToUnknown ⟨info, .tagged tag method inner⟩ values value := by
  rw [LeadsToUnknown, interpret_mk]
  rintro ⟨_, -, ⟨⟩⟩

theorem leadsToUnknown_alias_iff {target : CompiledType} :
    LeadsToUnknown ⟨info, .alias target⟩ values value ↔
      ∃ resolved, values.resolve value = .ok resolved ∧ target.LeadsToUnknown values resolved := by
  rw [LeadsToUnknown, interpret_mk]
  rfl

theorem leadsToUnknown_choice_iff {layout : Layout CompiledType} (hkind : layout.kind = .choice) :
    LeadsToUnknown ⟨info, .collection layout⟩ values value ↔
      ∃ name inner, values.resolve value = .ok (.choice name inner) ∧
        ∀ component, layout.component? name = some component →
          component.type.LeadsToUnknown values inner := by
  have hinner (name : String) (inner : Value) :
      (∀ component,
        (layout.map (interpret (leadsToUnknownStep values))).component? name = some component →
          component.type inner) ↔
        ∀ component, layout.component? name = some component →
          component.type.LeadsToUnknown values inner :=
    forall_component?_map_iff
  rw [LeadsToUnknown, interpret_mk]
  constructor
  · rintro ⟨_, hresolve, -, name, inner, rfl, h⟩
    exact ⟨name, inner, hresolve, (hinner name inner).mp h⟩
  · rintro ⟨name, inner, hresolve, h⟩
    exact ⟨_, hresolve, hkind, name, inner, rfl, (hinner name inner).mpr h⟩

theorem ChoosesUnknown.leadsToUnknown {type : CompiledType} (h : type.ChoosesUnknown value)
    (hregular : type.IsRegular) {scope : Scope}
    (haccept : type.accept values scope value = .ok ()) : type.LeadsToUnknown values value := by
  obtain ⟨hchoice, name, element, rfl⟩ := h
  have hresolve : values.resolve (.choice name (.captured element)) = .ok _ :=
    NamedValues.resolve_of_not_isReference rfl
  induction type using CompiledType.induct generalizing scope with
  | mk info form ih =>
      obtain ⟨hlayout, htypes⟩ := hregular.of_mk
      obtain ⟨haccepts, -⟩ := (accept_mk_iff_of_not_isReference hlayout rfl).mp haccept
      cases form with
      | builtin builtin =>
          rw [isUntaggedChoice_builtin] at hchoice
          contradiction
      | tagged tag method inner =>
          rw [isUntaggedChoice_tagged] at hchoice
          contradiction
      | «alias» target =>
          rw [isUntaggedChoice_alias] at hchoice
          have hmem : target ∈ (TypeForm.alias target).types := TypeForm.target_mem_types
          exact leadsToUnknown_alias_iff.mpr ⟨_, hresolve,
            ih target hmem (htypes _ hmem) hchoice haccepts⟩
      | collection layout =>
          rw [isUntaggedChoice_collection, decide_eq_true_eq] at hchoice
          obtain ⟨-, hentries⟩ := (TypeForm.accepts_entries_iff
            (CollectionKind.isList_of_choice hchoice)).mp haccepts
          have hnone := Layout.component?_eq_none_of_accept_captured
            (fun component hmem => htypes _ (TypeForm.type_mem_types hmem))
            (hentries _ List.mem_cons_self)
          refine (leadsToUnknown_choice_iff hchoice).mpr ⟨name, _, hresolve, ?_⟩
          intro component hfind
          rw [hnone] at hfind
          contradiction

end Leading

section Writing

variable {encoder : Encoder} {values : NamedValues} {scope : Scope} {value : Value}
  {form : CanonicalForm} {tag? : Option Tag} {octets : Octets}

/-- Nothing is written for a CHOICE value before its alternative. Neither that nor what it leads to
is unknown, as the CHOICE value would lead to it, too. -/
theorem exists_alternative_of_writes {info : TypeInfo} {layout : Layout CompiledType}
    (hkind : layout.kind = .choice)
    (halternatives : ∀ component ∈ layout.components, component.default? = none)
    {resolved : Value} (hresolve : values.resolve value = .ok resolved)
    (hcanonical : (TypeForm.collection layout).Canonicalizes values scope resolved form)
    (hknown : ¬LeadsToUnknown ⟨info, .collection layout⟩ values value)
    (h : Writes ⟨info, .collection layout⟩ encoder form.value tag? octets) :
    ∃ component ∈ layout.components, ∃ scope inner innerForm,
      component.type.canonicalize values scope inner = .ok innerForm ∧
        ¬component.type.LeadsToUnknown values inner ∧
          component.type.Writes encoder innerForm.value none octets := by
  rw [TypeForm.Canonicalizes, if_neg (by simp [hkind, CollectionKind.isList])] at hcanonical
  obtain ⟨name, inner, rfl, halternative⟩ := hcanonical.exists_alternative hkind halternatives
  have hchosen : ∃ component, layout.component? name = some component ∧
      ¬component.type.LeadsToUnknown values inner := by
    by_contra! hall
    exact hknown ((leadsToUnknown_choice_iff hkind).mpr ⟨name, inner, hresolve, hall⟩)
  obtain ⟨component, hfind, hcomponentKnown⟩ := hchosen
  obtain ⟨scope, innerForm, hinner, heq⟩ := halternative component hfind
  obtain ⟨-, hwrites⟩ := (writes_choice_iff_entry hkind).mp (heq ▸ h)
  rw [WritesEntry, hfind] at hwrites
  exact ⟨component, Layout.mem_components_of_component? hfind, scope, inner, innerForm, hinner,
    hcomponentKnown, hwrites⟩

/-- What is written for a canonical form starts with the tag that is handed down or, if there is
none, with one of the first tags of the type. -/
theorem exists_firstTag_of_writes {type : CompiledType} (hregular : type.IsRegular)
    (htags : type.HasFirstTags) (hplain : type.HasPlainAlternatives)
    (hform : type.canonicalize values scope value = .ok form)
    (hknown : tag? = none → ¬type.LeadsToUnknown values value)
    (h : type.Writes encoder form.value tag? octets) :
    ∃ tag ∈ (tag?.map fun tag => [tag]).getD type.firstTags, firstTag? octets = some tag := by
  induction type using CompiledType.induct generalizing scope value form tag? with
  | mk info form ih =>
      obtain ⟨hlayout, htypes⟩ := hregular.of_mk
      obtain ⟨hfirst, htypesTags⟩ := htags.of_mk
      obtain ⟨halternatives, htypesPlain⟩ := hplain.of_mk
      obtain ⟨resolved, canonical, hresolve, hcanonical, -, rfl⟩ :=
        (canonicalize_mk_iff hlayout).mp hform
      cases form with
      | builtin builtin =>
          rw [firstTags_builtin]
          exact ⟨_, getD_mem_tags tag? builtin.tag,
            Encoder.firstTag?_of_builtin (writes_builtin_iff.mp h)⟩
      | «alias» target =>
          have hmem : target ∈ (TypeForm.alias target).types := TypeForm.target_mem_types
          rw [firstTags_alias]
          exact ih target hmem (htypes _ hmem) (htypesTags _ hmem) (htypesPlain _ hmem) hcanonical
            (fun htag hleads => hknown htag (leadsToUnknown_alias_iff.mpr ⟨_, hresolve, hleads⟩))
            (writes_alias_iff.mp h)
      | tagged given method inner =>
          have hmem : inner ∈ (TypeForm.tagged given method inner).types :=
            TypeForm.inner_mem_types
          rw [firstTags_tagged]
          cases method with
          | implicit =>
              obtain ⟨tag, htag, htagFirst⟩ := ih inner hmem (htypes _ hmem) (htypesTags _ hmem)
                (htypesPlain _ hmem) hcanonical (by simp) (writes_implicit_iff.mp h)
              obtain rfl : tag = tag?.getD given := List.mem_singleton.mp htag
              exact ⟨_, getD_mem_tags tag? given, htagFirst⟩
          | explicit =>
              exact ⟨_, getD_mem_tags tag? given,
                Encoder.firstTag?_of_constructed (writes_explicit_iff.mp h)⟩
      | collection layout =>
          cases hown : layout.kind.tag? with
          | some own =>
              exact ⟨_, getD_mem_firstTags hown,
                Encoder.firstTag?_of_constructed ((writes_collection_iff hown).mp h)⟩
          | none =>
              have hkind := CollectionKind.tag?_eq_none_iff.mp hown
              obtain ⟨rfl, -⟩ := (writes_choice_iff hkind).mp h
              obtain ⟨component, hcomponent, scope, inner, form, hinner, hinnerKnown, hwrites⟩ :=
                exists_alternative_of_writes hkind (halternatives layout rfl hkind) hresolve
                  hcanonical (hknown rfl) h
              have hmem := TypeForm.type_mem_types hcomponent
              obtain ⟨tag, htag, htagFirst⟩ := ih component.type hmem (htypes _ hmem)
                (htypesTags _ hmem) (htypesPlain _ hmem) hinner (fun _ => hinnerKnown) hwrites
              rw [firstTags_collection, hown]
              refine ⟨tag, List.mem_flatMap.mpr ⟨component, hcomponent, ?_⟩, htagFirst⟩
              rwa [hfirst layout rfl component hcomponent]

end Writing

end CompiledType

namespace Schema

variable {schema : Schema} {handle : Handle} {type : CompiledType} {tags : List Tag}

/-- The encoding of a value starts with one of the tags that the schema finds for its type, both
where it is written and where it is read, unless the value is one of an alternative that is not
known to a CHOICE without a tag of its own. -/
theorem Reachable.firstTags_lead (hreachable : schema.Reachable)
    (hcompiled : schema.compiled handle = .ok type)
    (htags : schema.firstTags handle = .ok tags) (hplain : type.HasPlainAlternatives) :
    (∀ encoder value octets, (schema.encode handle encoder value).toExcept = .ok octets →
      ¬type.LeadsToUnknown schema.values value →
        ∃ tag ∈ tags, firstTag? octets = some tag) ∧
    ∀ decoder (source rest : Source) value, source.IsBounded →
      (schema.decodeOne handle decoder).outcome source = (.ok value, rest) ∨
        (schema.decodeAll handle decoder).outcome source = (.ok value, rest) →
      ¬type.LeadsToUnknown schema.values value →
        ∃ tag ∈ tags, firstTag? source.octets = some tag := by
  have hconsistent := hreachable.consistent
  have hregular := hconsistent.isRegular hcompiled
  obtain ⟨-, rfl⟩ := (hconsistent.firstTags_eq_ok_iff hcompiled).mp htags
  constructor
  · intro encoder value octets hencode hknown
    obtain ⟨form, hform⟩ := exists_form_of_encode hencode
    obtain ⟨-, htype⟩ := (canonicalize_eq_ok_iff hcompiled).mp hform
    exact CompiledType.exists_firstTag_of_writes hregular (hconsistent.hasFirstTags hcompiled)
      hplain htype (fun _ => hknown) ((encode_eq_done_iff hcompiled hform).mp hencode)
  · intro decoder source rest value hbounded hdecode hknown
    obtain ⟨last, hone⟩ : ∃ last,
        (schema.decodeOne handle decoder).outcome source = (.ok value, last) := by
      rcases hdecode with hone | hall
      · exact ⟨rest, hone⟩
      · obtain ⟨last, hone, -⟩ := exists_decodeOne_of_decodeAll hall
        exact ⟨last, hone⟩
    obtain ⟨octets, hoctets, hreads⟩ := exists_reads_of_outcome (isLocal_decodeOne _ _ _)
      (fun c => agrees_decodeOne c _ _ _) hbounded hone
    obtain ⟨form, header, content, rfl, hform, hcontent, haccept⟩ :=
      (reads_decodeOne_iff hcompiled).mp hreads
    obtain ⟨tag, hrecognizes, htag⟩ := CompiledType.recognizes_of_reads hcontent
    obtain rfl : header.tag = tag := htag
    refine ⟨header.tag, CompiledType.mem_firstTags_of_recognizes hrecognizes ?_, ?_⟩
    · -- A type recognizes other tags only where it captures what it does not know.
      intro hchooses
      exact hknown (hchooses.leadsToUnknown hregular ((accept_eq_ok_iff hcompiled).mp haccept))
    · rw [hoctets, List.append_assoc]
      exact firstTag?_of_isForm hform _

/-- A compiled CHOICE, one of whose alternatives is an alias of another CHOICE, and a value of that.
-/
def nestedChoice : Schema :=
  let choice (extensionMarker : Bool) (components : List ComponentDeclaration) : Declaration :=
    ⟨.collection ⟨.choice, false, extensionMarker, [.components components], [], []⟩, []⟩
  let schema := (empty.add ⟨.builtin .integer, []⟩).2
  let schema := (schema.add ⟨.tagged (.context 0) .implicit (.handle ⟨0⟩), []⟩).2
  let schema := (schema.add
    (choice true [⟨"i", .handle ⟨0⟩, false, none⟩, ⟨"t", .handle ⟨1⟩, false, none⟩])).2
  let schema := (schema.add ⟨.alias (.handle ⟨2⟩), []⟩).2
  let schema := (schema.add ⟨.builtin .boolean, []⟩).2
  let schema := (schema.add
    (choice false [⟨"b", .handle ⟨4⟩, false, none⟩, ⟨"inner", .handle ⟨3⟩, false, none⟩])).2
  ((Schema.compile ⟨5⟩).outcome schema).2

theorem reachable_nestedChoice : nestedChoice.Reachable :=
  .compile (.add (.add (.add (.add (.add (.add .empty _) _) _) _) _) _) _

/-- The type of the CHOICE in it. -/
def nestedChoiceType : CompiledType :=
  let integer : CompiledType := ⟨⟨⟨0⟩, none, []⟩, .builtin .integer⟩
  let tagged : CompiledType := ⟨⟨⟨1⟩, none, []⟩, .tagged (.context 0) .implicit integer⟩
  let inner : CompiledType := ⟨⟨⟨2⟩, none, []⟩, .collection ⟨.choice, true,
    [⟨"i", 0, 1, false, none, .handle ⟨0⟩, integer, false, [.integer]⟩,
      ⟨"t", 1, 1, false, none, .handle ⟨1⟩, tagged, true, [.context 0]⟩]⟩⟩
  let boolean : CompiledType := ⟨⟨⟨4⟩, none, []⟩, .builtin .boolean⟩
  ⟨⟨⟨5⟩, none, []⟩, .collection ⟨.choice, false,
    [⟨"b", 0, 1, false, none, .handle ⟨4⟩, boolean, false, [.boolean]⟩,
      ⟨"inner", 1, 1, false, none, .handle ⟨3⟩, ⟨⟨⟨3⟩, none, []⟩, .alias inner⟩, false,
        [.integer, .context 0]⟩]⟩⟩

theorem compiled_nestedChoice : nestedChoice.compiled ⟨5⟩ = .ok nestedChoiceType := by
  apply compiled_of_hasCompiled
  decide +kernel

theorem firstTags_lead_nestedChoice :
    let value : Value := .choice "inner" (.choice "t" (.integer ⟨5, by decide, by decide⟩))
    let octets : Octets := [0x80, 0x01, 0x05]
    let tags : List Tag := [.boolean, .integer, .context 0]
    nestedChoice.firstTags ⟨5⟩ = .ok tags ∧
      (nestedChoice.encode ⟨5⟩ ⟨.cer, true⟩ value).toExcept = .ok octets ∧
        (∃ tag ∈ tags, firstTag? octets = some tag) ∧
      (nestedChoice.decodeOne ⟨5⟩ ⟨.der, 8⟩).outcome (ofOctets (octets ++ [0x00]) 0) =
          (.ok value, ofOctets [0x00] 3) ∧
        ∃ tag ∈ tags, firstTag? (octets ++ [0x00]) = some tag := by
  intro value octets tags
  have htags : nestedChoice.firstTags ⟨5⟩ = .ok tags := by decide +kernel
  have hencode : (nestedChoice.encode ⟨5⟩ ⟨.cer, true⟩ value).toExcept = .ok octets := by
    decide +kernel
  have hdecode : (nestedChoice.decodeOne ⟨5⟩ ⟨.der, 8⟩).outcome (ofOctets (octets ++ [0x00]) 0) =
      (.ok value, ofOctets [0x00] 3) := by decide +kernel
  have hplain : nestedChoiceType.HasPlainAlternatives := by
    rw [nestedChoiceType, CompiledType.HasPlainAlternatives, CompiledType.forall_reaches_mk_iff]
    simp [CompiledType.forall_reaches_mk_iff, TypeForm.types, CompiledType.form]
  -- The alternative and, through the alias, that of the inner CHOICE are both known.
  have hknown : ¬nestedChoiceType.LeadsToUnknown nestedChoice.values value := by
    unfold value
    intro h
    obtain ⟨_, _, heq, h⟩ := (CompiledType.leadsToUnknown_choice_iff rfl).mp h
    cases heq
    obtain ⟨_, heq, h⟩ := CompiledType.leadsToUnknown_alias_iff.mp (h _ rfl)
    cases heq
    obtain ⟨_, _, heq, h⟩ := (CompiledType.leadsToUnknown_choice_iff rfl).mp h
    cases heq
    exact CompiledType.not_leadsToUnknown_tagged (h _ rfl)
  obtain ⟨hwritten, hread⟩ :=
    reachable_nestedChoice.firstTags_lead compiled_nestedChoice htags hplain
  exact ⟨htags, hencode, hwritten _ _ _ hencode hknown, hdecode,
    hread _ _ _ _ (isBounded_ofOctets _ _) (.inl hdecode) hknown⟩

end Schema

end Asn1

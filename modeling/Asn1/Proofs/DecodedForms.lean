import Asn1.Proofs.CanonicalValues
import Asn1.Proofs.CompilationSteps
import Asn1.Proofs.Recognition

/-!
The canonical form of what was decoded, traced back to the elements that it was read from. What
stays in the form of a collection was read from an element as a value of the component that it
names, or captured.
-/

namespace Asn1

open Read Results

namespace CompiledType

theorem exists_canonical_of_reads {info : TypeInfo} {form : TypeForm CompiledType}
    (hregular : IsRegular ⟨info, form⟩) {rules : EncodingRules} {header : Header}
    {tag? : Option Tag} {depth position : Nat} {octets : Octets} {value : Value}
    (hreads : (read ⟨info, form⟩ rules ⟨header, tag?, depth⟩).Reads position octets value)
    {values : NamedValues} {scope : Scope} {result : CanonicalForm}
    (h : canonicalize ⟨info, form⟩ values scope value = .ok result) :
    ∃ canonical, form.Canonicalizes values (scope.typed info.handle info.description) value
        canonical ∧ result.value = canonical.value ∧
      ∀ scope, accept ⟨info, form⟩ values scope canonical.value = .ok () →
        form.Accepts values (scope.typed info.handle info.description) canonical.value := by
  obtain ⟨hlayout, -⟩ := hregular.of_mk
  have hcanonical := (isCanonical_of_canonicalize hregular h).isReference
  obtain ⟨resolved, canonical, hresolve, hform, -, rfl⟩ := (canonicalize_mk_iff hlayout).mp h
  obtain rfl := NamedValues.eq_of_resolve (isReference_of_reads hreads) hresolve
  refine ⟨canonical, hform, rfl, fun scope haccept => ?_⟩
  exact ((accept_mk_iff_of_not_isReference hlayout hcanonical).mp haccept).1

variable {info : TypeInfo} {layout : Layout CompiledType} {rules : EncodingRules} {depth : Nat}
  {header : Header} {values : NamedValues} {scope : Scope}

section Entries

variable {entry : String × Value}

/-- How an entry of a collection was read from the element with the header. -/
inductive ReadsEntry (layout : Layout CompiledType) (rules : EncodingRules) (depth : Nat)
    (header : Header) (entry : String × Value) : Prop
  | component {component : Component CompiledType} {position : Nat} {octets : Octets}
    (hfind : layout.component? entry.1 = some component)
    (hreads : (component.type.read rules ⟨header, none, depth⟩).Reads position octets entry.2)
  | unknown {position : Nat} {octets : Octets}
    (hreads : (Decoder.readUnknown rules header depth).Reads position octets entry)

theorem readsEntry_of_readComponent {rules : EncodingRules} (hregular : layout.IsRegular)
    {previous? next? : Option Nat} {position : Nat} {octets : Octets}
    (h : (Decoder.readComponent rules (layout.map fun type => type.read rules) depth previous?
      header).Reads position octets (entry, next?)) :
    ReadsEntry layout rules depth header entry := by
  cases hmatch : layout.match? previous? header.tag with
  | some component =>
      obtain ⟨hname, -, hreads, -⟩ := (reads_component_iff hmatch).mp h
      have hmem := Layout.mem_components_of_match? hmatch
      exact .component (hregular.component?_eq_some_iff.mpr ⟨hmem, hname.symm⟩) hreads
  | none =>
      obtain ⟨-, -, hunknown⟩ := (reads_unknown_iff hmatch).mp h
      exact .unknown hunknown

/-- What an entry that stays in the canonical form was read as from the element with the header. -/
inductive StemsFrom (layout : Layout CompiledType) (rules : EncodingRules) (depth : Nat)
    (values : NamedValues) (scope : Scope) (header : Header) (entry : String × Value) : Prop
  | component {component : Component CompiledType} {position : Nat} {octets : Octets}
    {source : Value} {form : CanonicalForm} (hfind : layout.component? entry.1 = some component)
    (hreads : (component.type.read rules ⟨header, none, depth⟩).Reads position octets source)
    (hcanonical : component.type.canonicalize values scope source = .ok form)
    (hvalue : form.value = entry.2)
  | unknown {position : Nat} {octets : Octets} (hnone : layout.component? entry.1 = none)
    (hreads : (Decoder.readUnknown rules header depth).Reads position octets entry)

variable (hregular : ∀ component ∈ layout.components, component.type.IsRegular)
  (hranges : ∀ component ∈ layout.components, component.type.HasRangesOnly)
include hregular hranges

/-- What was captured conforms to no type, although its name may be that of a component. -/
theorem ReadsEntry.exists_reads (h : ReadsEntry layout rules depth header entry)
    {component : Component CompiledType} (hfind : layout.component? entry.1 = some component)
    {form : CanonicalForm}
    (hcanonical : component.type.canonicalize values scope entry.2 = .ok form) :
    ∃ position octets,
      (component.type.read rules ⟨header, none, depth⟩).Reads position octets entry.2 := by
  cases h with
  | component hother hreads =>
      obtain rfl := Option.some.inj (hfind.symm.trans hother)
      exact ⟨_, _, hreads⟩
  | unknown hreads =>
      obtain ⟨copied, -, rfl⟩ := Decoder.reads_readUnknown_iff.mp hreads
      have hmem := Layout.mem_components_of_component? hfind
      have haccept : component.type.accept values scope
          (.captured ⟨header.identifier, copied⟩) = .ok () :=
        (accept_eq_ok_iff_exists_canonical (hregular component hmem)
          (hranges component hmem)).mpr ⟨form, hcanonical⟩
      exact absurd haccept (not_accept_captured (hregular component hmem))

theorem exists_stemsFrom_of_kept {entries kept : Entries}
    (hkept : layout.IsKept values scope entries kept) {p : Header → Prop}
    (hentries : ∀ entry ∈ entries, ∃ header, p header ∧
      ReadsEntry layout rules depth header entry) :
    ∀ entry ∈ kept, ∃ header, p header ∧
      StemsFrom layout rules depth values scope header entry := by
  intro entry hentry
  cases hfind : layout.component? entry.1 with
  | some component =>
      obtain ⟨-, source, form, hsource, hcanonical, hvalue⟩ :=
        hkept.stems entry hentry component hfind
      obtain ⟨header, hp, hread⟩ := hentries _ hsource
      obtain ⟨position, octets, hreads⟩ :=
        hread.exists_reads hregular hranges hfind hcanonical
      exact ⟨header, hp, .component hfind hreads hcanonical hvalue⟩
  | none =>
      have hunknown : layout.isUnknown entry = true := by
        rw [Layout.isUnknown, hfind]
        rfl
      have hmem := hkept.unknown.subset (List.mem_filter.mpr ⟨hentry, hunknown⟩)
      obtain ⟨header, hp, hread⟩ := hentries entry (List.mem_of_mem_filter hmem)
      cases hread with
      | component hother _ => exact absurd (hfind.symm.trans hother) (by simp)
      | unknown hreads => exact ⟨header, hp, .unknown hfind hreads⟩

end Entries

/-- What a value of a collection type was read from, and what of it stays in its canonical form. -/
inductive ReadsForm (layout : Layout CompiledType) (rules : EncodingRules) (depth : Nat)
    (values : NamedValues) (header : Header) : Option Tag → Value → Value → Prop
  | list {tag? : Option Tag} {tag : Tag} {element : Component CompiledType} {definite : Bool}
    {position : Nat} {octets : Octets} {scope : Scope} {items : List Value}
    {forms : List CanonicalForm} (htag : layout.kind.tag? = some tag)
    (hlist : layout.kind.isList = true) (helement : layout.element? = some element)
    (helements : ReadsElements rules definite
      (Decoder.readItem (element.map fun type => type.read rules) depth) position () octets items)
    (hforms : List.Forall₂ (fun item form =>
      element.type.canonicalize values scope item = .ok form) items forms) :
    ReadsForm layout rules depth values header tag? (.list items)
      (.list (forms.map CanonicalForm.value))
  | entries {tag? : Option Tag} {tag : Tag} {scope : Scope} {entries kept : Entries}
    (htag : layout.kind.tag? = some tag) (hlist : layout.kind.isList = false)
    (hentries : ∀ entry ∈ entries, ∃ header,
      (header.isEndOfContents = false ∧ ∃ start outer, Header.IsForm rules start outer header) ∧
        ReadsEntry layout rules depth header entry)
    (hkept : layout.IsKept values scope entries kept) :
    ReadsForm layout rules depth values header tag? (.collection entries) (.collection kept)
  | choice {scope : Scope} {entry : String × Value} {kept : Entries}
    (hkind : layout.kind = .choice) (hentry : ReadsEntry layout rules depth header entry)
    (hkept : layout.IsKept values scope [entry] kept) :
    ReadsForm layout rules depth values header none (.collection [entry]) (.collection kept)

theorem readsForm_of_canonicalize (hregular : IsRegular ⟨info, .collection layout⟩)
    {tag? : Option Tag} {position : Nat} {octets : Octets} {value : Value}
    (hreads : (read ⟨info, .collection layout⟩ rules ⟨header, tag?, depth + 1⟩).Reads position
      octets value) {result : CanonicalForm}
    (h : canonicalize ⟨info, .collection layout⟩ values scope value = .ok result) :
    ReadsForm layout rules depth values header tag? value result.value := by
  have hlayout := hregular.of_mk.1 layout rfl
  obtain ⟨canonical, hcanonical, heq, -⟩ := exists_canonical_of_reads hregular hreads h
  rw [heq]
  rw [TypeForm.Canonicalizes] at hcanonical
  -- A CHOICE has no element of its own, so that its entry is read with the header that it is given.
  have hchoice {entry : String × Value} (hkind : layout.kind = .choice)
      (hentry : ReadsEntry layout rules depth header entry)
      (hcanonical : layout.CanonicalizesEntries values (scope.typed info.handle info.description)
        (.collection [entry]) canonical) :
      ReadsForm layout rules depth values header none (.collection [entry]) canonical.value := by
    obtain ⟨entries, kept, ⟨⟩, -, hvalue, hkept⟩ :=
      Layout.CanonicalizesEntries.exists_kept hcanonical
    rw [hvalue]
    exact .choice hkind hentry hkept
  cases readsCollection_of_reads hreads with
  | list htag hlist helement hheader helements =>
      rw [if_pos hlist] at hcanonical
      obtain ⟨element, items, forms, hother, ⟨⟩, hforms, rfl⟩ := hcanonical
      obtain rfl := Option.some.inj (helement.symm.trans hother)
      exact .list htag hlist helement helements hforms
  | entries htag hlist hheader helements =>
      rw [if_neg (by simp [hlist])] at hcanonical
      obtain ⟨entries, kept, ⟨⟩, -, hvalue, hkept⟩ :=
        Layout.CanonicalizesEntries.exists_kept hcanonical
      rw [hvalue]
      refine .entries htag hlist (fun entry hentry => ?_) hkept
      obtain ⟨start, outer, other, _, _, _, hform, hmark, hentryReads⟩ :=
        helements.exists_of_mem hentry
      exact ⟨other, ⟨hmark, start, outer, hform⟩, readsEntry_of_readComponent hlayout hentryReads⟩
  | alternative hkind hmatch hvalue =>
      rw [if_neg (by simp [hkind, CollectionKind.isList])] at hcanonical
      have hmem := Layout.mem_components_of_match?
        ((layout.match?_of_ne_sequence (by simp [hkind]) none _).trans hmatch)
      exact hchoice hkind (.component (hlayout.component?_eq_some_iff.mpr ⟨hmem, rfl⟩) hvalue)
        hcanonical
  | unknown hkind hmatch hallows hunknown =>
      rw [if_neg (by simp [hkind, CollectionKind.isList])] at hcanonical
      exact hchoice hkind (.unknown hunknown) hcanonical

end CompiledType

namespace Schema

theorem Reachable.exists_canonical_of_decode {schema : Schema} (hschema : schema.Reachable)
    {handle : Handle} {type : CompiledType} (hcompiled : schema.compiled handle = .ok type)
    (hranges : type.HasRangesOnly) {decoder : Decoder} {octets : Octets} {value : Value}
    (hdecode : schema.decode handle decoder octets = .ok value) :
    ∃ outer header content form, octets = outer ++ content ∧
      Header.IsForm decoder.rules 0 outer header ∧
      (type.read decoder.rules ⟨header, none, decoder.maxDepth⟩).Reads outer.length content value ∧
      type.accept schema.values (.top schema.view) value = .ok () ∧
      type.canonicalize schema.values (.top schema.view) value = .ok form ∧
      schema.canonicalize handle value = .ok form := by
  have hregular := hschema.consistent.isRegular hcompiled
  obtain ⟨outer, header, content, rfl, hheader, hreads, haccept⟩ :=
    (decode_eq_ok_iff hcompiled).mp hdecode
  rw [accept_eq_ok_iff hcompiled] at haccept
  obtain ⟨form, hform⟩ :
      ∃ form, type.canonicalize schema.values (.top schema.view) value = .ok form :=
    (CompiledType.accept_eq_ok_iff_exists_canonical hregular hranges).mp haccept
  refine ⟨outer, header, content, form, rfl, hheader, hreads, haccept, hform, ?_⟩
  refine (canonicalize_eq_ok_iff hcompiled).mpr ⟨⟨value, ?_⟩, hform⟩
  exact NamedValues.resolve_of_not_isReference (CompiledType.isReference_of_reads hreads)

end Schema

end Asn1

import Asn1.Proofs.InternalErrors
import Asn1.Proofs.SchemaConsistency
import Asn1.Proofs.TypeReading

namespace Asn1

open Results

/-- Whether an error is neither internal nor about the depth of nesting. -/
def FormatError.isPlain : FormatError → Bool
  | depthExceeded => false
  | error => !error.isInternal

def DecodeError.isPlain : DecodeError → Bool
  | format error _ => error.isPlain
  | source _ => true

theorem DecodeError.isInternal_of_isPlain {error : DecodeError} (h : error.isPlain = true) :
    error.isInternal = false := by
  cases error with
  | source reason => rfl
  | format error position =>
      change error.isInternal = false
      cases error <;> first | rfl | simpa [isPlain, FormatError.isPlain] using h

namespace Read

variable {α β : Type}

/-- Whether an operation, on any source, fails with plain errors only. -/
def IsPlain (operation : Read α) : Prop :=
  ∀ source, FailsWith (·.isPlain = true) (operation.outcome source).1

section Plain

variable {operation : Read α} {next : α → Read β}

theorem isPlain_pure (a : α) : (pure a : Read α).IsPlain := by
  intro _
  exact failsWith_ok a

theorem isPlain_throw {error : DecodeError} (h : error.isPlain = true) :
    (throw error : Read α).IsPlain := by
  intro _
  exact failsWith_error h

theorem isPlain_failAt {error : FormatError} (h : error.isPlain = true) (position : Nat) :
    (failAt error position : Read α).IsPlain := by
  intro _
  exact failsWith_error h

theorem IsPlain.bind (h : operation.IsPlain) (hnext : ∀ a, (next a).IsPlain) :
    (operation >>= next).IsPlain := by
  intro source
  have hsource := h source
  rw [outcome_bind]
  rcases houtcome : operation.outcome source with ⟨error | a, rest⟩
  · rw [houtcome] at hsource
    exact failsWith_error (hsource error rfl)
  · exact hnext a rest

theorem isPlain_ite {condition : Prop} [Decidable condition] {alternative : Read α}
    (h : operation.IsPlain) (halternative : alternative.IsPlain) :
    (if condition then operation else alternative).IsPlain := by
  split
  · exact h
  · exact halternative

theorem isPlain_get : (get : Read Source).IsPlain := by
  intro source
  exact failsWith_ok source

theorem isPlain_set (source : Source) : (set source : Read PUnit).IsPlain := by
  intro _
  exact failsWith_ok _

theorem isPlain_position : position.IsPlain := by
  intro source
  exact failsWith_ok source.position

theorem isPlain_consume (count : Nat) : (consume count).IsPlain := by
  intro _
  exact failsWith_ok _

theorem isPlain_checked {result : Except FormatError α}
    (h : FailsWith (·.isPlain = true) result) (position : Nat) :
    (checked result position).IsPlain := by
  cases result with
  | error error => exact isPlain_failAt (h error rfl) position
  | ok a => exact isPlain_pure a

theorem isPlain_request (count : Nat) : (request count).IsPlain := by
  refine isPlain_get.bind fun source => (isPlain_set _).bind fun _ => ?_
  simp only
  split
  · exact isPlain_ite (isPlain_throw rfl) (isPlain_pure _)
  · exact isPlain_pure _

theorem isPlain_takeOctets (count : Nat) : (takeOctets count).IsPlain := by
  refine IsPlain.bind ?_ fun _ => (isPlain_consume count).bind fun _ => isPlain_pure _
  refine (isPlain_request count).bind fun octets => ?_
  simp only
  exact isPlain_ite (isPlain_position.bind fun _ => isPlain_failAt rfl _) (isPlain_pure _)

theorem isPlain_takeOctet? : takeOctet?.IsPlain := by
  refine (isPlain_request 1).bind fun octets => ?_
  cases octets with
  | nil => exact isPlain_pure _
  | cons octet _ => exact (isPlain_consume 1).bind fun _ => isPlain_pure _

theorem isPlain_takeOctet : takeOctet.IsPlain := by
  refine isPlain_takeOctet?.bind fun octet? => ?_
  cases octet? with
  | none => exact isPlain_position.bind fun _ => isPlain_failAt rfl _
  | some octet => exact isPlain_pure _

theorem isPlain_isExhausted : isExhausted.IsPlain := by
  apply (isPlain_request 1).bind
  intro _
  exact isPlain_pure _

end Plain

/-- Whether an operation, on any source, gives a result with a property unless it fails, which it
never does with an internal error. -/
structure Yields (operation : Read α) (post : α → Prop) : Prop where
  result : ∀ source, match (operation.outcome source).1 with
    | .ok a => post a
    | .error error => error.isInternal = false

/-- Whether an operation never fails with an internal error. -/
abbrev IsSafe (operation : Read α) : Prop :=
  operation.Yields fun _ => True

variable {operation : Read α} {next : α → Read β} {post : α → Prop} {last : β → Prop}

theorem IsPlain.isSafe (h : operation.IsPlain) : operation.IsSafe := by
  refine ⟨fun source => ?_⟩
  split
  · trivial
  · next error herror => exact DecodeError.isInternal_of_isPlain (h source error herror)

theorem Yields.failsWith (h : operation.Yields post) (source : Source) :
    FailsWith (·.isInternal = false) (operation.outcome source).1 := by
  intro error herror
  have hsource := h.result source
  rwa [herror] at hsource

theorem yields_pure {a : α} (h : post a) : (pure a : Read α).Yields post :=
  ⟨fun _ => h⟩

theorem yields_throw {error : DecodeError} (h : error.isInternal = false) :
    (throw error : Read α).Yields post :=
  ⟨fun _ => h⟩

theorem yields_failAt {error : FormatError} (h : error.isInternal = false) (position : Nat) :
    (failAt error position : Read α).Yields post :=
  ⟨fun _ => h⟩

theorem Yields.bind (h : operation.Yields post) (hnext : ∀ a, post a → (next a).Yields last) :
    (operation >>= next).Yields last := by
  refine ⟨fun source => ?_⟩
  have hsource := h.result source
  rw [outcome_bind]
  rcases houtcome : operation.outcome source with ⟨error | a, rest⟩
  · rw [houtcome] at hsource
    exact hsource
  · rw [houtcome] at hsource
    exact (hnext a hsource).result rest

theorem yields_ite {condition : Prop} [Decidable condition] {alternative : Read α}
    (h : operation.Yields post) (halternative : alternative.Yields post) :
    (if condition then operation else alternative).Yields post := by
  split
  · exact h
  · exact halternative

theorem isSafe_get : (get : Read Source).IsSafe :=
  isPlain_get.isSafe

theorem isSafe_position : position.IsSafe :=
  isPlain_position.isSafe

theorem yields_checked {result : Except FormatError α}
    (hfails : FailsWith (·.isInternal = false) result) (hpost : ∀ a, result = .ok a → post a)
    (position : Nat) : (checked result position).Yields post := by
  cases result with
  | error error => exact yields_failAt (hfails error rfl) position
  | ok a => exact yields_pure (hpost a rfl)

theorem Yields.within (h : operation.Yields post) (octets : Octets) (position : Nat) :
    (within octets position operation).Yields post := by
  have hcontent := h.result (Source.ofOctets octets position)
  rw [Read.within]
  change match (operation.run (Source.ofOctets octets position)).1 with
    | .ok a => post a
    | .error error => error.isInternal = false at hcontent
  cases houtcome : (operation.run (Source.ofOctets octets position)).1 with
  | error error =>
      rw [houtcome] at hcontent
      exact yields_throw hcontent
  | ok a =>
      rw [houtcome] at hcontent
      exact yields_pure hcontent

theorem isSafe_takeOctets (count : Nat) : (takeOctets count).IsSafe :=
  (isPlain_takeOctets count).isSafe

theorem isSafe_isExhausted : isExhausted.IsSafe :=
  isPlain_isExhausted.isSafe

end Read

open Read

variable {rules : EncodingRules}

namespace Identifier

theorem isPlain_readGroups (start groups n : Nat) : (readGroups start groups n).IsPlain := by
  induction groups generalizing n with
  | zero => exact isPlain_failAt rfl start
  | succ groups ih =>
      refine isPlain_takeOctet.bind fun octet => ?_
      exact isPlain_ite (isPlain_pure _) (ih _)

theorem isPlain_readNumber (start : Nat) : (readNumber start).IsPlain := by
  refine isPlain_takeOctet.bind fun octet => ?_
  simp only [failAt_bind]
  refine isPlain_ite (isPlain_failAt rfl start) (isPlain_ite ?_ ?_)
  · exact isPlain_ite (isPlain_failAt rfl start) (isPlain_pure _)
  · refine (isPlain_readGroups start _ _).bind fun number => ?_
    exact isPlain_ite (isPlain_failAt rfl start) (isPlain_pure _)

theorem isPlain_read? : read?.IsPlain := by
  refine isPlain_position.bind fun start => isPlain_takeOctet?.bind fun octet? => ?_
  cases octet? with
  | none => exact isPlain_pure _
  | some octet =>
      exact isPlain_ite (isPlain_pure _)
        ((isPlain_readNumber start).bind fun _ => isPlain_pure _)

end Identifier

namespace Length

theorem isPlain_readSize (start count n : Nat) : (readSize start count n).IsPlain := by
  induction count generalizing n with
  | zero => exact isPlain_pure _
  | succ count ih =>
      refine isPlain_takeOctet.bind fun octet => ?_
      simp only [failAt_bind]
      exact isPlain_ite (isPlain_failAt rfl _) (ih _)

theorem isPlain_read (rules : EncodingRules) : (read rules).IsPlain := by
  refine isPlain_position.bind fun start => isPlain_takeOctet.bind fun octet => ?_
  simp only [failAt_bind]
  refine isPlain_ite (isPlain_pure _) (isPlain_ite (isPlain_pure _) ?_)
  refine isPlain_ite (isPlain_failAt rfl start) (isPlain_takeOctet.bind fun first => ?_)
  refine isPlain_ite (isPlain_failAt rfl start) ((isPlain_readSize _ _ _).bind fun size => ?_)
  exact isPlain_ite (isPlain_failAt rfl start) (isPlain_pure _)

end Length

namespace Header

theorem isPlain_of_fault? {header : Header} {error : FormatError}
    (h : header.fault? rules = some error) : error.isPlain = true := by
  rw [fault?] at h
  repeat' split at h
  all_goals first | contradiction | (obtain rfl := Option.some.inj h; rfl)

theorem isPlain_read? (rules : EncodingRules) : (read? rules).IsPlain := by
  refine isPlain_position.bind fun start => Identifier.isPlain_read?.bind fun identifier? => ?_
  cases identifier? with
  | none => exact isPlain_pure _
  | some identifier =>
      refine (Length.isPlain_read rules).bind fun length => ?_
      simp only
      split
      · next error hfault => exact isPlain_failAt (isPlain_of_fault? hfault) start
      · exact isPlain_pure _

theorem isPlain_read (rules : EncodingRules) : (read rules).IsPlain := by
  refine (isPlain_read? rules).bind fun header? => ?_
  cases header? with
  | none => exact isPlain_position.bind fun _ => isPlain_failAt rfl _
  | some header => exact isPlain_pure _

theorem isSafe_read (rules : EncodingRules) : (read rules).IsSafe :=
  (isPlain_read rules).isSafe

end Header

section Elements

theorem isPlain_nextHeader? (rules : EncodingRules) (definite : Bool) :
    (nextHeader? rules definite).IsPlain := by
  refine isPlain_position.bind fun start => (Header.isPlain_read? rules).bind fun header? => ?_
  cases header? with
  | none => exact isPlain_ite (isPlain_pure _) (isPlain_failAt rfl start)
  | some header =>
      exact isPlain_ite (isPlain_ite (isPlain_failAt rfl start) (isPlain_pure _))
        (isPlain_pure _)

theorem isSafe_nextHeader? (rules : EncodingRules) (definite : Bool) :
    (nextHeader? rules definite).IsSafe :=
  (isPlain_nextHeader? rules definite).isSafe

theorem isSafe_readElements {σ α : Type} {readElement : σ → Header → Read (α × σ)}
    (h : ∀ state header, (readElement state header).IsSafe) (definite : Bool) (state : σ) :
    (readElements rules definite readElement state).IsSafe := by
  have hwithin (count : Nat) (state : σ) :
      (readElementsWithin rules definite readElement count state).IsSafe := by
    induction count generalizing state with
    | zero => exact isSafe_position.bind fun _ _ => yields_failAt rfl _
    | succ count ih =>
        refine (isSafe_nextHeader? rules definite).bind fun header? _ => ?_
        cases header? with
        | none => exact yields_pure trivial
        | some header =>
            exact (h state header).bind fun _ _ => (ih _).bind fun _ _ => yields_pure trivial
  exact isSafe_get.bind fun _ _ => hwithin _ _

theorem isPlain_checkTag (header : Header) (expected : Tag) : (checkTag header expected).IsPlain :=
  isPlain_ite (isPlain_failAt rfl _) (isPlain_pure _)

theorem isSafe_checkTag (header : Header) (expected : Tag) : (checkTag header expected).IsSafe :=
  (isPlain_checkTag header expected).isSafe

theorem isPlain_primitiveSize (header : Header) : (primitiveSize header).IsPlain := by
  rw [primitiveSize]
  cases header.length with
  | definite size => exact isPlain_pure _
  | indefinite => exact isPlain_failAt rfl _

theorem yields_readConstructed {α : Type} {post : α → Prop} {readContent : Bool → Read α}
    (h : ∀ definite, (readContent definite).Yields post) (header : Header) :
    (readConstructed header readContent).Yields post := by
  rw [readConstructed]
  simp only [failAt_bind]
  refine yields_ite ?_ (yields_failAt rfl _)
  cases header.length with
  | definite size =>
      exact isSafe_position.bind fun start _ => (isSafe_takeOctets size).bind fun octets _ =>
        (h true).within octets start
  | indefinite => exact h false

end Elements

section Leaves

/-- Whether a value is an octet string. -/
def Value.IsOctetString : Value → Prop
  | .octetString _ => True
  | _ => False

theorem isPlain_decodeContent (builtin : Builtin) (octets : Octets) (start : Nat) :
    (checked (builtin.decodeContent rules octets) start).IsPlain := by
  refine isPlain_checked (failsWith_mapError (fun _ => ?_) _) start
  rfl

/-- A nested segment is an octet string. -/
theorem isSafe_readSegment {readNested : Header → Read Value}
    (h : ∀ header, (readNested header).Yields Value.IsOctetString) (short : Bool)
    (header : Header) : (readSegment rules readNested short header).IsSafe := by
  refine (isSafe_checkTag _ _).bind fun _ _ => ?_
  simp only [failAt_bind]
  refine yields_ite (yields_failAt rfl _) (yields_ite (yields_ite (yields_failAt rfl _) ?_) ?_)
  · refine (h header).bind fun value hvalue => ?_
    cases value with
    | octetString octets => exact yields_pure trivial
    | _ => exact hvalue.elim
  · refine (isPlain_primitiveSize header).isSafe.bind fun size _ => ?_
    refine yields_ite (yields_failAt rfl _) ?_
    exact (isSafe_takeOctets size).bind fun _ _ => yields_pure trivial

theorem isSafe_joinSegments {readNested : Header → Read Value}
    (h : ∀ header, (readNested header).Yields Value.IsOctetString) (definite : Bool) :
    (joinSegments rules readNested definite).IsSafe := by
  refine isSafe_position.bind fun start _ => ?_
  refine (isSafe_readElements (isSafe_readSegment h) definite false).bind fun segments _ => ?_
  simp only [failAt_bind]
  exact yields_ite (yields_failAt rfl start) (yields_pure trivial)

theorem isSafe_readSegments (rules : EncodingRules) (depth : Nat) (definite : Bool) :
    (readSegments rules depth definite).IsSafe := by
  induction depth generalizing definite with
  | zero => exact isSafe_joinSegments (fun _ => yields_failAt rfl _) definite
  | succ depth ih =>
      refine isSafe_joinSegments (yields_readConstructed fun definite => ?_) definite
      refine isSafe_position.bind fun start _ => (ih definite).bind fun octets _ => ?_
      exact yields_pure trivial

theorem isSafe_readBuiltin (rules : EncodingRules) (builtin : Builtin) (element : Element) :
    (Decoder.readBuiltin rules builtin element).IsSafe := by
  refine (isSafe_checkTag _ _).bind fun _ _ => ?_
  simp only [failAt_bind]
  refine yields_ite (yields_ite (yields_ite (yields_failAt rfl _) ?_) (yields_failAt rfl _)) ?_
  · refine yields_readConstructed (fun definite => ?_) _
    exact isSafe_position.bind fun start _ => (isSafe_readSegments rules _ definite).bind
      fun octets _ => (isPlain_decodeContent builtin octets start).isSafe
  · refine (isPlain_primitiveSize _).isSafe.bind fun size _ => yields_ite (yields_failAt rfl _) ?_
    exact isSafe_position.bind fun start _ => (isSafe_takeOctets size).bind fun octets _ =>
      (isPlain_decodeContent builtin octets start).isSafe

end Leaves

namespace Captured

theorem isSafe_copyElements {copy : Header → Read Octets} (h : ∀ header, (copy header).IsSafe)
    (count : Nat) : (copyElements rules copy count).IsSafe := by
  induction count with
  | zero => exact isSafe_position.bind fun _ _ => yields_failAt rfl _
  | succ count ih =>
      refine isSafe_position.bind fun start _ => ?_
      refine (Header.isPlain_read? rules).isSafe.bind fun header? _ => ?_
      cases header? with
      | none => exact yields_failAt rfl start
      | some header =>
          refine (h header).bind fun octets _ => ?_
          exact yields_ite (yields_pure trivial) (ih.bind fun _ _ => yields_pure trivial)

theorem isSafe_copyElement (rules : EncodingRules) (depth : Nat) (header : Header) :
    (copyElement rules depth header).IsSafe := by
  induction depth generalizing header with
  | zero =>
      rw [copyElement.eq_def]
      cases hlength : header.length with
      | definite size =>
          simp only [hlength]
          exact (isSafe_takeOctets size).bind fun _ _ => yields_pure trivial
      | indefinite =>
          simp only [hlength]
          exact yields_failAt rfl header.position
  | succ depth ih =>
      rw [copyElement.eq_def]
      cases hlength : header.length with
      | definite size =>
          simp only [hlength]
          exact (isSafe_takeOctets size).bind fun _ _ => yields_pure trivial
      | indefinite =>
          simp only [hlength]
          exact isSafe_get.bind fun _ _ => (isSafe_copyElements ih _).bind fun _ _ =>
            yields_pure trivial

theorem isSafe_read (rules : EncodingRules) (depth : Nat) (header : Header) :
    (read rules depth header).IsSafe := by
  apply (isSafe_copyElement rules depth header).bind
  intro _ _
  exact yields_pure trivial

end Captured

namespace Decoder

theorem isSafe_readUnknown (rules : EncodingRules) (header : Header) (depth : Nat) :
    (readUnknown rules header depth).IsSafe := by
  apply (Captured.isSafe_read rules depth header).bind
  intro _ _
  exact yields_pure trivial

theorem isSafe_readExplicit {inner : ValueReader} (h : ∀ header depth,
    (inner ⟨header, none, depth⟩).IsSafe) (depth : Nat) (definite : Bool) :
    (readExplicit rules inner depth definite).IsSafe := by
  refine isSafe_position.bind fun start _ => ?_
  refine (isSafe_nextHeader? rules definite).bind fun header? _ => ?_
  cases header? with
  | none => exact yields_failAt rfl start
  | some header =>
      refine (h header depth).bind fun value _ => isSafe_position.bind fun stop _ => ?_
      refine (isSafe_nextHeader? rules definite).bind fun header? _ => ?_
      cases header? with
      | none => exact yields_pure trivial
      | some header => exact yields_failAt rfl stop

variable {layout : Layout ValueReader}

theorem isSafe_readComponent (h : ∀ component ∈ layout.components, ∀ header depth,
    (component.type ⟨header, none, depth⟩).IsSafe) (depth : Nat) (previous? : Option Nat)
    (header : Header) : (readComponent rules layout depth previous? header).IsSafe := by
  rw [readComponent_eq]
  cases hmatch : layout.match? previous? header.tag with
  | none =>
      refine yields_ite ?_ (yields_failAt rfl _)
      exact (isSafe_readUnknown rules header depth).bind fun _ _ => yields_pure trivial
  | some component =>
      refine (h component (Layout.mem_components_of_match? hmatch) header depth).bind
        fun value _ => ?_
      simp only [failAt_bind]
      exact yields_ite (yields_failAt rfl _) (yields_pure trivial)

theorem isSafe_readCollection (hsound : layout.kind.isList = true → layout.element? ≠ none)
    (h : ∀ component ∈ layout.components, ∀ header depth,
      (component.type ⟨header, none, depth⟩).IsSafe) (depth : Nat) (definite : Bool) :
    (readCollection rules layout depth definite).IsSafe := by
  cases hlist : layout.kind.isList with
  | true =>
      obtain ⟨element, helement⟩ := Option.ne_none_iff_exists'.mp (hsound hlist)
      have hitem (state : Unit) (header : Header) : (readItem element depth state header).IsSafe :=
        (h element (Layout.mem_components_of_element? helement) header depth).bind fun _ _ =>
          yields_pure trivial
      rw [readCollection_of_list hlist helement]
      exact (isSafe_readElements hitem definite ()).bind fun _ _ => yields_pure trivial
  | false =>
      rw [readCollection_of_not_list hlist]
      exact (isSafe_readElements (isSafe_readComponent h depth) definite none).bind fun _ _ =>
        yields_pure trivial

theorem isSafe_readChoice (h : ∀ component ∈ layout.components, ∀ header depth,
    (component.type ⟨header, none, depth⟩).IsSafe) (header : Header) (depth : Nat) :
    (readChoice rules layout header depth).IsSafe := by
  rw [readChoice]
  cases hmatch : layout.componentByTag? header.tag with
  | none =>
      refine yields_ite ?_ (yields_failAt rfl _)
      exact (isSafe_readUnknown rules header depth).bind fun _ _ => yields_pure trivial
  | some component =>
      exact (h component (List.mem_of_find?_eq_some hmatch) header depth).bind fun _ _ =>
        yields_pure trivial

end Decoder

/-- An implicit tag that is handed down ends at a type whose own tag it can stand for. -/
theorem CompiledType.isSafe_read {type : CompiledType} (hsound : type.IsSound)
    {tag? : Option Tag} (htag : tag? ≠ none → type.isUntaggedChoice = false) (rules : EncodingRules)
    (header : Header) (depth : Nat) : (type.read rules ⟨header, tag?, depth⟩).IsSafe := by
  have hcomponents {layout : Layout CompiledType}
      (hsound : ∀ type ∈ (TypeForm.collection layout).types, type.IsSound)
      (ih : ∀ component ∈ layout.components, ∀ (tag? : Option Tag) depth, component.type.IsSound →
        (tag? ≠ none → component.type.isUntaggedChoice = false) → ∀ header,
          (component.type.read rules ⟨header, tag?, depth⟩).IsSafe) :
      ∀ component ∈ (layout.map fun type => type.read rules).components, ∀ header depth,
        (component.type ⟨header, none, depth⟩).IsSafe := by
    intro component hmem header depth
    obtain ⟨source, hsource, rfl⟩ := List.mem_map.mp hmem
    exact ih source hsource none depth (hsound _ (TypeForm.type_mem_types hsource)) (absurd rfl)
      header
  induction type, tag?, depth using readInduct generalizing header with
  | zero type tag? =>
      rw [read_zero]
      exact yields_failAt rfl _
  | builtin info builtin tag? depth =>
      rw [read_builtin]
      exact isSafe_readBuiltin rules builtin _
  | «alias» info target tag? depth ih =>
      rw [read_alias]
      rw [isUntaggedChoice_alias] at htag
      exact ih (hsound.of_mk.2 _ TypeForm.target_mem_types) htag header
  | implicit info tag inner tag? depth ih =>
      obtain ⟨hform, hsound⟩ := hsound.of_mk
      rw [read_implicit]
      exact ih (hsound inner TypeForm.inner_mem_types) (fun _ => hform) header
  | explicit info tag inner tag? depth ih =>
      have hinner := hsound.of_mk.2 inner TypeForm.inner_mem_types
      rw [read_explicit]
      exact (isSafe_checkTag _ _).bind fun _ _ => yields_readConstructed
        (Decoder.isSafe_readExplicit (fun header depth => ih none depth hinner (absurd rfl) header)
          depth) header
  | constructed info layout tag tag? depth htag? ih =>
      obtain ⟨hform, hsound⟩ := hsound.of_mk
      rw [read_collection htag?]
      refine (isSafe_checkTag _ _).bind fun _ _ => yields_readConstructed
        (Decoder.isSafe_readCollection ?_ (hcomponents hsound ih) depth) header
      intro hlist
      rw [Layout.element?_map, ne_eq, Option.map_eq_none_iff]
      exact hform hlist
  | choice info layout depth hkind ih =>
      rw [read_choice hkind]
      exact Decoder.isSafe_readChoice (hcomponents hsound.of_mk.2 ih) header depth
  | taggedChoice info layout tag depth hkind =>
      simp [isUntaggedChoice_collection, hkind] at htag

end Asn1

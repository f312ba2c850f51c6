import Asn1.Proofs.Relaxation
import Asn1.Proofs.CompilationSteps
import Asn1.Proofs.TypeReading

namespace Asn1

open Read

variable {rules : EncodingRules}

section Elements

theorem relaxes_nextHeader? (rules : EncodingRules) (definite : Bool) :
    Relaxes Eq (nextHeader? rules definite) (nextHeader? .ber definite) := by
  refine .bind_same _ ?_
  intro _
  apply (Header.relaxes_read? rules).bind_eq
  intro _
  exact .refl _

theorem relaxes_readElementsWithin {σ τ α : Type} {related : σ → τ → Prop}
    {strict : σ → Header → Read (α × σ)} {lenient : τ → Header → Read (α × τ)}
    (h : ∀ s t, related s t → ∀ header,
      Relaxes (fun x y => x.1 = y.1 ∧ related x.2 y.2) (strict s header) (lenient t header))
    (definite : Bool) (count : Nat) {s : σ} {t : τ} (hstate : related s t) :
    Relaxes Eq (readElementsWithin rules definite strict count s)
      (readElementsWithin .ber definite lenient count t) := by
  induction count generalizing s t with
  | zero => exact .bind_same _ fun _ => .failAt _ _
  | succ count ih =>
      refine (relaxes_nextHeader? rules definite).bind_eq fun header? => ?_
      cases header? with
      | none => exact .refl _
      | some header =>
          refine (h s t hstate header).bind ?_
          rintro ⟨a, s⟩ ⟨_, t⟩ ⟨rfl, hnext⟩
          exact (ih hnext).bind_eq fun _ => .refl _

theorem relaxes_readElements {σ τ α : Type} {related : σ → τ → Prop}
    {strict : σ → Header → Read (α × σ)} {lenient : τ → Header → Read (α × τ)}
    (h : ∀ s t, related s t → ∀ header,
      Relaxes (fun x y => x.1 = y.1 ∧ related x.2 y.2) (strict s header) (lenient t header))
    (definite : Bool) {s : σ} {t : τ} (hstate : related s t) :
    Relaxes Eq (readElements rules definite strict s) (readElements .ber definite lenient t) := by
  refine .bind_same _ ?_
  intro _
  exact relaxes_readElementsWithin h definite _ hstate

theorem relaxes_readConstructed {α : Type} {strict lenient : Bool → Read α}
    (h : ∀ definite, Relaxes Eq (strict definite) (lenient definite)) (header : Header) :
    Relaxes Eq (readConstructed header strict) (readConstructed header lenient) := by
  rw [readConstructed, readConstructed]
  refine .ite (fun _ => ?_) fun _ => .refl _
  cases header.length with
  | definite size =>
      exact .bind_same _ fun start => .bind_same _ fun octets => (h true).within octets start
  | indefinite => exact h false

end Elements

section Leaves

/-- Only restricted rules take note of short segments. -/
theorem relaxes_readSegment {strict lenient : Header → Read Value}
    (h : ∀ header, Relaxes Eq (strict header) (lenient header)) (short : Bool) (header : Header) :
    Relaxes (fun x y => x.1 = y.1 ∧ y.2 = false) (readSegment rules strict short header)
      (readSegment .ber lenient false header) := by
  rw [readSegment, readSegment]
  refine .bind_same _ fun _ => ?_
  simp only [failAt_bind, EncodingRules.isRestricted, EncodingRules.allowsDefiniteConstructed,
    Bool.false_eq_true, if_false, Bool.not_true, Bool.false_and]
  refine .ite_failAt (.ite (fun _ => .ite_failAt ?_) fun _ => ?_)
  · refine (h header).bind_eq fun value => ?_
    cases value <;> first | exact .pure ⟨rfl, rfl⟩ | exact .failAt _ _
  · refine .bind_same _ fun size => .ite_failAt (.bind_same _ fun octets => .pure ⟨rfl, rfl⟩)

theorem relaxes_joinSegments {strict lenient : Header → Read Value}
    (h : ∀ header, Relaxes Eq (strict header) (lenient header)) (definite : Bool) :
    Relaxes Eq (joinSegments rules strict definite) (joinSegments .ber lenient definite) := by
  have hsegment (short other : Bool) (hother : other = false) (header : Header) :
      Relaxes (fun x y => x.1 = y.1 ∧ y.2 = false) (readSegment rules strict short header)
        (readSegment .ber lenient other header) := by
    rw [hother]
    exact relaxes_readSegment h short header
  rw [joinSegments, joinSegments]
  refine .bind_same _ fun start => ?_
  refine (relaxes_readElements hsegment definite rfl).bind_eq fun segments => ?_
  simp only [failAt_bind, EncodingRules.allowsDefiniteConstructed, Bool.not_true, Bool.false_and,
    Bool.false_eq_true, if_false]
  exact .ite_failAt (.refl _)

theorem relaxes_decodeContent (rules : EncodingRules) (builtin : Builtin) (octets : Octets)
    (start : Nat) :
    Relaxes Eq (checked (builtin.decodeContent rules octets) start)
      (checked (builtin.decodeContent .ber octets) start) :=
  .checked (fun _ => Builtin.decodeContent_ber) start

theorem relaxes_readSegmented {strict lenient : Bool → Read Octets}
    (h : ∀ definite, Relaxes Eq (strict definite) (lenient definite)) (builtin : Builtin)
    (definite : Bool) :
    Relaxes Eq (readSegmented rules builtin strict definite)
      (readSegmented .ber builtin lenient definite) := by
  refine .bind_same _ ?_
  intro start
  apply (h definite).bind_eq
  intro octets
  exact relaxes_decodeContent rules builtin octets start

theorem relaxes_readSegments (rules : EncodingRules) (depth : Nat) (definite : Bool) :
    Relaxes Eq (readSegments rules depth definite) (readSegments .ber depth definite) := by
  induction depth generalizing definite with
  | zero => exact relaxes_joinSegments (fun _ => .failAt _ _) definite
  | succ depth ih =>
      exact relaxes_joinSegments
        (relaxes_readConstructed (relaxes_readSegmented ih .octetString)) definite

theorem relaxes_readBuiltin (rules : EncodingRules) (builtin : Builtin) (element : Element) :
    Relaxes Eq (Decoder.readBuiltin rules builtin element)
      (Decoder.readBuiltin .ber builtin element) := by
  rw [Decoder.readBuiltin, Decoder.readBuiltin]
  refine .bind_same _ fun _ => ?_
  simp only [failAt_bind, EncodingRules.isRestricted, EncodingRules.allowsDefiniteConstructed,
    Bool.not_true, Bool.false_and, Bool.false_eq_true, if_false]
  refine .ite (fun _ => .ite (fun _ => .ite_failAt ?_) fun _ => .refl _) fun _ => ?_
  · exact relaxes_readConstructed
      (relaxes_readSegmented (relaxes_readSegments rules _) builtin) element.header
  · refine .bind_same _ fun size => .ite_failAt (.bind_same _ fun start => ?_)
    exact .bind_same _ fun octets => relaxes_decodeContent rules builtin octets start

end Leaves

section Captured

theorem relaxes_copyElements {strict lenient : Header → Read Octets}
    (h : ∀ header, Relaxes Eq (strict header) (lenient header)) (count : Nat) :
    Relaxes Eq (Captured.copyElements rules strict count)
      (Captured.copyElements .ber lenient count) := by
  induction count with
  | zero => exact .bind_same _ fun _ => .failAt _ _
  | succ count ih =>
      refine .bind_same _ fun start => (Header.relaxes_read? rules).bind_eq fun header? => ?_
      cases header? with
      | none => exact .failAt _ _
      | some header =>
          refine (h header).bind_eq fun octets => .ite (fun _ => .refl _) fun _ => ?_
          exact ih.bind_eq fun _ => .refl _

theorem relaxes_copyElement (rules : EncodingRules) (depth : Nat) (header : Header) :
    Relaxes Eq (Captured.copyElement rules depth header)
      (Captured.copyElement .ber depth header) := by
  induction depth generalizing header with
  | zero =>
      unfold Captured.copyElement
      cases header.length with
      | definite size => exact .refl _
      | indefinite => exact .failAt _ _
  | succ depth ih =>
      unfold Captured.copyElement
      cases header.length with
      | definite size => exact .refl _
      | indefinite =>
          refine .bind_same _ fun source => ?_
          exact (relaxes_copyElements ih _).bind_eq fun _ => .refl _

theorem relaxes_readUnknown (rules : EncodingRules) (header : Header) (depth : Nat) :
    Relaxes Eq (Decoder.readUnknown rules header depth)
      (Decoder.readUnknown .ber header depth) := by
  apply Relaxes.bind_eq ((relaxes_copyElement rules depth header).bind_eq fun _ => .refl _)
  intro _
  exact .refl _

end Captured

section Types

variable {strict lenient : CompiledType → ValueReader}

theorem relaxes_readExplicit {strict lenient : ValueReader}
    (h : ∀ element, Relaxes Eq (strict element) (lenient element)) (depth : Nat) (definite : Bool) :
    Relaxes Eq (Decoder.readExplicit rules strict depth definite)
      (Decoder.readExplicit .ber lenient depth definite) := by
  refine .bind_same _ fun start => (relaxes_nextHeader? rules definite).bind_eq fun header? => ?_
  cases header? with
  | none => exact .failAt _ _
  | some header =>
      refine (h _).bind_eq fun value => .bind_same _ fun stop => ?_
      exact (relaxes_nextHeader? rules definite).bind_eq fun _ => .refl _

/-- Only restricted rules refuse values that are left out by default. -/
theorem relaxes_readComponent {layout : Layout CompiledType}
    (h : ∀ component ∈ layout.components, ∀ element,
      Relaxes Eq (strict component.type element) (lenient component.type element))
    (depth : Nat) (previous? : Option Nat) (header : Header) :
    Relaxes Eq (Decoder.readComponent rules (layout.map strict) depth previous? header)
      (Decoder.readComponent .ber (layout.map lenient) depth previous? header) := by
  rw [Decoder.readComponent_eq, Decoder.readComponent_eq, Layout.match?_map, Layout.match?_map]
  cases hmatch : layout.match? previous? header.tag with
  | some component =>
      refine (h component (Layout.mem_components_of_match? hmatch) _).bind_eq fun value => ?_
      simp only [failAt_bind, EncodingRules.isRestricted, Bool.false_and, Bool.false_eq_true,
        if_false]
      exact .ite_failAt (.refl _)
  | none =>
      simp only [Option.map_none, failAt_bind, Layout.allowsUnknown_map]
      refine .ite (fun _ => ?_) fun _ => .refl _
      exact (relaxes_readUnknown rules header depth).bind_eq fun _ => .refl _

theorem relaxes_readCollection {layout : Layout CompiledType}
    (h : ∀ component ∈ layout.components, ∀ element,
      Relaxes Eq (strict component.type element) (lenient component.type element))
    (depth : Nat) (definite : Bool) :
    Relaxes Eq (Decoder.readCollection rules (layout.map strict) depth definite)
      (Decoder.readCollection .ber (layout.map lenient) depth definite) := by
  cases hlist : layout.kind.isList with
  | false =>
      have hcomponent (previous? other? : Option Nat) (heq : previous? = other?)
          (header : Header) : Relaxes (fun x y => x.1 = y.1 ∧ x.2 = y.2)
            (Decoder.readComponent rules (layout.map strict) depth previous? header)
            (Decoder.readComponent .ber (layout.map lenient) depth other? header) := by
        subst heq
        exact (relaxes_readComponent h depth previous? header).imp (by rintro x _ rfl; simp)
      rw [Decoder.readCollection_of_not_list hlist, Decoder.readCollection_of_not_list hlist]
      exact (relaxes_readElements hcomponent definite rfl).bind_eq fun _ => .refl _
  | true =>
      cases helement : layout.element? with
      | none =>
          rw [Decoder.readCollection, Layout.kind_map, if_pos hlist, Layout.element?_map, helement]
          intro source value rest hok
          cases hok
      | some element =>
          have hitem (state other : Unit) (_ : state = other) (header : Header) :
              Relaxes (fun x y => x.1 = y.1 ∧ x.2 = y.2)
                (Decoder.readItem (element.map strict) depth state header)
                (Decoder.readItem (element.map lenient) depth other header) :=
            (h element (Layout.mem_components_of_element? helement) _).bind_eq fun _ =>
              .pure ⟨rfl, rfl⟩
          rw [Decoder.readCollection_of_list hlist (Layout.element?_map_of_some _ helement),
            Decoder.readCollection_of_list hlist (Layout.element?_map_of_some _ helement)]
          exact (relaxes_readElements hitem definite rfl).bind_eq fun _ => .refl _

theorem relaxes_readChoice {layout : Layout CompiledType}
    (h : ∀ component ∈ layout.components, ∀ element,
      Relaxes Eq (strict component.type element) (lenient component.type element))
    (header : Header) (depth : Nat) :
    Relaxes Eq (Decoder.readChoice rules (layout.map strict) header depth)
      (Decoder.readChoice .ber (layout.map lenient) header depth) := by
  rw [Decoder.readChoice, Decoder.readChoice, Layout.componentByTag?_map,
    Layout.componentByTag?_map]
  cases hmatch : layout.componentByTag? header.tag with
  | some component =>
      have hmem := List.mem_of_find?_eq_some hmatch
      exact (h component hmem _).bind_eq fun _ => .refl _
  | none =>
      simp only [Option.map_none, failAt_bind, Layout.allowsUnknown_map]
      refine .ite (fun _ => ?_) fun _ => .refl _
      exact (relaxes_readUnknown rules header depth).bind_eq fun _ => .refl _

theorem CompiledType.relaxes_read (type : CompiledType) (rules : EncodingRules)
    (element : Element) : Relaxes Eq (type.read rules element) (type.read .ber element) := by
  obtain ⟨header, tag?, depth⟩ := element
  induction type, tag?, depth using readInduct generalizing header with
  | zero type tag? =>
      rw [read_zero]
      exact .failAt _ _
  | builtin info builtin tag? depth =>
      rw [read_builtin, read_builtin]
      exact relaxes_readBuiltin rules builtin _
  | «alias» info target tag? depth ih =>
      rw [read_alias, read_alias]
      exact ih header
  | implicit info tag inner tag? depth ih =>
      rw [read_implicit, read_implicit]
      exact ih header
  | explicit info tag inner tag? depth ih =>
      rw [read_explicit, read_explicit]
      refine .bind_same _ fun _ => relaxes_readConstructed (fun definite => ?_) header
      exact relaxes_readExplicit (fun element => ih _ _ _) depth definite
  | constructed info layout tag tag? depth htag ih =>
      rw [read_collection htag, read_collection htag]
      refine .bind_same _ fun _ => relaxes_readConstructed (fun definite => ?_) header
      exact relaxes_readCollection (fun component hmem _ => ih component hmem _ _ _) depth definite
  | choice info layout depth hkind ih =>
      rw [read_choice hkind, read_choice hkind]
      exact relaxes_readChoice (fun component hmem _ => ih component hmem _ _ _) header depth
  | taggedChoice info layout tag depth hkind =>
      rw [read_tagged_choice hkind]
      exact .failAt _ _

end Types

namespace Schema

variable (schema : Schema) (handle : Handle) (maxDepth : Nat)

theorem relaxes_decodeOne : Relaxes Eq (decodeOne schema handle ⟨rules, maxDepth⟩)
    (decodeOne schema handle ⟨.ber, maxDepth⟩) := by
  refine .bind_same _ fun start => .bind_same _ fun type => ?_
  refine (Header.relaxes_read rules).bind_eq fun header => ?_
  exact (type.relaxes_read rules _).bind_eq fun value => .refl _

theorem relaxes_decodeAll : Relaxes Eq (decodeAll schema handle ⟨rules, maxDepth⟩)
    (decodeAll schema handle ⟨.ber, maxDepth⟩) := by
  apply (relaxes_decodeOne schema handle maxDepth).bind_eq
  intro _
  exact .refl _

/-- What decodes under any rules decodes under the basic rules, to the same value: data that they
allow has no other meaning. Captured elements are part of the value. -/
theorem decode_ber_of_decode {octets : Octets} {value : Value}
    (h : schema.decode handle ⟨rules, maxDepth⟩ octets = .ok value) :
    schema.decode handle ⟨.ber, maxDepth⟩ octets = .ok value := by
  rw [decode] at h ⊢
  rcases houtcome : (decodeAll schema handle ⟨rules, maxDepth⟩).run (Source.ofOctets octets 0)
    with ⟨result, rest⟩
  rw [houtcome] at h
  obtain rfl : result = .ok value := h
  obtain ⟨_, rfl, hber⟩ := relaxes_decodeAll schema handle maxDepth _ _ _ houtcome
  exact congrArg Prod.fst hber

/-- Content of indefinite length is captured alike. -/
theorem decode_ber_defaultedSequence :
    let octets : Octets :=
      [0x30, 0x80, 0x02, 0x01, 0x05, 0xA5, 0x80, 0x05, 0x00, 0x00, 0x00, 0x00, 0x00]
    let value : Value := .collection [("x", .integer ⟨5, by decide, by decide⟩),
      ((Tag.context 5).text,
        .captured ⟨⟨.context 5, true⟩, [0xA5, 0x80, 0x05, 0x00, 0x00, 0x00]⟩)]
    defaultedSequence.decode ⟨2⟩ ⟨.cer, 2⟩ octets = .ok value ∧
      defaultedSequence.decode ⟨2⟩ ⟨.ber, 2⟩ octets = .ok value := by
  intro octets value
  have hdecode : defaultedSequence.decode ⟨2⟩ ⟨.cer, 2⟩ octets = .ok value := by decide +kernel
  exact ⟨hdecode, decode_ber_of_decode _ _ _ hdecode⟩

end Schema

end Asn1

import Asn1.Proofs.Correspondence
import Asn1.Proofs.TypeReading

namespace Asn1

open Read Source Correspondence

variable {c : Correspondence} {rules : EncodingRules}

namespace Identifier

theorem agrees_readGroups (start groups n : Nat) :
    c.Agrees (readGroups (start + c.shift) groups n) (readGroups start groups n) := by
  induction groups generalizing n with
  | zero => exact carries_failAt rfl
  | succ groups ih => exact agrees_takeOctet.bind fun octet => .ite (agrees_pure _) (ih _)

theorem agrees_readNumber (start : Nat) :
    c.Agrees (readNumber (start + c.shift)) (readNumber start) := by
  refine agrees_takeOctet.bind fun octet => ?_
  simp only [failAt_bind]
  refine .ite (carries_failAt rfl) (.ite (.ite (carries_failAt rfl) (agrees_pure _)) ?_)
  refine (agrees_readGroups start _ _).bind fun number => ?_
  exact .ite (carries_failAt rfl) (agrees_pure _)

theorem agrees_read? : c.Agrees read? read? := by
  refine carries_position.bind fun start => agrees_takeOctet?.bind fun octet? => ?_
  cases octet? with
  | none => exact agrees_pure none
  | some octet =>
      exact .ite (agrees_pure _) ((agrees_readNumber start).bind fun _ => agrees_pure _)

theorem agrees_read : c.Agrees read read := by
  refine agrees_read?.bind fun identifier? => ?_
  cases identifier? with
  | none => exact carries_position.bind fun start => carries_failAt rfl
  | some identifier => exact agrees_pure identifier

theorem lt_of_read? {source rest : Source} {identifier : Identifier}
    (h : read?.outcome source = (.ok (some identifier), rest)) :
    source.position < rest.position := by
  rw [read?, outcome_bind_of_ok (outcome_position source)] at h
  obtain ⟨octet?, middle, hoctet, hlast⟩ := exists_of_outcome_bind h
  cases octet? with
  | none => cases hlast
  | some octet =>
      have hle : middle.position ≤ rest.position := by
        have hnumber := (agrees_readNumber (c := shifted 0) source.position).advances
        simp only at hlast
        split at hlast
        · exact ((advances_pure _).bind fun _ => advances_pure _) _ _ _ hlast
        · exact (hnumber.bind fun _ => advances_pure _) _ _ _ hlast
      have hmiddle := outcome_takeOctet?_eq_some hoctet
      rw [hmiddle, position_advance] at hle
      exact hle

end Identifier

namespace Length

theorem agrees_readSize (start count n : Nat) :
    c.Agrees (readSize (start + c.shift) count n) (readSize start count n) := by
  induction count generalizing n with
  | zero => exact agrees_pure n
  | succ count ih =>
      refine agrees_takeOctet.bind fun octet => ?_
      simp only [failAt_bind]
      exact .ite (carries_failAt rfl) (ih _)

theorem agrees_read (rules : EncodingRules) : c.Agrees (read rules) (read rules) := by
  refine carries_position.bind fun start => agrees_takeOctet.bind fun octet => ?_
  simp only [failAt_bind]
  refine .ite (agrees_pure _) (.ite (agrees_pure _) (.ite (carries_failAt rfl) ?_))
  refine agrees_takeOctet.bind fun first => .ite (carries_failAt rfl) ?_
  refine (agrees_readSize start _ _).bind fun size => ?_
  exact .ite (carries_failAt rfl) (agrees_pure _)

end Length

namespace Header

theorem carries_read? (rules : EncodingRules) :
    c.Carries (Option.map (Header.moved c.shift)) (read? rules) (read? rules) := by
  refine carries_position.bind fun start => Identifier.agrees_read?.bind fun identifier? => ?_
  cases identifier? with
  | none => exact carries_pure rfl
  | some identifier =>
      refine (Length.agrees_read rules).bind fun length => ?_
      have hfault : fault? ⟨identifier, length, start + c.shift⟩ rules =
          fault? ⟨identifier, length, start⟩ rules := rfl
      simp only [id_eq, hfault]
      split
      · exact carries_failAt rfl
      · exact carries_pure rfl

theorem carries_read (rules : EncodingRules) :
    c.Carries (Header.moved c.shift) (read rules) (read rules) := by
  refine (carries_read? rules).bind fun header? => ?_
  cases header? with
  | none => exact carries_position.bind fun start => carries_failAt rfl
  | some header => exact carries_pure rfl

theorem lt_of_read? {source rest : Source} {header : Header}
    (h : (read? rules).outcome source = (.ok (some header), rest)) :
    source.position < rest.position := by
  rw [read?, outcome_bind_of_ok (outcome_position source)] at h
  obtain ⟨identifier?, middle, hidentifier, hlast⟩ := exists_of_outcome_bind h
  cases identifier? with
  | none => cases hlast
  | some identifier =>
      refine Nat.lt_of_lt_of_le (Identifier.lt_of_read? hidentifier)
        ((?_ : Advances _) _ _ _ hlast)
      refine (Length.agrees_read (c := shifted 0) rules).advances.bind fun length => ?_
      simp only
      split
      · exact advances_failAt _ _
      · exact advances_pure _

end Header

section Elements

theorem carries_nextHeader? (definite : Bool) :
    c.Carries (Option.map (Header.moved c.shift)) (nextHeader? rules definite)
      (nextHeader? rules definite) := by
  refine carries_position.bind fun start => (Header.carries_read? rules).bind fun header? => ?_
  cases header? with
  | none => exact .ite (carries_pure rfl) (carries_failAt rfl)
  | some header =>
      have hend : (header.moved c.shift).isEndOfContents = header.isEndOfContents := rfl
      simp only [Option.map_some, hend]
      exact .ite (.ite (carries_failAt rfl) (carries_pure rfl)) (carries_pure rfl)

theorem lt_of_nextHeader? {definite : Bool} {source rest : Source} {header : Header}
    (h : (nextHeader? rules definite).outcome source = (.ok (some header), rest)) :
    source.position < rest.position := by
  rw [nextHeader?, outcome_bind_of_ok (outcome_position source)] at h
  obtain ⟨header?, middle, hheader, hlast⟩ := exists_of_outcome_bind h
  cases header? with
  | none => cases definite <;> cases hlast
  | some found =>
      have hmiddle : middle = rest := by
        cases hend : found.isEndOfContents with
        | true => cases definite <;> simp [hend] at hlast
        | false =>
            simp only [hend, Bool.false_eq_true, if_false, outcome_pure, Prod.mk.injEq] at hlast
            exact hlast.2
      exact hmiddle ▸ Header.lt_of_read? hheader

variable {σ α : Type} {readElement : σ → Header → Read (α × σ)}

theorem advances_readElementsWithin (h : ∀ state header, (readElement state header).Advances)
    (definite : Bool) (count : Nat) (state : σ) :
    (readElementsWithin rules definite readElement count state).Advances := by
  induction count generalizing state with
  | zero => exact fun _ _ _ hok => by cases hok
  | succ count ih =>
      refine (carries_nextHeader? (c := shifted 0) definite).advances.bind fun header? => ?_
      cases header? with
      | none => exact advances_pure _
      | some header => exact (h state header).bind fun _ => (ih _).bind fun _ => advances_pure _

/-- As no count is ever used up by elements, it does not matter how far apart the counts are. -/
theorem matches_readElementsWithin
    (h : ∀ state header, c.Agrees (readElement state (header.moved c.shift))
      (readElement state header))
    (definite : Bool) {count other : Nat} {source image : Source}
    (hrelated : c.related source image) (hcount : source.available < count)
    (hother : image.available < other) (state : σ) :
    c.Matches id source image
      ((readElementsWithin rules definite readElement count state).outcome source)
      ((readElementsWithin rules definite readElement other state).outcome image) := by
  have hadvances (count : Nat) (state : σ) :
      (readElementsWithin rules definite readElement count state).Advances :=
    advances_readElementsWithin (fun state header => (h state header).advances) definite count state
  induction count generalizing other source image state with
  | zero => omega
  | succ count ih =>
      obtain ⟨other, rfl⟩ := Nat.exists_eq_add_one_of_ne_zero (n := other) (by omega)
      rw [readElementsWithin, readElementsWithin]
      refine matches_bind ((carries_nextHeader? definite).matched _ _ hrelated) ?_ ?_
      · intro header?
        cases header? with
        | none => exact advances_pure _
        | some header =>
            exact (h state header).advances.bind fun _ =>
              (hadvances _ _).bind fun _ => advances_pure _
      · intro header? size rest middle hmiddle _ hread hposition hsource himage
        cases header? with
        | none => exact (agrees_pure []).matched _ _ hmiddle
        | some header =>
            have hlt := lt_of_nextHeader? hread
            refine matches_bind ((h state header).matched _ _ hmiddle)
              (fun _ => (hadvances _ _).bind fun _ => advances_pure _) ?_
            rintro ⟨a, next⟩ more rest middle hmiddle - - - hsource' himage'
            refine matches_bind (ih hmiddle (by omega) (by omega) next)
              (fun _ => advances_pure _) ?_
            intro others _ rest middle hmiddle _ _ _ _ _
            exact (agrees_pure (a :: others)).matched _ _ hmiddle

theorem agrees_readElements
    (h : ∀ state header, c.Agrees (readElement state (header.moved c.shift))
      (readElement state header))
    (definite : Bool) (state : σ) :
    c.Agrees (readElements rules definite readElement state)
      (readElements rules definite readElement state) := by
  refine ⟨fun source => ?_, fun source image hrelated => ?_⟩
  · exact advances_readElementsWithin (fun state header => (h state header).advances) definite
      (source.available + 1) state source
  · exact matches_readElementsWithin h definite hrelated (Nat.lt_succ_self _)
      (Nat.lt_succ_self _) state

theorem agrees_checkTag (header : Header) (expected : Tag) :
    c.Agrees (checkTag (header.moved c.shift) expected) (checkTag header expected) :=
  .ite (carries_failAt rfl) (agrees_pure _)

theorem agrees_primitiveSize (header : Header) :
    c.Agrees (primitiveSize (header.moved c.shift)) (primitiveSize header) := by
  obtain ⟨identifier, length, start⟩ := header
  cases length with
  | definite size => exact agrees_pure size
  | indefinite => exact carries_failAt rfl

theorem agrees_readConstructed {readContent : Bool → Read α}
    (h : ∀ (c : Correspondence) definite, c.Agrees (readContent definite) (readContent definite))
    (header : Header) :
    c.Agrees (readConstructed (header.moved c.shift) readContent)
      (readConstructed header readContent) := by
  rw [readConstructed, readConstructed]
  simp only [failAt_bind]
  refine .ite ?_ (carries_failAt rfl)
  obtain ⟨identifier, length, start⟩ := header
  cases length with
  | definite size =>
      exact carries_position.bind fun start => (agrees_takeOctets size).bind fun octets =>
        agrees_within rfl (h _ true)
  | indefinite => exact h c false

end Elements

section Leaves

theorem agrees_readSegment {readNested : Header → Read Value}
    (h : ∀ header, c.Agrees (readNested (header.moved c.shift)) (readNested header))
    (short : Bool) (header : Header) :
    c.Agrees (readSegment rules readNested short (header.moved c.shift))
      (readSegment rules readNested short header) := by
  rw [readSegment, readSegment]
  refine (agrees_checkTag header _).bind fun _ => ?_
  simp only [failAt_bind]
  refine .ite (carries_failAt rfl) (.ite (.ite (carries_failAt rfl) ?_) ?_)
  · refine (h header).bind fun value => ?_
    cases value <;> first | exact agrees_pure _ | exact carries_failAt rfl
  · refine (agrees_primitiveSize header).bind fun size => .ite (carries_failAt rfl) ?_
    exact (agrees_takeOctets size).bind fun _ => agrees_pure _

theorem agrees_joinSegments {readNested : Header → Read Value}
    (h : ∀ header, c.Agrees (readNested (header.moved c.shift)) (readNested header))
    (definite : Bool) :
    c.Agrees (joinSegments rules readNested definite) (joinSegments rules readNested definite) := by
  refine carries_position.bind fun start => ?_
  refine (agrees_readElements (agrees_readSegment h) definite false).bind fun segments => ?_
  simp only [failAt_bind, id_eq]
  exact .ite (carries_failAt rfl) (agrees_pure _)

theorem agrees_readSegmented {readJoined : Bool → Read Octets}
    (h : ∀ definite, c.Agrees (readJoined definite) (readJoined definite)) (builtin : Builtin)
    (definite : Bool) :
    c.Agrees (readSegmented rules builtin readJoined definite)
      (readSegmented rules builtin readJoined definite) := by
  apply carries_position.bind
  intro _
  apply (h definite).bind
  intro _
  exact carries_checked rfl

theorem agrees_readSegments (c : Correspondence) (rules : EncodingRules) (depth : Nat)
    (definite : Bool) :
    c.Agrees (readSegments rules depth definite) (readSegments rules depth definite) := by
  induction depth generalizing c definite with
  | zero => exact agrees_joinSegments (fun _ => carries_failAt rfl) definite
  | succ depth ih =>
      exact agrees_joinSegments (agrees_readConstructed fun c =>
        agrees_readSegmented (ih c) .octetString) definite

theorem agrees_readBuiltin (rules : EncodingRules) (builtin : Builtin) (header : Header)
    (tag? : Option Tag) (depth : Nat) :
    c.Agrees (Decoder.readBuiltin rules builtin ⟨header.moved c.shift, tag?, depth⟩)
      (Decoder.readBuiltin rules builtin ⟨header, tag?, depth⟩) := by
  rw [Decoder.readBuiltin, Decoder.readBuiltin]
  refine (agrees_checkTag header _).bind fun _ => ?_
  simp only [failAt_bind]
  refine .ite (.ite (.ite (carries_failAt rfl) ?_) (carries_failAt rfl)) ?_
  · exact agrees_readConstructed (fun c => agrees_readSegmented
      (agrees_readSegments c rules depth) builtin) header
  · refine (agrees_primitiveSize header).bind fun size => .ite (carries_failAt rfl) ?_
    exact carries_position.bind fun start => (agrees_takeOctets size).bind fun octets =>
      carries_checked rfl

end Leaves

namespace Captured

variable {copy : Header → Read Octets}

theorem advances_copyElements (h : ∀ header, (copy header).Advances) (count : Nat) :
    (copyElements rules copy count).Advances := by
  induction count with
  | zero => exact fun _ _ _ hok => by cases hok
  | succ count ih =>
      refine (carries_position (c := shifted 0)).advances.bind fun start => ?_
      refine (Header.carries_read? (c := shifted 0) rules).advances.bind fun header? => ?_
      cases header? with
      | none => exact advances_failAt _ _
      | some header =>
          refine (h header).bind fun octets => ?_
          split
          · exact advances_pure _
          · exact ih.bind fun _ => advances_pure _

theorem matches_copyElements
    (h : ∀ header, c.Agrees (copy (header.moved c.shift)) (copy header)) {count other : Nat}
    {source image : Source} (hrelated : c.related source image)
    (hcount : source.available < count) (hother : image.available < other) :
    c.Matches id source image ((copyElements rules copy count).outcome source)
      ((copyElements rules copy other).outcome image) := by
  have hadvances (count : Nat) : (copyElements rules copy count).Advances :=
    advances_copyElements (fun header => (h header).advances) count
  induction count generalizing other source image with
  | zero => omega
  | succ count ih =>
      obtain ⟨other, rfl⟩ := Nat.exists_eq_add_one_of_ne_zero (n := other) (by omega)
      have hafter (header : Header) (others : Read Octets) (hothers : others.Advances) :
          Advances (do
            let octets ← copy header
            if header.isEndOfContents then return octets
            return octets ++ (← others)) := by
        refine (h header).advances.bind fun octets => ?_
        split
        · exact advances_pure _
        · exact hothers.bind fun _ => advances_pure _
      rw [copyElements, copyElements, outcome_bind_of_ok (outcome_position _),
        outcome_bind_of_ok (outcome_position _), c.position_eq hrelated]
      refine matches_bind ((Header.carries_read? rules).matched _ _ hrelated) ?_ ?_
      · intro header?
        cases header? with
        | none => exact advances_failAt _ _
        | some header => exact hafter header _ (hadvances other)
      · intro header? size rest middle hmiddle _ hread hposition hsource himage
        cases header? with
        | none => exact (carries_failAt rfl).matched _ _ hmiddle
        | some header =>
            have hlt := Header.lt_of_read? hread
            refine matches_bind ((h header).matched _ _ hmiddle) ?_ ?_
            · intro octets
              split
              · exact advances_pure _
              · exact (hadvances other).bind fun _ => advances_pure _
            · intro octets more rest middle hmiddle _ _ _ hsource' himage'
              have hend : (header.moved c.shift).isEndOfContents = header.isEndOfContents := rfl
              simp only [hend]
              split
              · exact (agrees_pure octets).matched _ _ hmiddle
              · refine matches_bind (ih hmiddle (by omega) (by omega))
                  (fun _ => advances_pure _) ?_
                intro others _ rest middle hmiddle _ _ _ _ _
                exact (agrees_pure (octets ++ others)).matched _ _ hmiddle

theorem agrees_copyElement (rules : EncodingRules) (depth : Nat) (header : Header) :
    c.Agrees (copyElement rules depth (header.moved c.shift)) (copyElement rules depth header) := by
  have hdefinite (depth size : Nat) (header : Header) (hlength : header.length = .definite size) :
      c.Agrees (copyElement rules depth (header.moved c.shift))
        (copyElement rules depth header) := by
    rw [copyElement_definite hlength, copyElement_definite (by exact hlength)]
    exact (agrees_takeOctets size).bind fun _ => agrees_pure _
  induction depth generalizing header with
  | zero =>
      cases hlength : header.length with
      | definite size => exact hdefinite 0 size header hlength
      | indefinite =>
          obtain ⟨identifier, length, start⟩ := header
          obtain rfl : length = .indefinite := hlength
          exact carries_failAt rfl
  | succ depth ih =>
      cases hlength : header.length with
      | definite size => exact hdefinite (depth + 1) size header hlength
      | indefinite =>
          refine ⟨fun source => ?_, fun source image hrelated => ?_⟩
          · rw [outcome_copyElement_indefinite hlength]
            exact (advances_copyElements (fun header => (ih header).advances) _).bind
              (fun _ => advances_pure _) source
          · rw [outcome_copyElement_indefinite hlength,
              outcome_copyElement_indefinite (by exact hlength)]
            refine matches_bind (matches_copyElements ih hrelated (Nat.lt_succ_self _)
              (Nat.lt_succ_self _)) (fun _ => advances_pure _) ?_
            intro others _ rest middle hmiddle _ _ _ _ _
            exact (agrees_pure (header.octets ++ others)).matched _ _ hmiddle

end Captured

namespace Decoder

/-- Whether what is read from the content of an element is the same on corresponding sources. -/
def IsUniform (read : ValueReader) : Prop :=
  ∀ (c : Correspondence) header tag? depth,
    c.Agrees (read ⟨header.moved c.shift, tag?, depth⟩) (read ⟨header, tag?, depth⟩)

theorem agrees_readUnknown (rules : EncodingRules) (header : Header) (depth : Nat) :
    c.Agrees (readUnknown rules (header.moved c.shift) depth) (readUnknown rules header depth) := by
  apply ((Captured.agrees_copyElement rules depth header).bind fun copied =>
    agrees_pure (⟨header.identifier, copied⟩ : Captured)).bind
  intro captured
  exact agrees_pure (header.tag.text, Value.captured captured)

theorem agrees_readExplicit {inner : ValueReader} (h : IsUniform inner) (depth : Nat)
    (definite : Bool) :
    c.Agrees (readExplicit rules inner depth definite)
      (readExplicit rules inner depth definite) := by
  refine carries_position.bind fun start => (carries_nextHeader? definite).bind fun header? => ?_
  cases header? with
  | none => exact carries_failAt rfl
  | some header =>
      refine (h c header none depth).bind fun value => carries_position.bind fun stop => ?_
      refine (carries_nextHeader? definite).bind fun header? => ?_
      cases header? with
      | none => exact agrees_pure value
      | some header => exact carries_failAt rfl

variable {layout : Layout ValueReader}

theorem agrees_readComponent (h : ∀ component ∈ layout.components, IsUniform component.type)
    (depth : Nat) (previous? : Option Nat) (header : Header) :
    c.Agrees (readComponent rules layout depth previous? (header.moved c.shift))
      (readComponent rules layout depth previous? header) := by
  rw [readComponent_eq, readComponent_eq]
  have htag : (header.moved c.shift).tag = header.tag := rfl
  rw [htag]
  cases hmatch : layout.match? previous? header.tag with
  | none =>
      refine .ite ?_ (carries_failAt rfl)
      exact (agrees_readUnknown rules header depth).bind fun _ => agrees_pure _
  | some component =>
      refine (h component (Layout.mem_components_of_match? hmatch) c header none depth).bind
        fun value => ?_
      simp only [failAt_bind]
      exact .ite (carries_failAt rfl) (agrees_pure _)

theorem agrees_readCollection (h : ∀ component ∈ layout.components, IsUniform component.type)
    (depth : Nat) (definite : Bool) :
    c.Agrees (readCollection rules layout depth definite)
      (readCollection rules layout depth definite) := by
  cases hlist : layout.kind.isList with
  | false =>
      rw [readCollection_of_not_list hlist]
      exact (agrees_readElements (agrees_readComponent h depth) definite none).bind fun _ =>
        agrees_pure _
  | true =>
      cases helement : layout.element? with
      | none =>
          rw [readCollection, if_pos hlist, helement]
          exact carries_position.bind fun start => carries_failAt rfl
      | some element =>
          have hitem (state : Unit) (header : Header) :
              c.Agrees (readItem element depth state (header.moved c.shift))
                (readItem element depth state header) :=
            (h element (Layout.mem_components_of_element? helement) c header none depth).bind
              fun _ => agrees_pure _
          rw [readCollection_of_list hlist helement]
          exact (agrees_readElements hitem definite ()).bind fun _ => agrees_pure _

theorem agrees_readChoice (h : ∀ component ∈ layout.components, IsUniform component.type)
    (header : Header) (depth : Nat) :
    c.Agrees (readChoice rules layout (header.moved c.shift) depth)
      (readChoice rules layout header depth) := by
  rw [readChoice, readChoice]
  have htag : (header.moved c.shift).tag = header.tag := rfl
  rw [htag]
  cases hmatch : layout.componentByTag? header.tag with
  | none =>
      refine .ite ?_ (carries_failAt rfl)
      exact (agrees_readUnknown rules header depth).bind fun _ => agrees_pure _
  | some component =>
      exact (h component (List.mem_of_find?_eq_some hmatch) c header none depth).bind fun _ =>
        agrees_pure _

end Decoder

open Decoder in
theorem CompiledType.isUniform_read (type : CompiledType) (rules : EncodingRules) :
    IsUniform (type.read rules) := by
  intro c header tag? depth
  have hcomponents {layout : Layout CompiledType}
      (ih : ∀ component ∈ layout.components, ∀ tag? depth (c : Correspondence) header,
        c.Agrees (component.type.read rules ⟨header.moved c.shift, tag?, depth⟩)
          (component.type.read rules ⟨header, tag?, depth⟩)) :
      ∀ component ∈ (layout.map fun type => type.read rules).components,
        IsUniform component.type := by
    intro component hmem c header tag? depth
    obtain ⟨source, hsource, rfl⟩ := List.mem_map.mp hmem
    exact ih source hsource tag? depth c header
  induction type, tag?, depth using readInduct generalizing c header with
  | zero type tag? =>
      rw [read_zero, read_zero]
      exact carries_failAt rfl
  | builtin info builtin tag? depth =>
      rw [read_builtin, read_builtin]
      exact agrees_readBuiltin rules builtin header tag? depth
  | «alias» info target tag? depth ih =>
      rw [read_alias, read_alias]
      exact ih c header
  | implicit info tag inner tag? depth ih =>
      rw [read_implicit, read_implicit]
      exact ih c header
  | explicit info tag inner tag? depth ih =>
      have hinner : IsUniform (inner.read rules) :=
        fun c header tag? depth => ih tag? depth c header
      rw [read_explicit, read_explicit]
      exact (agrees_checkTag header _).bind fun _ =>
        agrees_readConstructed (fun c => agrees_readExplicit hinner depth) header
  | constructed info layout tag tag? depth htag ih =>
      rw [read_collection htag, read_collection htag]
      exact (agrees_checkTag header _).bind fun _ => agrees_readConstructed
        (fun c => agrees_readCollection (hcomponents ih) depth) header
  | choice info layout depth hkind ih =>
      rw [read_choice hkind, read_choice hkind]
      exact agrees_readChoice (hcomponents ih) header depth
  | taggedChoice info layout tag depth hkind =>
      rw [read_tagged_choice hkind, read_tagged_choice hkind]
      exact carries_failAt rfl

theorem Schema.agrees_decodeOne (c : Correspondence) (schema : Schema) (handle : Handle)
    (decoder : Decoder) :
    c.Agrees (schema.decodeOne handle decoder) (schema.decodeOne handle decoder) := by
  refine carries_position.bind fun start => (carries_checked rfl).bind fun type => ?_
  refine (Header.carries_read decoder.rules).bind fun header => ?_
  refine (type.isUniform_read decoder.rules c header none decoder.maxDepth).bind fun value => ?_
  exact (carries_checked rfl).bind fun _ => agrees_pure value

end Asn1

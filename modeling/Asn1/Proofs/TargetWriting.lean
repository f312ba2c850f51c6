import Asn1.Encoding.Target
import Asn1.Proofs.AcceptanceAgreement
import Asn1.Proofs.CanonicalValues
import Asn1.Proofs.TypeWriting

namespace Asn1

open Results

namespace Put

variable {σ : Type}

theorem outcome_bind (put : Put σ Unit) (next : Unit → Put σ Unit) (state : σ) :
    (put >>= next).outcome state =
      match put.outcome state with
      | (.ok (), after) => (next ()).outcome after
      | (.error error, after) => (.error error, after) := by
  change (ExceptT.bindCont next (put.outcome state).1).run (put.outcome state).2 = _
  rcases put.outcome state with ⟨_ | _, after⟩ <;> rfl

end Put

namespace Written

/-- Whether writing has failed. -/
def result (written : Written) : Except EncodeError Unit :=
  match written.failure? with
  | some error => .error error
  | none => .ok ()

end Written

namespace Target

variable {σ τ : Type} {target : Target σ} {put next : Put σ Unit} {written second : Written}

/-- Whether writing to a target delivers what has been collected, up to a piece at which the target
fails. -/
def Delivers (target : Target σ) (put : Put σ Unit) (written : Written) : Prop :=
  ∀ state,
    (put.outcome state).1 = written.result ∧
        target.received (put.outcome state).2 = target.received state ++ written.octets ∨
      ∃ before piece after middle reason, written.octets = before ++ piece ++ after ∧
        target.received middle = target.received state ++ before ∧
        target.writeAll piece middle = (.error reason, (put.outcome state).2) ∧
        (put.outcome state).1 = .error (.target reason)

theorem outcome_write (target : Target σ) (piece : Octets) (state : σ) :
    (target.write piece).outcome state =
      match target.writeAll piece state with
      | (.ok (), next) => (.ok (), next)
      | (.error reason, next) => (.error (.target reason), next) :=
  rfl

theorem delivers_write (target : Target σ) (piece : Octets) :
    target.Delivers (target.write piece) (.done piece) := by
  intro state
  obtain ⟨taken, rest, rfl, hreceived, hrest⟩ := target.exists_taken piece state
  rw [outcome_write]
  rcases hwrite : target.writeAll (taken ++ rest) state with ⟨reason | _, after⟩
  · exact .inr ⟨[], taken ++ rest, [], state, reason, by simp [Written.done], by simp, hwrite, rfl⟩
  · rw [hwrite] at hreceived hrest
    obtain rfl := hrest rfl
    refine .inl ⟨rfl, ?_⟩
    rwa [List.append_nil]

theorem delivers_throw (target : Target σ) (error : EncodeError) :
    target.Delivers (throw error) (.fail error) := by
  intro _
  exact .inl ⟨rfl, (List.append_nil _).symm⟩

theorem delivers_pure (target : Target σ) : target.Delivers (pure ()) (.done []) := by
  intro _
  exact .inl ⟨rfl, (List.append_nil _).symm⟩

theorem Delivers.bind (h : target.Delivers put written) (hnext : target.Delivers next second) :
    target.Delivers (put >>= fun _ => next) (written ++ second) := by
  obtain ⟨octets, failure?⟩ := written
  intro state
  rw [Put.outcome_bind]
  rcases h state with ⟨hresult, hreceived⟩ |
      ⟨before, piece, after, middle, reason, hoctets, hbefore, hfail, hresult⟩
  · rcases houtcome : put.outcome state with ⟨result, after⟩
    rw [houtcome] at hresult hreceived
    obtain rfl := hresult
    cases failure? with
    | some error => exact .inl ⟨rfl, hreceived⟩
    | none =>
        simp only [Written.result]
        rcases hnext after with ⟨hsecond, hlast⟩ |
            ⟨before, piece, rest, middle, reason, hoctets, hbefore, hfail, herror⟩
        · exact .inl ⟨hsecond, hlast.trans (by rw [hreceived, List.append_assoc]; rfl)⟩
        · refine .inr ⟨octets ++ before, piece, rest, middle, reason, ?_, ?_, hfail, herror⟩
          · change octets ++ second.octets = _
            rw [hoctets, List.append_assoc, List.append_assoc, List.append_assoc]
          · rw [hbefore, hreceived, List.append_assoc]
  · rcases houtcome : put.outcome state with ⟨result, last⟩
    rw [houtcome] at hresult hfail
    obtain rfl := hresult
    cases failure? with
    | some error =>
        exact .inr ⟨before, piece, after, middle, reason, hoctets, hbefore, hfail, rfl⟩
    | none =>
        refine .inr ⟨before, piece, after ++ second.octets, middle, reason, ?_, hbefore, hfail, rfl⟩
        rw [← List.append_assoc, ← hoctets]
        rfl

theorem delivers_forM {α : Type} {items : List α} {put : α → Put σ Unit} {written : α → Written}
    (h : ∀ item ∈ items, target.Delivers (put item) (written item)) :
    target.Delivers (items.forM put) (.concat (items.map written)) := by
  induction items with
  | nil => exact delivers_pure target
  | cons item rest ih =>
      obtain ⟨hitem, hrest⟩ := List.forall_mem_cons.mp h
      exact hitem.bind (ih hrest)

theorem concat_done (pieces : List Octets) :
    Written.concat (pieces.map .done) = .done pieces.flatten := by
  rw [Written.concat_eq_done_iff]
  exact ⟨pieces, rfl, List.forall₂_map_left_iff.mpr (List.forall₂_same.mpr fun _ _ => rfl)⟩

theorem flatten_pieces (length : Length) : length.pieces.flatten = length.octets := by
  cases length with
  | indefinite => rfl
  | definite size =>
      rw [Length.pieces, Length.octets]
      split <;> simp

theorem delivers_writeHeader (target : Target σ) (tag : Tag) (constructed : Bool)
    (length : Length) :
    target.Delivers (target.writeHeader tag constructed length)
      (.done (headerOctets tag constructed length)) := by
  have hpieces : target.Delivers (length.pieces.forM target.write) (.done length.octets) := by
    rw [← flatten_pieces, ← concat_done]
    exact delivers_forM fun piece _ => delivers_write target piece
  exact (delivers_write target _).bind hpieces

theorem Delivers.outcome_vec {put : Put Octets Unit} (h : vec.Delivers put written)
    (taken : Octets) : put.outcome taken = (written.result, taken ++ written.octets) := by
  rcases h taken with ⟨hresult, hreceived⟩ | ⟨_, _, _, _, _, _, _, hfail, _⟩
  · exact Prod.ext hresult hreceived
  · exact absurd (congrArg Prod.fst hfail) (by rintro ⟨⟩)

end Target

namespace Encoder

open Target

variable {encoder : Encoder} {σ τ : Type} {target : Target τ}

theorem delivers_putConstructed (tag : Tag) {content : Put τ Unit} {buffered : Put Octets Unit}
    {written : Written} (hcontent : target.Delivers content written)
    (hbuffered : vec.Delivers buffered written) :
    target.Delivers (encoder.putConstructed target tag content buffered)
      (encoder.constructed tag written) := by
  rw [putConstructed, constructed]
  split
  · rw [hbuffered.outcome_vec]
    cases hfailure : written.failure? with
    | some error =>
        simp only [Written.result, hfailure]
        exact delivers_throw target error
    | none =>
        simp only [Written.result, hfailure, List.nil_append]
        exact (delivers_writeHeader target _ _ _).bind (delivers_write target _)
  · split
    · rw [← bind_assoc]
      exact ((delivers_writeHeader target _ _ _).bind hcontent).bind (delivers_write target _)
    · exact delivers_throw target _

theorem delivers_putPrimitive (tag : Tag) (content : Octets) :
    target.Delivers (putPrimitive target tag content) (.done (primitiveElement tag content)) := by
  rw [putPrimitive]
  exact (delivers_writeHeader target _ _ _).bind (delivers_write target _)

theorem delivers_putSegments (content : Octets) :
    target.Delivers (putSegments target content)
      (.concat ((segments EncodingRules.segmentLength content).map fun segment =>
        .done (primitiveElement .octetString segment))) := by
  apply delivers_forM
  intro segment _
  exact delivers_putPrimitive .octetString segment

theorem delivers_putBuiltin (builtin : Builtin) (value : Value) (tag : Tag) :
    target.Delivers (encoder.putBuiltin target builtin value tag)
      (encoder.builtin builtin value tag) := by
  rw [putBuiltin, Encoder.builtin]
  cases builtin.encodeContent encoder.rules value with
  | error error => exact delivers_throw target _
  | ok content =>
      simp only
      split
      · exact delivers_putConstructed tag (delivers_putSegments content)
          (delivers_putSegments content)
      · exact delivers_putPrimitive tag content

theorem delivers_putUnknown (value : Value) :
    target.Delivers (encoder.putUnknown target value) (encoder.unknown value) := by
  cases value with
  | captured element =>
      rw [putUnknown, unknown]
      cases encoder.rules.isRestricted <;> cases Captured.ofOctets encoder.rules element.octets
      all_goals first
        | exact delivers_throw target _
        | exact delivers_write target _
  | _ => exact delivers_throw target _

/-- Whether writing the values of a type to one side delivers what is collected for them. -/
def DeliversSide (encoder : Encoder) (outer : Target σ) (target : Target τ)
    (side : Puts σ → Put τ Unit) (type : CompiledType) : Prop :=
  ∀ input, target.Delivers (side (type.interpret (encoder.putStep outer) input))
    (type.interpret encoder.step input)

variable {outer : Target σ} {side : Puts σ → Put τ Unit}

theorem delivers_putContent (target : Target τ) (side : Puts σ → Put τ Unit)
    (layout : Layout CompiledType)
    (htypes : ∀ component ∈ layout.components,
      encoder.DeliversSide outer target side component.type) (value : Value) :
    target.Delivers
      (encoder.putContent target side
        (layout.map (CompiledType.interpret (encoder.putStep outer))) value)
      (encoder.content (layout.map (CompiledType.interpret encoder.step)) value) := by
  have hkind {υ : Type} (f : CompiledType → υ) : (layout.map f).kind = layout.kind := rfl
  unfold putContent content
  rw [hkind, hkind]
  split
  · rw [Layout.element?_map, Layout.element?_map]
    cases helement : layout.element? with
    | none => exact delivers_throw target _
    | some element =>
        cases value with
        | list items =>
            exact delivers_forM fun item _ =>
              htypes element (Layout.mem_components_of_element? helement) (item, none)
        | _ => exact delivers_throw target _
  · cases value with
    | collection entries =>
        refine delivers_forM fun ⟨name, value⟩ _ => ?_
        simp only [Layout.component?_map]
        cases hfind : layout.component? name with
        | none => exact delivers_putUnknown value
        | some component =>
            exact htypes component (List.mem_of_find?_eq_some hfind) (value, none)
    | _ => exact delivers_throw target _

theorem delivers_putForm {form : TypeForm CompiledType}
    (htypes : ∀ type ∈ form.types, encoder.DeliversSide outer target side type)
    (hbuffered : ∀ type ∈ form.types, encoder.DeliversSide outer vec Puts.buffered type)
    (info : TypeInfo) (input : Value × Option Tag) :
    target.Delivers
      (encoder.putForm target side (form.map (CompiledType.interpret (encoder.putStep outer)))
        input)
      (encoder.step info (form.map (CompiledType.interpret encoder.step)) input) := by
  obtain ⟨value, tag?⟩ := input
  cases form with
  | builtin builtin => exact delivers_putBuiltin builtin value _
  | «alias» next => exact htypes next TypeForm.target_mem_types _
  | tagged tag method inner =>
      cases method with
      | implicit => exact htypes inner TypeForm.inner_mem_types _
      | explicit =>
          exact delivers_putConstructed _ (htypes inner TypeForm.inner_mem_types _)
            (hbuffered inner TypeForm.inner_mem_types _)
  | collection layout =>
      have hcontent := delivers_putContent target side layout
        (fun component hmem => htypes component.type (TypeForm.type_mem_types hmem)) value
      have hvec := delivers_putContent vec Puts.buffered layout
        (fun component hmem => hbuffered component.type (TypeForm.type_mem_types hmem)) value
      unfold putForm step
      dsimp only [TypeForm.map, Layout.kind_map]
      cases layout.kind.tag? with
      | some tag => exact delivers_putConstructed _ hcontent hvec
      | none =>
          cases tag? with
          | some tag => exact delivers_throw target _
          | none => exact hcontent

/-- What is written to a target is what is collected for a value, and so is what is written to a vec
in its place. -/
theorem delivers_putStep (encoder : Encoder) (outer : Target σ) (type : CompiledType) :
    encoder.DeliversSide outer outer Puts.direct type ∧
      encoder.DeliversSide outer vec Puts.buffered type := by
  induction type using CompiledType.induct with
  | mk info form ih =>
      have hbuffered (inner : CompiledType) (hmem : inner ∈ form.types) := (ih inner hmem).2
      refine ⟨fun input => ?_, fun input => ?_⟩ <;>
        rw [CompiledType.interpret_mk, CompiledType.interpret_mk]
      · exact delivers_putForm (fun inner hmem => (ih inner hmem).1) hbuffered info input
      · exact delivers_putForm hbuffered hbuffered info input

end Encoder

namespace Schema

open Target

variable {schema : Schema} {handle : Handle}

theorem delivers_encodeTo (schema : Schema) (handle : Handle) (encoder : Encoder) (value : Value)
    {σ : Type} (target : Target σ) :
    target.Delivers (schema.encodeTo handle encoder value target)
      (schema.encode handle encoder value) := by
  rw [encodeTo, encode]
  cases schema.canonicalize handle value with
  | error error => exact delivers_throw target _
  | ok form =>
      cases schema.compiled handle with
      | error error => exact delivers_throw target _
      | ok type => exact (Encoder.delivers_putStep encoder target type).1 _

end Schema

namespace Target

variable {σ : Type} {target : Target σ} {put : Put σ Unit} {written : Written}

/-- A target that takes only so many octets has in the end what is left of the collected octets when
they are cut off. -/
theorem Delivers.outcome_limited {limit : Nat} {reason : String}
    {put : Put { taken : Octets // taken.length ≤ limit } Unit}
    (h : (limited limit reason).Delivers put written) :
    let outcome := put.outcome ⟨[], Nat.zero_le limit⟩
    outcome.1 = (written.limited limit reason).result ∧
      outcome.2.val = (written.limited limit reason).octets := by
  intro outcome
  rcases h ⟨[], Nat.zero_le limit⟩ with ⟨hresult, hreceived⟩ |
      ⟨before, piece, after, middle, found, hoctets, hbefore, hfail, hresult⟩
  · have hlen : written.octets.length ≤ limit := by
      have hbound := outcome.2.property
      rwa [show outcome.2.val = [] ++ written.octets from hreceived] at hbound
    rw [Written.limited, if_neg (by omega)]
    exact ⟨hresult, hreceived⟩
  · have hmiddle : middle.val = before := hbefore
    have hbound := hmiddle ▸ middle.property
    have hwrite : ¬middle.val.length + piece.length ≤ limit := by
      intro hfits
      simp [limited, hfits] at hfail
    simp only [limited, hwrite, dif_neg, not_false_iff, Prod.mk.injEq, Except.error.injEq] at hfail
    obtain ⟨rfl, hlast⟩ := hfail
    rw [hmiddle] at hwrite
    rw [Written.limited, hoctets, if_pos (by simp only [List.length_append]; omega)]
    refine ⟨hresult, ?_⟩
    rw [show outcome.2 = _ from hlast.symm, List.append_assoc, List.take_append,
      List.take_of_length_le hbound, List.take_append_of_le_length (by omega)]
    rw [← hmiddle]

end Target

namespace Put

variable {σ : Type}

/-- Whether the target is untouched if writing fails for a reason that does not lie in the target.
-/
def IsAllOrNothing (put : Put σ Unit) : Prop :=
  ∀ state error, (put.outcome state).1 = .error error → (∀ reason, error ≠ .target reason) →
    (put.outcome state).2 = state

theorem isAllOrNothing_throw (error : EncodeError) : (throw error : Put σ Unit).IsAllOrNothing := by
  intro _ _ _ _
  rfl

theorem isAllOrNothing_of_delivers {target : Target σ} {put : Put σ Unit} {octets : Octets}
    (h : target.Delivers put (.done octets)) : put.IsAllOrNothing := by
  intro state error herror hother
  rcases h state with ⟨hresult, -⟩ | ⟨_, _, _, _, reason, _, _, _, hresult⟩
  · exact absurd (hresult.symm.trans herror) (by rintro ⟨⟩)
  · exact absurd (Except.error.inj (herror.symm.trans hresult)) (hother reason)

theorem IsAllOrNothing.forM_singleton {α : Type} {put : α → Put σ Unit} {item : α}
    (h : (put item).IsAllOrNothing) : ([item].forM put).IsAllOrNothing := by
  have houtcome (state : σ) : ([item].forM put).outcome state = (put item).outcome state := by
    change (put item >>= fun _ => pure ()).outcome state = _
    rw [outcome_bind]
    rcases (put item).outcome state with ⟨_ | _, _⟩ <;> rfl
  intro state
  rw [houtcome]
  exact h state

end Put

namespace Encoder

open Target Put

variable {encoder : Encoder} {σ : Type} {target : Target σ}

theorem isAllOrNothing_putConstructed (hdefinite : encoder.isDefinite = true) (tag : Tag)
    (content : Put σ Unit) (buffered : Put Octets Unit) :
    (encoder.putConstructed target tag content buffered).IsAllOrNothing := by
  have hbuffers : (encoder.buffering && encoder.rules.allowsDefiniteConstructed) = true := hdefinite
  rw [putConstructed, if_pos hbuffers]
  rcases buffered.outcome [] with ⟨error | _, buffer⟩
  · exact isAllOrNothing_throw error
  · exact isAllOrNothing_of_delivers
      ((delivers_writeHeader target tag true _).bind (delivers_write target buffer))

theorem isAllOrNothing_putBuiltin (hdefinite : encoder.isDefinite = true) (builtin : Builtin)
    (value : Value) (tag : Tag) :
    (encoder.putBuiltin target builtin value tag).IsAllOrNothing := by
  have hrules : encoder.rules.allowsDefiniteConstructed = true :=
    (Bool.and_eq_true_iff.mp hdefinite).2
  rw [putBuiltin]
  cases builtin.encodeContent encoder.rules value with
  | error error => exact isAllOrNothing_throw _
  | ok content =>
      simp only [hrules, Bool.not_true, Bool.false_and, Bool.false_eq_true, if_false]
      exact isAllOrNothing_of_delivers (delivers_putPrimitive tag content)

theorem isAllOrNothing_putUnknown (value : Value) :
    (encoder.putUnknown target value).IsAllOrNothing := by
  cases value with
  | captured element =>
      rw [putUnknown]
      split
      · exact isAllOrNothing_throw _
      · exact isAllOrNothing_of_delivers (delivers_write target _)
  | _ => exact isAllOrNothing_throw _

theorem isAllOrNothing_putContent {side : Puts σ → Put σ Unit}
    {layout : Layout (Value × Option Tag → Puts σ)} (hlist : layout.kind.isList = false)
    {entries : Entries} (hlen : entries.length ≤ 1)
    (hentries : ∀ entry ∈ entries, ∀ component, layout.component? entry.1 = some component →
      (side (component.type (entry.2, none))).IsAllOrNothing) :
    (encoder.putContent target side layout (.collection entries)).IsAllOrNothing := by
  unfold putContent
  rw [if_neg (by simp [hlist])]
  rcases entries with _ | ⟨⟨name, value⟩, _ | ⟨second, rest⟩⟩
  · exact isAllOrNothing_of_delivers (delivers_pure target)
  · refine IsAllOrNothing.forM_singleton ?_
    cases hfind : layout.component? name with
    | none =>
        simp only [hfind]
        exact isAllOrNothing_putUnknown value
    | some component =>
        simp only [hfind]
        exact hentries _ List.mem_cons_self component hfind
  · simp at hlen

end Encoder

namespace CompiledType

open Put

variable {encoder : Encoder} {σ : Type} {target : Target σ}

theorem exists_entries_of_canonicalizes {layout : Layout CompiledType} {values : NamedValues}
    {scope : Scope} {value : Value} {canonical : CanonicalForm} (hkind : layout.kind = .choice)
    (h : layout.CanonicalizesEntries values scope value canonical) :
    ∃ kept : Entries, canonical.value = .collection kept ∧ kept.length ≤ 1 ∧
      ∀ entry ∈ kept, ∀ component, layout.component? entry.1 = some component →
        ∃ scope source form, component.type.canonicalize values scope source = .ok form ∧
          form.value = entry.2 := by
  obtain ⟨entries, kept, rfl, hadmits, hvalue, hkept⟩ := h.exists_kept
  obtain ⟨order, hperm, hsublist⟩ := hkept.names
  obtain ⟨-, hlength⟩ := (Layout.admits_choice_iff hkind).mp hadmits
  have hle := hperm.length_eq ▸ hsublist.length_le
  refine ⟨kept, hvalue, by simpa [hlength] using hle, fun entry hentry component hfind => ?_⟩
  obtain ⟨-, source, form, -, hform, hsame⟩ := hkept.stems entry hentry component hfind
  exact ⟨_, source, form, hform, hsame⟩

/-- An encoder that writes constructed values with definite length touches the target only once
nothing but the target can fail: before that, it writes to vecs, and a CHOICE without a tag passes
on what its only entry does. -/
theorem isAllOrNothing_direct (hdefinite : encoder.isDefinite = true) {type : CompiledType}
    (hregular : type.IsRegular) {values : NamedValues} {scope : Scope} {value : Value}
    {canonical : CanonicalForm} (hcanonical : type.canonicalize values scope value = .ok canonical)
    (tag? : Option Tag) :
    (type.interpret (encoder.putStep target) (canonical.value, tag?)).direct.IsAllOrNothing := by
  induction type using CompiledType.induct generalizing scope value canonical tag? with
  | mk info form ih =>
      obtain ⟨hlayout, htypes⟩ := hregular.of_mk
      obtain ⟨resolved, result, -, hform, -, rfl⟩ := (canonicalize_mk_iff hlayout).mp hcanonical
      rw [interpret_mk]
      cases form with
      | builtin builtin => exact Encoder.isAllOrNothing_putBuiltin hdefinite builtin _ _
      | «alias» next =>
          exact ih next TypeForm.target_mem_types (htypes next TypeForm.target_mem_types) hform tag?
      | tagged tag method inner =>
          cases method with
          | implicit =>
              exact ih inner TypeForm.inner_mem_types
                (htypes inner TypeForm.inner_mem_types) hform _
          | explicit => exact Encoder.isAllOrNothing_putConstructed hdefinite _ _ _
      | collection layout =>
          unfold Encoder.putStep Encoder.putForm
          dsimp only [TypeForm.map, Layout.kind_map]
          cases htag : layout.kind.tag? with
          | some tag => exact Encoder.isAllOrNothing_putConstructed hdefinite _ _ _
          | none =>
              cases tag? with
              | some tag => exact isAllOrNothing_throw _
              | none =>
                  have hkind : layout.kind = .choice := CollectionKind.tag?_eq_none_iff.mp htag
                  have hlist := CollectionKind.isList_of_choice hkind
                  rw [TypeForm.Canonicalizes, if_neg (by simp [hlist])] at hform
                  obtain ⟨kept, hkept, hlen, hstems⟩ := exists_entries_of_canonicalizes hkind hform
                  simp only [hkept]
                  refine Encoder.isAllOrNothing_putContent hlist hlen ?_
                  intro entry hentry component hfind
                  rw [Layout.component?_map, Option.map_eq_some_iff] at hfind
                  obtain ⟨source, hsource, rfl⟩ := hfind
                  obtain ⟨scope, value, form, hvalue, hsame⟩ := hstems entry hentry source hsource
                  have hmem := TypeForm.type_mem_types (List.mem_of_find?_eq_some hsource)
                  exact hsame ▸ ih source.type hmem (htypes source.type hmem) hvalue none

end CompiledType

namespace Schema

open Target Put

variable {schema : Schema} {handle : Handle} {type : CompiledType}

theorem outcome_encodeTo_vec (schema : Schema) (handle : Handle) (encoder : Encoder)
    (value : Value) :
    (schema.encodeTo handle encoder value vec).outcome [] =
      ((schema.encode handle encoder value).result, (schema.encode handle encoder value).octets) :=
  (delivers_encodeTo schema handle encoder value vec).outcome_vec []

theorem Reachable.isAllOrNothing_encodeTo (hschema : schema.Reachable)
    (hcompiled : schema.compiled handle = .ok type) {encoder : Encoder}
    (hdefinite : encoder.isDefinite = true) (value : Value) {σ : Type} (target : Target σ) :
    (schema.encodeTo handle encoder value target).IsAllOrNothing := by
  rw [encodeTo, hcompiled]
  cases hform : schema.canonicalize handle value with
  | error error => exact isAllOrNothing_throw _
  | ok form =>
      rw [canonicalize_eq hcompiled] at hform
      exact CompiledType.isAllOrNothing_direct hdefinite (hschema.consistent.isRegular hcompiled)
        hform none

/-- Buffered encoding is all or nothing, and what arrives at a target is never out of place. An
encoder that buffers leaves a target, of which nothing is known, as it is if it fails under the
basic or distinguished rules for any reason but the target. With any encoder, a target has received
what is written to a vec, or the front part of it if the target fails; for one that takes only so
many octets, that are these octets. -/
theorem Reachable.encodeTo_wholly (hschema : schema.Reachable)
    (hcompiled : schema.compiled handle = .ok type) (encoder : Encoder) (value : Value) :
    (encoder.buffering = true → encoder.rules = .ber ∨ encoder.rules = .der →
      ∀ {σ : Type} (target : Target σ) (state : σ) error,
        ((schema.encodeTo handle encoder value target).outcome state).1 = .error error →
          (∀ reason, error ≠ .target reason) →
            ((schema.encodeTo handle encoder value target).outcome state).2 = state) ∧
    (schema.encodeTo handle encoder value vec).outcome [] =
      ((schema.encode handle encoder value).result, (schema.encode handle encoder value).octets) ∧
    (∀ {σ : Type} (target : Target σ) (state : σ),
      let outcome := (schema.encodeTo handle encoder value target).outcome state
      let collected := (schema.encodeTo handle encoder value vec).outcome []
      (∃ delivered, delivered <+: collected.2 ∧
        target.received outcome.2 = target.received state ++ delivered) ∧
      ((∀ reason, outcome.1 ≠ .error (.target reason)) →
        outcome.1 = collected.1 ∧
          target.received outcome.2 = target.received state ++ collected.2)) ∧
    (∀ limit reason,
      let outcome := (schema.encodeTo handle encoder value (limited limit reason)).outcome
        ⟨[], Nat.zero_le limit⟩
      let collected := (schema.encodeTo handle encoder value vec).outcome []
      outcome.2.val = collected.2.take limit ∧
        outcome.1 =
          if limit < collected.2.length then .error (.target reason) else collected.1) := by
  have hvec := outcome_encodeTo_vec schema handle encoder value
  refine ⟨fun hbuffering hrules σ target state error herror hother => ?_, hvec, ?_, ?_⟩
  · have hdefinite : encoder.isDefinite = true := by
      rw [Encoder.isDefinite, hbuffering]
      rcases hrules with hrules | hrules <;> rw [hrules] <;> rfl
    exact hschema.isAllOrNothing_encodeTo hcompiled hdefinite value target state error herror hother
  · intro σ target state outcome collected
    simp only [collected, hvec]
    rcases delivers_encodeTo schema handle encoder value target state with ⟨hresult, hreceived⟩ |
        ⟨before, piece, after, middle, reason, hoctets, hbefore, hfail, hresult⟩
    · exact ⟨⟨_, List.prefix_rfl, hreceived⟩, fun _ => ⟨hresult, hreceived⟩⟩
    · obtain ⟨taken, rest, rfl, hreceived, -⟩ := target.exists_taken piece middle
      refine ⟨⟨before ++ taken, ⟨rest ++ after, ?_⟩, ?_⟩, fun hother => ?_⟩
      · rw [hoctets]
        simp only [List.append_assoc]
      · rw [hfail, hbefore] at hreceived
        rw [← List.append_assoc]
        exact hreceived
      · exact absurd hresult (hother reason)
  · intro limit reason outcome collected
    obtain ⟨hresult, hreceived⟩ :=
      (delivers_encodeTo schema handle encoder value (limited limit reason)).outcome_limited
    simp only [collected, hvec, outcome]
    rw [hresult, hreceived, Written.limited]
    split
    · exact ⟨rfl, rfl⟩
    · next hfits => exact ⟨(List.take_of_length_le (by omega)).symm, rfl⟩

/-- A value with an unknown addition, whose captured length is not in its shortest form. -/
def longFormAddition : Value :=
  .collection [("b", .boolean true), ("x", .integer ⟨5, by decide, by decide⟩),
    ("y", .captured ⟨⟨.octetString, false⟩, [0x04, 0x81, 0x01, 0x05]⟩)]

theorem outcome_encodeTo_longFormAddition :
    ((defaultedSequence.encodeTo ⟨2⟩ ⟨.der, true⟩ longFormAddition (limited 4 "full")).outcome
      ⟨[], Nat.zero_le 4⟩).1 = .error (.format (.ruleViolation .capturedValue)) := by
  decide +kernel

/-- The distinguished rules refuse a captured addition after two components have been written, none
of which has got to the target; without buffering, the basic rules let four octets get to a target
that takes no more. -/
theorem encodeTo_wholly_longFormAddition :
    ((defaultedSequence.encodeTo ⟨2⟩ ⟨.der, true⟩ longFormAddition (limited 4 "full")).outcome
        ⟨[], Nat.zero_le 4⟩).2 = ⟨[], Nat.zero_le 4⟩ ∧
      ((defaultedSequence.encodeTo ⟨2⟩ ⟨.ber, false⟩ longFormAddition (limited 4 "full")).outcome
        ⟨[], Nat.zero_le 4⟩).2.val = [0x30, 0x80, 0x01, 0x01] := by
  have hcollected : (defaultedSequence.encodeTo ⟨2⟩ ⟨.ber, false⟩ longFormAddition vec).outcome [] =
      (.ok (), [0x30, 0x80, 0x01, 0x01, 0xFF, 0x02, 0x01, 0x05, 0x04, 0x81, 0x01, 0x05, 0, 0]) := by
    decide +kernel
  have hreachable : defaultedSequence.Reachable := reachable_extendedSequence _ _ _
  obtain ⟨hwhole, -⟩ :=
    hreachable.encodeTo_wholly compiled_defaultedSequence ⟨.der, true⟩ longFormAddition
  obtain ⟨-, -, -, hlimited⟩ :=
    hreachable.encodeTo_wholly compiled_defaultedSequence ⟨.ber, false⟩ longFormAddition
  obtain ⟨hoctets, -⟩ := hlimited 4 "full"
  rw [hcollected] at hoctets
  refine ⟨hwhole rfl (.inr rfl) (limited 4 "full") _ _ outcome_encodeTo_longFormAddition ?_,
    hoctets⟩
  rintro _ ⟨⟩

end Schema

end Asn1

import Asn1.Proofs.LayoutVersions
import Asn1.Proofs.Lookups
import Asn1.Proofs.Recognition
import Asn1.Proofs.SelfDelimiting

namespace Asn1

open Read Results

namespace Value

mutual

/-- The named values that a value mentions. -/
def references : Value → List String
  | reference name => [name]
  | collection entries => entryReferences entries
  | list items => itemReferences items
  | _ => []

def entryReferences : List (String × Value) → List String
  | [] => []
  | (_, value) :: rest => references value ++ entryReferences rest

def itemReferences : List Value → List String
  | [] => []
  | value :: rest => references value ++ itemReferences rest

end

theorem references_collection_eq_nil_iff {entries : Entries} :
    (collection entries).references = [] ↔ ∀ entry ∈ entries, entry.2.references = [] := by
  rw [references]
  induction entries with
  | nil => simp [entryReferences]
  | cons entry rest ih =>
      rw [entryReferences, List.append_eq_nil_iff, ih, List.forall_mem_cons]

theorem references_list_eq_nil_iff {items : List Value} :
    (list items).references = [] ↔ ∀ item ∈ items, item.references = [] := by
  rw [references]
  induction items with
  | nil => simp [itemReferences]
  | cons item rest ih =>
      rw [itemReferences, List.append_eq_nil_iff, ih, List.forall_mem_cons]

theorem isReference_of_references {value : Value} (h : value.references = []) :
    value.isReference = false := by
  cases value with
  | reference name => simp [references] at h
  | _ => rfl

end Value

/-- Whether the collection value that is being walked, if there is one, mentions no named values. -/
def Scope.MentionsNone (scope : Scope) : Prop :=
  ∀ entries, scope.entries? = some entries → (Value.collection entries).references = []

theorem Scope.mentionsNone_top (schema : SchemaView) : (Scope.top schema).MentionsNone := by
  rintro entries ⟨⟩

/-- Whether a constraint gives the same results with two schemas where no named values are
mentioned. -/
def Constraint.ReadsAlike (view after : SchemaView) (constraint : Constraint) : Prop :=
  ∀ (scope : Scope) value, scope.MentionsNone → value.references = [] →
    constraint.check { scope with schema := view } value =
      constraint.check { scope with schema := after } value

namespace CompiledType

variable {values later : NamedValues} {value : Value} {view after : SchemaView}

/-- Whether this holds of all constraints in a type. -/
def ReadsAlike (view after : SchemaView) (type : CompiledType) : Prop :=
  ∀ inner, type.Reaches inner → ∀ constraint ∈ inner.info.constraints,
    constraint.ReadsAlike view after

theorem ReadsAlike.of_mk {info : TypeInfo} {form : TypeForm CompiledType}
    (h : ReadsAlike view after ⟨info, form⟩) :
    (∀ constraint ∈ info.constraints, constraint.ReadsAlike view after) ∧
      ∀ inner ∈ form.types, inner.ReadsAlike view after :=
  forall_reaches_mk_iff.mp h

theorem ChecksAlike.readsAlike {type : CompiledType} (h : type.ChecksAlike view after) :
    type.ReadsAlike view after := by
  intro inner hreaches constraint hmem scope value _ _
  exact h inner hreaches constraint hmem scope value

/-- Whether a value that mentions no named values conforms to a type does not depend on them. -/
theorem accept_eq_of_references {type : CompiledType} (halike : type.ReadsAlike view after)
    {scope : Scope} (hscope : scope.MentionsNone) (h : value.references = []) :
    type.accept values { scope with schema := view } value =
      type.accept later { scope with schema := after } value := by
  induction type using CompiledType.induct generalizing scope value with
  | mk info form ih =>
      obtain ⟨hchecks, hinner⟩ := halike.of_mk
      have hresolve (values : NamedValues) : values.resolve value = .ok value :=
        NamedValues.resolve_of_not_isReference (Value.isReference_of_references h)
      have htyped : (scope.typed info.handle info.description).MentionsNone := hscope
      have hsame (inner : CompiledType) (hmem : inner ∈ form.types) {scope : Scope}
          (hscope : scope.MentionsNone) {value : Value} (h : value.references = []) :
          inner.accept values { scope with schema := view } value =
            inner.accept later { scope with schema := after } value :=
        ih inner hmem (hinner inner hmem) hscope h
      have hconstraints : info.constraints.forM (·.check (Scope.typed { scope with schema := view }
            info.handle info.description) value) =
          info.constraints.forM (·.check (Scope.typed { scope with schema := after }
            info.handle info.description) value) :=
        forM_congr fun constraint hmem =>
          hchecks constraint hmem _ value htyped h
      have hchecked {inner inner' : Except ValueError Unit} (h : inner = inner') :
          (inner >>= fun _ => info.constraints.forM (·.check (Scope.typed
            { scope with schema := view } info.handle info.description) value)) =
          (inner' >>= fun _ => info.constraints.forM (·.check (Scope.typed
            { scope with schema := after } info.handle info.description) value)) := by
        rw [h, hconstraints]
      rw [accept, accept, interpret_mk, interpret_mk, acceptStep, acceptStep, hresolve, hresolve]
      cases form with
      | builtin builtin => exact hchecked rfl
      | «alias» target => exact hchecked (hsame target TypeForm.target_mem_types htyped h)
      | tagged tag method inner => exact hchecked (hsame inner TypeForm.inner_mem_types htyped h)
      | collection layout =>
          refine hchecked (Layout.accept_congr ?_ ?_)
          · rintro component hmem items rfl item hitem
            exact hsame component.type (TypeForm.type_mem_types hmem) htyped
              (Value.references_list_eq_nil_iff.mp h item hitem)
          · rintro component hmem entries rfl entry hentry
            have hwalking : ((scope.typed info.handle info.description).walking
                entries).MentionsNone := by
              rintro others ⟨⟩
              exact h
            exact hsame component.type (TypeForm.type_mem_types hmem) hwalking
              (Value.references_collection_eq_nil_iff.mp h entry hentry)

end CompiledType

namespace CompiledType

variable {rules : EncodingRules} {header : Header} {tag? : Option Tag} {depth position : Nat}
  {octets : Octets} {value : Value}

theorem references_of_reads {type : CompiledType}
    (h : (type.read rules ⟨header, tag?, depth⟩).Reads position octets value) :
    value.references = [] := by
  refine of_reads (fun _ => True) (fun _ value => value.references = [])
    (fun _ _ _ _ _ => trivial) (fun _ value hleaf => ?_) (fun _ _ _ _ _ _ _ => rfl)
    (fun _ _ => id) (fun _ _ => Value.references_list_eq_nil_iff.mpr)
    (fun _ _ => Value.references_collection_eq_nil_iff.mpr) trivial h
  cases value with
  | reference | collection | list => exact hleaf.elim
  | _ => rfl

end CompiledType

namespace Schema

variable {schema other : Schema} {handle : Handle} {type : CompiledType} {decoder : Decoder}
  {source rest : Source} {value : Value}

/-- Reads an element as a value of a type, without checking that it conforms. -/
def readElement (type : CompiledType) (decoder : Decoder) : Read Value := do
  let header ← Header.read decoder.rules
  type.read decoder.rules ⟨header, none, decoder.maxDepth⟩

theorem isLocal_readElement (type : CompiledType) (decoder : Decoder) :
    (readElement type decoder).IsLocal := by
  apply (Header.isLocal_read _).bind
  intro _
  exact CompiledType.isLocal_read type _ _

theorem agrees_readElement (type : CompiledType) (decoder : Decoder) (c : Correspondence) :
    c.Agrees (readElement type decoder) (readElement type decoder) := by
  apply (Header.carries_read decoder.rules).bind
  intro header
  exact type.isUniform_read decoder.rules c header none decoder.maxDepth

theorem references_of_readElement (hbounded : source.IsBounded)
    (h : (readElement type decoder).outcome source = (.ok value, rest)) :
    value.references = [] := by
  obtain ⟨octets, -, hreads⟩ := exists_reads_of_outcome (isLocal_readElement type decoder)
    (agrees_readElement type decoder) hbounded h
  obtain ⟨_, _, header, -, -, hvalue⟩ := (reads_bind_iff (Header.isLocal_read _) fun _ =>
    CompiledType.isLocal_read type _ _).mp hreads
  exact CompiledType.references_of_reads hvalue

theorem outcome_decodeOne (hcompiled : schema.compiled handle = .ok type) :
    (schema.decodeOne handle decoder).outcome source =
      (readElement type decoder >>= fun value => do
        checked ((schema.accept handle value).mapError .value) source.position
        return value).outcome source := by
  have hchecked : (checked ((schema.compiled handle).mapError .schema) source.position).outcome
      source = (.ok type, source) := by
    rw [hcompiled]
    rfl
  rw [decodeOne, outcome_bind_of_ok (outcome_position _), outcome_bind_of_ok hchecked, readElement,
    bind_assoc]

theorem outcome_decodeOne_eq (hcompiled : schema.compiled handle = .ok type)
    (hother : other.compiled handle = .ok type) (halike : type.ReadsAlike schema.view other.view)
    (hbounded : source.IsBounded) :
    (schema.decodeOne handle decoder).outcome source =
      (other.decodeOne handle decoder).outcome source := by
  rw [outcome_decodeOne hcompiled, outcome_decodeOne hother, outcome_bind, outcome_bind]
  rcases hread : (readElement type decoder).outcome source with ⟨error | value, rest⟩
  · rfl
  · have hreferences := references_of_readElement hbounded hread
    have haccept : schema.accept handle value = other.accept handle value := by
      rw [accept, accept, hcompiled, hother]
      exact CompiledType.accept_eq_of_references halike (Scope.mentionsNone_top .empty) hreferences
    simp only [haccept]

theorem decode_eq (hcompiled : schema.compiled handle = .ok type)
    (hother : other.compiled handle = .ok type) (halike : type.ReadsAlike schema.view other.view)
    (octets : Octets) :
    schema.decode handle decoder octets = other.decode handle decoder octets := by
  have hall : (decodeAll schema handle decoder).outcome (Source.ofOctets octets 0) =
      (decodeAll other handle decoder).outcome (Source.ofOctets octets 0) := by
    rw [decodeAll, decodeAll, outcome_bind, outcome_bind,
      outcome_decodeOne_eq hcompiled hother halike (Source.isBounded_ofOctets _ _)]
  exact congrArg Prod.fst hall

end Schema

end Asn1

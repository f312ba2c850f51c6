import Asn1.Proofs.CompilationSteps
import Asn1.Proofs.InternalErrors

/-!
Checking a value and finding its canonical form go through the same checks in the same order. They
succeed together, and where they fail they fail for the same reason, which is never an internal one
if the type is sound.
-/

namespace Asn1

open Results

section Agreement

variable {α β γ δ : Type}

/-- Whether two operations on values give results in a relation, or fail with the same error, which
is not an internal one. -/
def Agree (relation : α → β → Prop) : Except ValueError α → Except ValueError β → Prop
  | .ok a, .ok b => relation a b
  | .error error, .error other => error = other ∧ error.isInternal = false
  | _, _ => False

variable {relation : α → β → Prop} {other : γ → δ → Prop} {a : Except ValueError α}
  {b : Except ValueError β}

theorem agree_ok {x : α} {y : β} (h : relation x y) : Agree relation (.ok x) (.ok y) := h

theorem agree_error {error : ValueError} (h : error.isInternal = false) :
    Agree relation (.error error) (.error error) := ⟨rfl, h⟩

theorem Agree.imp {stronger : α → β → Prop} (h : Agree stronger a b)
    (himp : ∀ x y, stronger x y → relation x y) : Agree relation a b := by
  cases a <;> cases b
  · exact h
  · exact h
  · exact h
  · exact himp _ _ h

theorem Agree.bind {f : α → Except ValueError γ} {g : β → Except ValueError δ}
    (h : Agree relation a b) (hnext : ∀ x y, relation x y → Agree other (f x) (g y)) :
    Agree other (a >>= f) (b >>= g) := by
  cases a <;> cases b
  · exact h
  · exact h.elim
  · exact h.elim
  · exact hnext _ _ h

theorem Agree.bind_right {g : β → Except ValueError δ} {final : α → δ → Prop}
    (h : Agree relation a b) (hnext : ∀ x y, relation x y → Agree final (.ok x) (g y)) :
    Agree final a (b >>= g) := by
  cases a <;> cases b
  · exact h
  · exact h.elim
  · exact h.elim
  · exact hnext _ _ h

theorem agree_bind_same {f : α → Except ValueError γ} {g : α → Except ValueError δ}
    (hfails : FailsWith (·.isInternal = false) a)
    (hnext : ∀ x, a = .ok x → Agree other (f x) (g x)) : Agree other (a >>= f) (a >>= g) := by
  cases a with
  | error error => exact agree_error (hfails error rfl)
  | ok x => exact hnext x rfl

theorem agree_discard {relation : Unit → β → Prop} (h : Agree (fun _ => relation ()) a b) :
    Agree relation (discard a) b := by
  cases a <;> cases b <;> exact h

theorem agree_ite {condition : Prop} [Decidable condition] {a' : Except ValueError α}
    {b' : Except ValueError β} (hpos : condition → Agree relation a b)
    (hneg : ¬condition → Agree relation a' b') :
    Agree relation (if condition then a else a') (if condition then b else b') := by
  split
  · next h => exact hpos h
  · next h => exact hneg h

theorem Agree.ok_iff (h : Agree relation a b) : (∃ x, a = .ok x) ↔ ∃ y, b = .ok y := by
  cases a <;> cases b
  · simp
  · exact h.elim
  · exact h.elim
  · simp

theorem Agree.error_iff (h : Agree relation a b) (error : ValueError) :
    a = .error error ↔ b = .error error := by
  cases a <;> cases b
  · obtain ⟨rfl, -⟩ := h
    simp
  · exact h.elim
  · exact h.elim
  · simp

theorem Agree.failsWith (h : Agree relation a b) : FailsWith (·.isInternal = false) a := by
  rintro error rfl
  cases b
  · exact h.2
  · exact h.elim

theorem agree_forM_mapM {f : α → Except ValueError Unit} {g : α → Except ValueError β}
    {as : List α} (h : ∀ a ∈ as, Agree (fun _ _ => True) (f a) (g a)) :
    Agree (fun _ bs => bs.length = as.length) (as.forM f) (as.mapM g) := by
  induction as with
  | nil => exact agree_ok rfl
  | cons a rest ih =>
      rw [List.mapM_cons]
      refine (h a List.mem_cons_self).bind fun _ b _ => ?_
      have hrest := ih fun a ha => h a (List.mem_cons_of_mem _ ha)
      exact hrest.bind_right fun _ bs hlength => agree_ok (congrArg (· + 1) hlength)

end Agreement

namespace Layout

variable {τ α β : Type} {layout : Layout τ} {visit : Visit τ α} {visit' : Visit τ β}

/-- Whether two visits agree on the entries, given the components that these name. -/
def VisitsAgree (layout : Layout τ) (visit : Visit τ α) (visit' : Visit τ β)
    (entries : Entries) : Prop :=
  ∀ entry ∈ entries, Agree (fun _ _ => True) (visit (layout.component? entry.1) entry)
    (visit' (layout.component? entry.1) entry)

theorem VisitsAgree.tail {entry : String × Value} {rest : Entries}
    (h : layout.VisitsAgree visit visit' (entry :: rest)) :
    layout.VisitsAgree visit visit' rest := by
  intro entry hentry
  exact h entry (List.mem_cons_of_mem _ hentry)

theorem agree_cons {a : Except ValueError α} {b : Except ValueError β}
    {as : Except ValueError (List α)} {bs : Except ValueError (List β)}
    (h : Agree (fun _ _ => True) a b) (hrest : Agree (fun _ _ => True) as bs) :
    Agree (fun _ _ => True) (do return (← a) :: (← as)) (do return (← b) :: (← bs)) := by
  apply h.bind
  intro _ _ _
  apply hrest.bind
  intro _ _ _
  exact agree_ok trivial

theorem agree_walkSequence {previous? : Option Nat} {version : Nat} {entries : Entries}
    (h : layout.VisitsAgree visit visit' entries) :
    Agree (fun _ _ => True) (layout.walkSequence visit previous? version entries)
      (layout.walkSequence visit' previous? version entries) := by
  induction entries generalizing previous? version with
  | nil =>
      rw [walkSequence, walkSequence]
      cases layout.missingRequired? previous? none version with
      | none => exact agree_ok trivial
      | some component => exact agree_error rfl
  | cons entry rest ih =>
      have hentry := h entry List.mem_cons_self
      rw [walkSequence, walkSequence]
      cases hfind : layout.component? entry.1 with
      | none =>
          rw [hfind] at hentry
          exact agree_ite (fun _ => agree_cons hentry (ih h.tail)) fun _ => agree_error rfl
      | some component =>
          rw [hfind] at hentry
          refine agree_ite (fun _ => agree_error rfl) fun _ => ?_
          dsimp only
          cases layout.missingRequired? previous? (some component.index)
            (max version component.version) with
          | none => exact agree_cons hentry (ih h.tail)
          | some missing => exact agree_error rfl

theorem agree_walkSet {seen : List Nat} {version : Nat} {entries : Entries}
    (h : layout.VisitsAgree visit visit' entries) :
    Agree (fun _ _ => True) (layout.walkSet visit seen version entries)
      (layout.walkSet visit' seen version entries) := by
  induction entries generalizing seen version with
  | nil =>
      rw [walkSet, walkSet]
      cases layout.components.find? _ with
      | none => exact agree_ok trivial
      | some component => exact agree_error rfl
  | cons entry rest ih =>
      have hentry := h entry List.mem_cons_self
      rw [walkSet, walkSet]
      cases hfind : layout.component? entry.1 with
      | none =>
          rw [hfind] at hentry
          exact agree_ite (fun _ => agree_cons hentry (ih h.tail)) fun _ => agree_error rfl
      | some component =>
          rw [hfind] at hentry
          exact agree_ite (fun _ => agree_error rfl) fun _ => agree_cons hentry (ih h.tail)

theorem agree_walkChoice {entries : Entries} (h : layout.VisitsAgree visit visit' entries) :
    Agree (fun _ _ => True) (layout.walkChoice visit entries)
      (layout.walkChoice visit' entries) := by
  rcases entries with _ | ⟨entry, _ | ⟨second, rest⟩⟩
  · exact agree_error rfl
  · have hentry := h entry List.mem_cons_self
    rw [walkChoice, walkChoice]
    cases hfind : layout.component? entry.1 with
    | none =>
        rw [hfind] at hentry
        exact agree_ite (fun _ => hentry.bind fun _ _ _ => agree_ok trivial) fun _ =>
          agree_error rfl
    | some component =>
        rw [hfind] at hentry
        exact hentry.bind fun _ _ _ => agree_ok trivial
  · exact agree_error rfl

/-- What a walk asks of the entries has nothing to do with what is done with them. -/
theorem agree_walk (hlist : layout.kind.isList = false) {entries : Entries}
    (h : layout.VisitsAgree visit visit' entries) :
    Agree (fun _ _ => True) (layout.walk visit entries) (layout.walk visit' entries) := by
  rw [walk, walk]
  split
  · split
    · exact agree_ok trivial
    · exact agree_error rfl
  · cases hkind : layout.kind with
    | sequence => exact agree_walkSequence h
    | set => exact agree_walkSet h
    | choice => exact agree_walkChoice h
    | sequenceOf => simp [hkind, CollectionKind.isList] at hlist
    | setOf => simp [hkind, CollectionKind.isList] at hlist

end Layout

/-- Whether two values are of the same kind and constraints on sizes and integers cannot tell them
apart. -/
def Value.IsSimilar (a b : Value) : Prop :=
  a.kind = b.kind ∧ a.IsAlike b

theorem Value.IsSimilar.refl (value : Value) : value.IsSimilar value :=
  ⟨rfl, .refl value⟩

theorem CanonicalForm.isSimilar_ofItems {items : List Value} {forms : List CanonicalForm}
    (h : forms.length = items.length) : (Value.list items).IsSimilar (ofItems forms).value := by
  refine ⟨rfl, ?_, ?_⟩
  · simp [ofItems, Value.size?, h]
  · simp [ofItems]

theorem CanonicalForm.isSimilar_ofEntries {entries : Entries} {kind : CollectionKind}
    {results : List (Option CanonicalEntry)} :
    (Value.collection entries).IsSimilar (ofEntries kind results).value := by
  refine ⟨rfl, rfl, ?_⟩
  simp [ofEntries]

theorem SizeRange.check_eq_of_isSimilar {range : SizeRange} {a b : Value} (h : a.IsSimilar b) :
    range.check a = range.check b := by
  rw [check, check, h.1, h.2.1]

theorem ValueRange.check_eq_of_isSimilar {range : ValueRange} {a b : Value} (h : a.IsSimilar b) :
    range.check a = range.check b := by
  obtain ⟨hkind, -, hinteger⟩ := h
  cases a with
  | integer i => rw [(hinteger i).mp rfl]
  | _ => cases b <;> first | rfl | cases hkind

theorem Constraint.check_eq_of_isSimilar {constraint : Constraint}
    (hrange : constraint.isRange = true) {a b : Value} (h : a.IsSimilar b) (scope : Scope) :
    constraint.check scope a = constraint.check scope b := by
  cases constraint with
  | size range => exact range.check_eq_of_isSimilar h
  | value range => exact range.check_eq_of_isSimilar h
  | custom check => simp [isRange] at hrange

namespace CompiledType

variable {values : NamedValues}

/-- The property that is carried through a type: the two operations agree, and a canonical form is
similar to what the value stands for. -/
def Agrees (values : NamedValues) (type : CompiledType) : Prop :=
  ∀ scope value, Agree (fun _ form => ∃ resolved, values.resolve value = .ok resolved ∧
      resolved.IsSimilar form.value)
    (type.accept values scope value) (type.canonicalize values scope value)

theorem Agrees.of_not_isReference {type : CompiledType} (h : type.Agrees values) (scope : Scope)
    {value : Value} (hreference : value.isReference = false) :
    Agree (fun _ form => value.IsSimilar form.value)
      (type.accept values scope value) (type.canonicalize values scope value) := by
  refine (h scope value).imp fun _ form hform => ?_
  obtain ⟨resolved, hresolve, hsimilar⟩ := hform
  obtain rfl := NamedValues.eq_of_resolve hreference hresolve
  exact hsimilar

end CompiledType

namespace Layout

variable {values : NamedValues} {scope : Scope} {layout : Layout CompiledType}

theorem agree_visitEntries (scope : Scope) (htypes : ∀ component ∈ layout.components,
    component.type.Agrees values) (entries : Entries) :
    layout.VisitsAgree
      (fun component? entry =>
        match component?.map (Component.map fun type => type.interpret (acceptStep values)) with
        | some component => component.type (scope, entry.2)
        | none => return ())
      (fun component? => canonicalizeEntry scope
        (component?.map (Component.map fun type => type.interpret (canonicalizeStep values))))
      entries := by
  intro entry _
  cases hfind : layout.component? entry.1 with
  | none => exact agree_ok trivial
  | some component =>
      have htype := htypes component (mem_components_of_component? hfind) scope entry.2
      refine htype.bind_right fun _ form _ => ?_
      split
      · exact agree_ok trivial
      · exact agree_ok trivial

theorem agree_accept_canonicalize (hsound : (TypeForm.collection layout).IsSound)
    (htypes : ∀ component ∈ layout.components, component.type.Agrees values) (value : Value) :
    Agree (fun _ form => value.IsSimilar form.value)
      ((layout.map fun type => type.interpret (acceptStep values)).accept scope value)
      ((layout.map fun type => type.interpret (canonicalizeStep values)).canonicalize scope
        value) := by
  rw [accept, canonicalize]
  refine agree_ite (fun hlist => ?_) fun hlist => ?_
  · rw [element?_map, element?_map]
    cases helement : layout.element? with
    | none => exact absurd helement (hsound hlist)
    | some element =>
        cases value with
        | list items =>
            have hitems := agree_forM_mapM fun item (_ : item ∈ items) =>
              (htypes element (List.mem_of_mem_head? helement) scope item).imp
                fun _ _ _ => trivial
            exact hitems.bind_right fun _ forms hforms =>
              agree_ok (CanonicalForm.isSimilar_ofItems hforms)
        | _ => exact agree_error rfl
  · cases value with
    | collection entries =>
        have hkind : layout.kind.isList = false := Bool.eq_false_iff.mpr hlist
        have hwalk := agree_walk hkind (agree_visitEntries (scope.walking entries) htypes entries)
        change Agree _ (discard (Layout.walk _ _ entries)) (Layout.walk _ _ entries >>= _)
        rw [walk_map, walk_map]
        refine agree_discard ?_
        exact hwalk.bind_right fun _ _ _ => agree_ok CanonicalForm.isSimilar_ofEntries
    | _ => exact agree_error rfl

end Layout

theorem agree_constraints {constraints : List Constraint}
    (hranges : ∀ constraint ∈ constraints, constraint.isRange = true) {resolved : Value}
    {form : CanonicalForm} (hsimilar : resolved.IsSimilar form.value) {scope : Scope}
    {changed : Bool} :
    Agree (fun _ result => resolved.IsSimilar result.value)
      (constraints.forM (·.check scope resolved))
      (do
        constraints.forM (·.check scope form.value)
        return (⟨form.value, changed⟩ : CanonicalForm)) := by
  induction constraints with
  | nil => exact agree_ok hsimilar
  | cons constraint rest ih =>
      obtain ⟨hrange, hrest⟩ := List.forall_mem_cons.mp hranges
      simp only [List.forM_eq_forM, List.forM_cons, bind_assoc,
        Constraint.check_eq_of_isSimilar hrange hsimilar] at ih ⊢
      exact agree_bind_same (Constraint.check_failsWith hrange _ _) fun _ _ => ih hrest

/-- The canonical form has the shape of the value, so that the constraints of each type see what is
the same to them. -/
theorem CompiledType.agrees {type : CompiledType} {values : NamedValues} (hsound : type.IsSound)
    (hranges : type.HasRangesOnly) : type.Agrees values := by
  induction type using CompiledType.induct with
  | mk info form ih =>
      obtain ⟨hconstraints, hranges⟩ := hranges.of_mk
      obtain ⟨hform, hsound⟩ := hsound.of_mk
      have hagrees (inner : CompiledType) (hmem : inner ∈ form.types) : inner.Agrees values :=
        ih inner hmem (hsound inner hmem) (hranges inner hmem)
      intro scope value
      rw [accept, canonicalize, interpret_mk, interpret_mk, acceptStep, canonicalizeStep]
      refine agree_bind_same (values.resolve_failsWith value) fun resolved hresolve => ?_
      have hreference := NamedValues.isReference_of_resolve hresolve
      suffices hagree : Agree (fun _ (form : CanonicalForm) => resolved.IsSimilar form.value)
          _ _ from hagree.imp fun _ _ hsimilar => ⟨resolved, hresolve, hsimilar⟩
      cases form with
      | builtin builtin =>
          exact agree_bind_same (builtin.accept_failsWith resolved) fun _ _ =>
            agree_constraints hconstraints (.refl resolved)
      | «alias» target =>
          have htarget := hagrees target TypeForm.target_mem_types
          exact (htarget.of_not_isReference _ hreference).bind fun _ _ hsimilar =>
            agree_constraints hconstraints hsimilar
      | tagged tag method inner =>
          have hinner := hagrees inner TypeForm.inner_mem_types
          exact (hinner.of_not_isReference _ hreference).bind fun _ _ hsimilar =>
            agree_constraints hconstraints hsimilar
      | collection layout =>
          exact (Layout.agree_accept_canonicalize hform (fun _ hmem =>
            hagrees _ (TypeForm.type_mem_types hmem)) resolved).bind fun _ _ hsimilar =>
              agree_constraints hconstraints hsimilar

namespace Schema

variable {schema : Schema} {handle : Handle} {type : CompiledType}

/-- Following the references ahead of time reports nothing that the type would not. -/
theorem canonicalize_eq (hcompiled : schema.compiled handle = .ok type) (value : Value) :
    schema.canonicalize handle value =
      type.canonicalize schema.values (.top schema.view) value := by
  obtain ⟨info, form⟩ := type
  rw [canonicalize, hcompiled]
  change (discard (schema.values.resolve value) >>= fun _ =>
    CompiledType.canonicalize ⟨info, form⟩ schema.values (.top schema.view) value) = _
  rw [CompiledType.canonicalize, CompiledType.interpret_mk, canonicalizeStep]
  cases schema.values.resolve value <;> rfl

theorem accept_eq (hcompiled : schema.compiled handle = .ok type) (value : Value) :
    schema.accept handle value = type.accept schema.values (.top schema.view) value := by
  rw [accept, hcompiled]
  rfl

theorem Reachable.agree_accept_canonicalize (hschema : schema.Reachable)
    (hcompiled : schema.compiled handle = .ok type) (hranges : type.HasRangesOnly)
    (value : Value) :
    Agree (fun _ _ => True) (schema.accept handle value) (schema.canonicalize handle value) := by
  have htype : type.Agrees schema.values :=
    CompiledType.agrees (hschema.consistent.isSound hcompiled) hranges
  rw [accept_eq hcompiled, canonicalize_eq hcompiled]
  exact (htype (.top schema.view) value).imp fun _ _ _ => trivial

/-- A value is accepted exactly if it has a canonical form, and if not, both operations give the
same reason. -/
theorem Reachable.accept_iff_canonicalize (hschema : schema.Reachable)
    (hcompiled : schema.compiled handle = .ok type) (hranges : type.HasRangesOnly)
    (value : Value) :
    (schema.accept handle value = .ok () ↔
        ∃ form, schema.canonicalize handle value = .ok form) ∧
      ∀ error, schema.accept handle value = .error error ↔
        schema.canonicalize handle value = .error error := by
  have hagree := hschema.agree_accept_canonicalize hcompiled hranges value
  rw [← hagree.ok_iff]
  exact ⟨⟨fun h => ⟨(), h⟩, fun ⟨(), h⟩ => h⟩, hagree.error_iff⟩

/-- A value reference that leads nowhere, behind the addition of a sequence. -/
theorem accept_iff_canonicalize_defaultedSequence :
    let value : Value := .collection [("b", .boolean true), ("x", .reference "nowhere")]
    let error : ValueError := .unresolvedValue "nowhere"
    defaultedSequence.accept ⟨2⟩ value = .error error ∧
      defaultedSequence.canonicalize ⟨2⟩ value = .error error := by
  refine ⟨rfl, ?_⟩
  exact ((Reachable.accept_iff_canonicalize (reachable_extendedSequence _ _ _)
    compiled_defaultedSequence hasRangesOnly_defaultedLayout _).2 _).mp rfl

end Schema

end Asn1

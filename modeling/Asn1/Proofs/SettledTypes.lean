import Asn1.Encoding
import Asn1.Proofs.SchemaCalls
import Asn1.Proofs.ValueReferences

namespace Asn1

open Results

namespace Schema

/-- Whether the declaration or the layout of a type mentions another one. -/
def Uses (schema : Schema) (outer inner : Handle) : Prop :=
  schema.Refers outer inner ∨ schema.DependsOn outer inner

variable {schema before after : Schema} {handle : Handle} {type : CompiledType}

section Lookups

theorem Extends.node?_eq (h : before.Extends after)
    (hcompiled : before.compiled handle = .ok type) :
    after.node? handle = before.node? handle := by
  obtain ⟨node, hnode, hstatus⟩ := compiled_eq_ok_iff.mp hcompiled
  rw [hnode]
  exact h.settled hnode (by simp [hstatus, TypeStatus.IsSettled])

theorem Extends.definition?_eq (h : before.Extends after)
    (hcompiled : before.compiled handle = .ok type) :
    after.definition? handle = before.definition? handle := by
  rw [definition?, definition?, h.node?_eq hcompiled]

theorem Extends.describe_eq (h : before.Extends after)
    (hcompiled : before.compiled handle = .ok type) :
    after.describe handle = before.describe handle := by
  rw [describe, describe, h.node?_eq hcompiled]

theorem Extends.follow_eq (h : before.Extends after) {origin : Handle} {target : CompiledType}
    (horigin : before.compiled origin = .ok target) (hgrounded : before.Grounded handle)
    (count : Nat) :
    after.follow aliasTarget? origin count handle =
      before.follow aliasTarget? origin count handle := by
  induction count generalizing handle with
  | zero => rw [follow, follow, h.describe_eq horigin]
  | succ count ih =>
      cases hgrounded with
      | @intro _ type definition hcompiled hdefinition hresolves hinner =>
          rw [follow, follow, h.definition?_eq hcompiled, hdefinition]
          cases definition with
          | «alias» reference =>
              have hmem : reference ∈ (Definition.alias reference).references :=
                List.mem_singleton_self reference
              obtain ⟨next, hnext⟩ := hresolves reference hmem
              have hrefers : before.Refers handle next := ⟨_, hdefinition, reference, hmem, hnext⟩
              simp only [Option.bind_some, aliasTarget?, hnext, h.resolve hnext]
              exact ih (hinner next hrefers)
          | _ => rfl

theorem Extends.skipAliases_eq (h : before.Extends after) (hconsistent : before.Consistent)
    (hcompiled : before.compiled handle = .ok type) :
    after.skipAliases handle = before.skipAliases handle := by
  have hgrounded := (hconsistent _ _ hcompiled).grounded
  have hresolve := resolve_handle_of_has (hconsistent.compiled_handle hcompiled)
  rw [(hconsistent _ _ hcompiled).handle_eq] at hresolve
  rw [skipAliases_eq_bind, skipAliases_eq_bind, hresolve, h.resolve hresolve]
  exact h.follow_eq hcompiled hgrounded _

theorem Extends.layout?_eq (h : before.Extends after) (hconsistent : before.Consistent)
    (hcompiled : before.compiled handle = .ok type) :
    after.layout? handle = before.layout? handle := by
  rw [layout?, layout?, h.skipAliases_eq hconsistent hcompiled]
  cases hbase : before.skipAliases handle with
  | error error => rfl
  | ok base =>
      obtain ⟨-, hfollow⟩ := skipAliases_eq_ok_iff.mp hbase
      obtain ⟨found, hfound, -⟩ := hconsistent.follow_aliases hcompiled hfollow
      simp only [Except.toOption, Option.bind_some, hfound, h.compiled hfound]

end Lookups

theorem Consistent.isDone_of_uses (h : schema.Consistent) {outer inner : Handle}
    (houter : schema.IsDone outer) (huses : Relation.ReflTransGen schema.Uses outer inner) :
    schema.IsDone inner := by
  induction huses with
  | refl => exact houter
  | tail _ hnext ih =>
      obtain ⟨type, hcompiled⟩ := ih
      rcases hnext with hrefers | hdepends
      · exact ((h _ _ hcompiled).grounded.of_refers (.single hrefers)).compiled
      · obtain ⟨found, -, hfound⟩ := h.exists_of_dependsOn hcompiled hdepends
        exact ⟨found, hfound⟩

theorem accept_of_isWithin (hregular : type.IsRegular)
    (hcompiled : before.compiled handle = .ok type) (hafter : after.compiled handle = .ok type)
    (hvalues : before.values.IsWithin after.values)
    (hpasses : type.StillPasses before.view after.view) {value : Value}
    (h : before.accept handle value = .ok ()) : after.accept handle value = .ok () := by
  apply (accept_eq_ok_iff hafter).mpr
  exact type.accept_of_isWithin hregular hvalues hpasses (.top .empty)
    ((accept_eq_ok_iff hcompiled).mp h)

theorem canonicalize_of_isWithin (hregular : type.IsRegular)
    (hcompiled : before.compiled handle = .ok type) (hafter : after.compiled handle = .ok type)
    (hvalues : before.values.IsWithin after.values)
    (hpasses : type.StillPasses before.view after.view) {value : Value} {form : CanonicalForm}
    (h : before.canonicalize handle value = .ok form) :
    after.canonicalize handle value = .ok form := by
  obtain ⟨⟨resolved, hresolve⟩, hform⟩ := (canonicalize_eq_ok_iff hcompiled).mp h
  exact (canonicalize_eq_ok_iff hafter).mpr ⟨⟨resolved, hvalues.resolve hresolve⟩,
    type.canonicalize_of_isWithin hregular hvalues hpasses (.top .empty) hform⟩

/-- Whatever calls follow, a compiled type stays as it is, with all types that it leads to. If its
constraints still pass what they passed, what was accepted is accepted, and what had a canonical
form has the same one and is encoded alike. If they give the same results where no named values are
mentioned, everything is decoded alike. -/
theorem Reachable.stable_run (hschema : schema.Reachable)
    (hcompiled : schema.compiled handle = .ok type) (calls : List Call) :
    (∀ inner, Relation.ReflTransGen schema.Uses handle inner → schema.IsDone inner ∧
      (schema.run calls).node? inner = schema.node? inner ∧
        (schema.run calls).layout? inner = schema.layout? inner) ∧
    (type.StillPasses schema.view (schema.run calls).view →
      (∀ value, schema.accept handle value = .ok () →
        (schema.run calls).accept handle value = .ok ()) ∧
      (∀ value form, schema.canonicalize handle value = .ok form →
        (schema.run calls).canonicalize handle value = .ok form ∧
          ∀ encoder, (schema.run calls).encode handle encoder value =
            schema.encode handle encoder value) ∧
      ∀ encoder value octets, (schema.encode handle encoder value).toExcept = .ok octets →
        ((schema.run calls).encode handle encoder value).toExcept = .ok octets) ∧
    (type.ReadsAlike schema.view (schema.run calls).view →
      ∀ decoder, (∀ octets, (schema.run calls).decode handle decoder octets =
          schema.decode handle decoder octets) ∧
        ∀ source : Source, source.IsBounded →
          ((schema.run calls).decodeOne handle decoder).outcome source =
            (schema.decodeOne handle decoder).outcome source) := by
  have hconsistent := hschema.consistent
  have hextends := (hschema.run calls).2.toExtends
  have hregular := hconsistent.isRegular hcompiled
  have hafter := hextends.compiled hcompiled
  refine ⟨?_, fun hpasses => ?_, fun halike decoder =>
    ⟨fun octets => ?_, fun source hbounded => ?_⟩⟩
  · intro inner huses
    obtain ⟨found, hfound⟩ := hconsistent.isDone_of_uses ⟨type, hcompiled⟩ huses
    exact ⟨⟨found, hfound⟩, hextends.node?_eq hfound, hextends.layout?_eq hconsistent hfound⟩
  · have hcanonicalize {value : Value} {form : CanonicalForm}
        (hform : schema.canonicalize handle value = .ok form) :=
      canonicalize_of_isWithin hregular hcompiled hafter hextends.values hpasses hform
    have hencode {value : Value} {form : CanonicalForm}
        (hform : schema.canonicalize handle value = .ok form) (encoder : Encoder) :
        (schema.run calls).encode handle encoder value = schema.encode handle encoder value := by
      rw [encode, encode, hform, hcanonicalize hform, hcompiled, hafter]
    refine ⟨?_, fun value form hform => ⟨hcanonicalize hform, hencode hform⟩, ?_⟩
    · exact fun value => accept_of_isWithin hregular hcompiled hafter hextends.values hpasses
    · intro encoder value octets hoctets
      cases hform : schema.canonicalize handle value with
      | error error =>
          rw [encode, hform] at hoctets
          contradiction
      | ok form => rwa [hencode hform]
  · exact (decode_eq hcompiled hafter halike octets).symm
  · exact (outcome_decodeOne_eq hcompiled hafter halike hbounded).symm

/-- With later calls of which the last one fails. The default of `b` is left out. -/
theorem stable_run_defaultedSequence :
    let calls : List Call := [.defineValue "six" (.reference "five"),
      .define "Sequence" ⟨.alias (.handle ⟨2⟩), []⟩, .copy ⟨2⟩, .compileAll, .compile ⟨9⟩]
    let x : String × Value := ("x", .integer ⟨5, by decide, by decide⟩)
    let value : Value := .collection [("b", .boolean false), x]
    let later := defaultedSequence.run calls
    later.accept ⟨2⟩ value = .ok () ∧
      later.canonicalize ⟨2⟩ value = .ok ⟨.collection [x], true⟩ ∧
        ∀ octets, later.decode ⟨2⟩ ⟨.der, 64⟩ octets =
          defaultedSequence.decode ⟨2⟩ ⟨.der, 64⟩ octets := by
  intro calls x value later
  have haccept : defaultedSequence.accept ⟨2⟩ value = .ok () := rfl
  have hform : defaultedSequence.canonicalize ⟨2⟩ value = .ok ⟨.collection [x], true⟩ := rfl
  have halike := hasRangesOnly_defaultedLayout.overlooksSchema defaultedSequence.view later.view
  obtain ⟨-, hvalues, hdecodes⟩ :=
    Reachable.stable_run (reachable_extendedSequence _ _ _) compiled_defaultedSequence calls
  obtain ⟨haccepts, hforms, -⟩ := hvalues halike.stillPasses
  exact ⟨haccepts value haccept, (hforms value _ hform).1,
    (hdecodes halike.readsAlike ⟨.der, 64⟩).1⟩

/-- A constraint to integers up to a named value, once that is defined. -/
def upTo (name : String) : Constraint :=
  .custom fun scope value =>
    match scope.resolveValue (.reference name) with
    | .ok (.integer bound) => ValueRange.check ⟨none, some bound⟩ value
    | _ => .ok ()

/-- A compiled INTEGER that is constrained in this way. -/
def boundedInteger : Schema :=
  ((Schema.compile ⟨0⟩).outcome (empty.add ⟨.builtin .integer, [upTo "max"]⟩).2).2

/-- Five is accepted, written and read as long as `max` is not defined, and not when it is 3. -/
theorem unstable_defineValue :
    let five : Value := .integer ⟨5, by decide, by decide⟩
    let three : Integer := ⟨3, by decide, by decide⟩
    let later := boundedInteger.run [.defineValue "max" (.integer three)]
    let refusal : ValueError :=
      .illegal (.integerOutside ⟨5, by decide, by decide⟩ ⟨none, some three⟩)
    boundedInteger.Reachable ∧ boundedInteger.IsDone ⟨0⟩ ∧
      boundedInteger.accept ⟨0⟩ five = .ok () ∧ later.accept ⟨0⟩ five = .error refusal ∧
      boundedInteger.canonicalize ⟨0⟩ five = .ok ⟨five, false⟩ ∧
      later.canonicalize ⟨0⟩ five = .error refusal ∧
      (boundedInteger.encode ⟨0⟩ ⟨.der, true⟩ five).toExcept = .ok [2, 1, 5] ∧
      (later.encode ⟨0⟩ ⟨.der, true⟩ five).toExcept = .error (.value refusal) ∧
      boundedInteger.decode ⟨0⟩ ⟨.der, 64⟩ [2, 1, 5] = .ok five ∧
      later.decode ⟨0⟩ ⟨.der, 64⟩ [2, 1, 5] = .error (.format (.value refusal) 0) := by
  intro five three later refusal
  have hreachable : boundedInteger.Reachable := .compile (.add .empty _) _
  refine ⟨hreachable, ⟨_, rfl⟩, rfl, rfl, rfl, rfl, ?_, ?_, ?_, ?_⟩ <;> with_unfolding_all rfl

end Schema

end Asn1

import Asn1.Proofs.SchemaCalls

/-!
Chains of references that a schema follows. It gives up on a chain that is too long, whether or not
it is a cycle. From a compiled type it follows any other chain to its end, so that the operations
that look through aliases, or through aliases and tags, succeed.
-/

namespace Asn1

open Results

namespace Schema

/-- What a chain of aliases and tags goes on with. -/
def innerTarget? : Definition → Option TypeRef
  | .alias target => some target
  | .tagged _ _ inner => some inner
  | _ => none

theorem skipAliasesAndTags_eq_bind (schema : Schema) (handle : Handle) :
    schema.skipAliasesAndTags handle =
      schema.resolve (.handle handle) >>= schema.follow innerTarget? handle maxChain := by
  rw [skipAliasesAndTags]
  rfl

/-- Whether at least `count` types in a row, of which this is the first, go on with another one.
Only the last of them may refer to something that is not there. -/
def StartsChain (schema : Schema) (next? : Definition → Option TypeRef) : Nat → Handle → Prop
  | 0, _ => True
  | count + 1, handle => ∃ reference,
    (schema.definition? handle).bind next? = some reference ∧
      (count = 0 ∨ ∃ target, schema.resolve reference = .ok target ∧
        StartsChain schema next? count target)

variable {schema : Schema} {handle : Handle} {type : CompiledType}

section Chains

variable {next? : Definition → Option TypeRef}

theorem references_of_aliasTarget? {definition : Definition} {reference : TypeRef}
    (h : aliasTarget? definition = some reference) : reference ∈ definition.references := by
  cases definition with
  | «alias» target => simpa [aliasTarget?, Definition.references, eq_comm] using h
  | _ => cases h

theorem references_of_innerTarget? {definition : Definition} {reference : TypeRef}
    (h : innerTarget? definition = some reference) : reference ∈ definition.references := by
  cases definition with
  | «alias» target => simpa [innerTarget?, Definition.references, eq_comm] using h
  | tagged _ _ inner => simpa [innerTarget?, Definition.references, eq_comm] using h
  | _ => cases h

theorem startsChain_succ_iff {count : Nat} {reference : TypeRef} {target : Handle}
    (hreference : (schema.definition? handle).bind next? = some reference)
    (hresolve : schema.resolve reference = .ok target) :
    schema.StartsChain next? (count + 1) handle ↔ schema.StartsChain next? count target := by
  rw [StartsChain]
  constructor
  · rintro ⟨other, hother, rfl | ⟨found, hfound, hstarts⟩⟩
    · trivial
    · obtain rfl := Option.some.inj (hreference.symm.trans hother)
      obtain rfl := Except.ok.inj (hresolve.symm.trans hfound)
      exact hstarts
  · exact fun hstarts => ⟨reference, hreference, .inr ⟨target, hresolve, hstarts⟩⟩

/-- From a grounded type a chain is followed to its end, unless there are too many types in it. -/
theorem Grounded.follow_eq (h : schema.Grounded handle)
    (hnext : ∀ {definition reference}, next? definition = some reference →
      reference ∈ definition.references) (origin : Handle) (count : Nat) :
    (schema.StartsChain next? count handle ∧ schema.follow next? origin count handle =
      .error (.cyclicDefinition (schema.describe origin))) ∨
    (¬schema.StartsChain next? count handle ∧ ∃ base, schema.Grounded base ∧
      (schema.definition? base).bind next? = none ∧
        schema.follow next? origin count handle = .ok base) := by
  induction count generalizing handle with
  | zero => exact .inl ⟨trivial, rfl⟩
  | succ count ih =>
      rw [follow]
      cases htarget : (schema.definition? handle).bind next? with
      | none =>
          refine .inr ⟨?_, handle, h, htarget, rfl⟩
          rintro ⟨reference, hreference, -⟩
          cases htarget.symm.trans hreference
      | some reference =>
          obtain ⟨definition, hdefinition, hreference⟩ := Option.bind_eq_some_iff.mp htarget
          obtain ⟨target, hresolve, hinner⟩ := h.exists_target hdefinition (hnext hreference)
          rw [startsChain_succ_iff htarget hresolve]
          simp only [hresolve]
          exact ih hinner

theorem Grounded.exists_follow_iff (h : schema.Grounded handle)
    (hnext : ∀ {definition reference}, next? definition = some reference →
      reference ∈ definition.references) (origin : Handle) (count : Nat) :
    (∃ base, schema.follow next? origin count handle = .ok base) ↔
      ¬schema.StartsChain next? count handle := by
  rcases h.follow_eq hnext origin count with ⟨hstarts, herror⟩ | ⟨hnot, base, -, -, hbase⟩
  · simp [hstarts, herror]
  · simp [hnot, hbase]

end Chains

theorem Consistent.hasBase_iff (h : schema.Consistent)
    (hcompiled : schema.compiled handle = .ok type) :
    type.HasBase ↔ ¬schema.StartsChain aliasTarget? maxChain handle := by
  have hgrounded := (h _ _ hcompiled).grounded
  rw [← hgrounded.exists_follow_iff references_of_aliasTarget? handle, h.follow_eq hcompiled,
    CompiledType.HasBase]
  cases type.aliasBase? maxChain <;> simp

theorem Consistent.exists_firstTags_iff (h : schema.Consistent) (hdone : schema.IsDone handle) :
    (∃ tags, schema.firstTags handle = .ok tags) ↔
      ¬schema.StartsChain aliasTarget? maxChain handle := by
  obtain ⟨type, hcompiled⟩ := hdone
  simp [h.firstTags_eq_ok_iff hcompiled, ← h.hasBase_iff hcompiled]

theorem Consistent.exists_isUntaggedChoice_iff (h : schema.Consistent)
    (hdone : schema.IsDone handle) :
    (∃ isChoice, schema.isUntaggedChoice handle = .ok isChoice) ↔
      ¬schema.StartsChain aliasTarget? maxChain handle := by
  obtain ⟨type, hcompiled⟩ := hdone
  simp [h.isUntaggedChoice_eq_ok_iff hcompiled, ← h.hasBase_iff hcompiled]

theorem Consistent.exists_family_iff (h : schema.Consistent) (hdone : schema.IsDone handle) :
    (∃ family, schema.family handle = .ok family) ↔
      ¬schema.StartsChain innerTarget? maxChain handle := by
  obtain ⟨type, hcompiled⟩ := hdone
  obtain ⟨node, hnode, -⟩ := compiled_eq_ok_iff.mp hcompiled
  have hgrounded := (h _ _ hcompiled).grounded
  have hresolve : schema.resolve (.handle handle) = .ok handle :=
    resolve_handle_eq_ok_iff.mpr ⟨rfl, Option.isSome_of_eq_some hnode⟩
  have hskip : schema.skipAliasesAndTags handle =
      schema.follow innerTarget? handle maxChain handle := by
    rw [skipAliasesAndTags_eq_bind, hresolve]
    rfl
  rw [family, hskip]
  rcases hgrounded.follow_eq references_of_innerTarget? handle maxChain with
    ⟨hstarts, herror⟩ | ⟨hnot, base, hbase, hlast, hfollow⟩
  · simp [hstarts, herror, bind, Except.bind]
  · obtain ⟨_, hfound⟩ := hbase.compiled
    obtain ⟨definition, hdefinition, -⟩ := definition?_of_holds (h _ _ hfound)
    rw [hdefinition, Option.bind_some] at hlast
    simp only [hnot, not_false_eq_true, iff_true, hfollow, bind, Except.bind, hdefinition]
    cases definition with
    | builtin builtin => exact ⟨_, rfl⟩
    | collection collection => exact ⟨_, rfl⟩
    | «alias» target => cases hlast
    | tagged _ _ inner => cases hlast

end Schema

end Asn1

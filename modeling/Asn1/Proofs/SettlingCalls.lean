import Asn1.Proofs.SchemaCalls

namespace Asn1

open Results Schema Compile

theorem outcome_compileOnce (compileType : TypeCompiler) (handle : Handle) (schema : Schema) :
    (compileOnce compileType handle).outcome schema =
      match schema.node? handle with
      | none => (.error (.unresolvedType handle.text), schema)
      | some node =>
        match node.status with
        | .compiled type => (.ok type, schema)
        | .failed => (.error (.failed (schema.describe handle)), schema)
        | .validating => (.error (.cyclicDefinition (schema.describe handle)), schema)
        | .declared => (compileNode compileType handle node).outcome schema := by
  have hget : (get : Compile Schema).outcome schema = (.ok schema, schema) := rfl
  rw [compileOnce, outcome_bind, hget]
  simp only
  cases schema.node? handle with
  | none => rfl
  | some node =>
      obtain ⟨name?, declaration, status⟩ := node
      cases status <;> rfl

theorem outcome_compileWithin_succ (steps : Nat) (handle : Handle) (schema : Schema) :
    (compileWithin (steps + 1) handle).outcome schema =
      match schema.node? handle with
      | none => (.error (.unresolvedType handle.text), schema)
      | some node =>
        match node.status with
        | .compiled type => (.ok type, schema)
        | .failed => (.error (.failed (schema.describe handle)), schema)
        | .validating => (.error (.cyclicDefinition (schema.describe handle)), schema)
        | .declared => (compileNode (compileWithin steps) handle node).outcome schema := by
  rw [compileWithin, outcome_compileOnce]

namespace Schema

def HasFailed (schema : Schema) (handle : Handle) : Prop :=
  ∃ node, schema.node? handle = some node ∧ node.status = .failed

/-- Whether a type has been compiled or has failed to compile. -/
def IsSettled (schema : Schema) (handle : Handle) : Prop :=
  ∃ node, schema.node? handle = some node ∧ node.status.IsSettled

/-- Whether a type is there and is not being compiled. -/
def IsAtRest (schema : Schema) (handle : Handle) : Prop :=
  ∃ node, schema.node? handle = some node ∧ node.status ≠ .validating

variable {schema : Schema} {handle : Handle} {node : SchemaNode}

theorem IsSettled.mono {after : Schema} (h : schema.IsSettled handle)
    (hextends : schema.Extends after) : after.IsSettled handle := by
  obtain ⟨node, hnode, hsettled⟩ := h
  exact ⟨node, hextends.settled hnode hsettled, hsettled⟩

theorem outcome_compile (handle : Handle) (schema : Schema) :
    (Schema.compile handle).outcome schema =
      (((compileWithin (schema.nodes.size + 1) handle).outcome schema).1.map fun _ => (),
        ((compileWithin (schema.nodes.size + 1) handle).outcome schema).2) := by
  rw [Schema.compile, outcome_bind]
  change (discard (compileWithin (schema.nodes.size + 1) handle)).outcome schema = _
  rw [discard_eq_bind, outcome_bind]
  rcases (compileWithin _ handle).outcome schema with ⟨_ | _, after⟩ <;> rfl

/-- Compiles the types with the indexes one after the other, up to the first one that fails. -/
def compileEach (indexes : List Nat) : Compile Unit :=
  indexes.forM fun index => Schema.compile ⟨index⟩

theorem outcome_compileEach_cons (index : Nat) (rest : List Nat) (schema : Schema) :
    (compileEach (index :: rest)).outcome schema =
      match (Schema.compile ⟨index⟩).outcome schema with
      | (.ok _, after) => (compileEach rest).outcome after
      | (.error error, after) => (.error error, after) := by
  rw [compileEach, List.forM, outcome_bind]
  rcases (Schema.compile ⟨index⟩).outcome schema with ⟨_ | _, after⟩ <;> rfl

/-- Whether a call compiles types and does nothing else. -/
def Call.IsCompiling : Call → Prop
  | .compile _ | .compileAll => True
  | _ => False

theorem IsAtRest.mono {after : Schema} (h : schema.IsAtRest handle)
    (hleads : schema.LeadsTo after) : after.IsAtRest handle := by
  obtain ⟨node, hnode, hrest⟩ := h
  cases hafter : after.node? handle with
  | none => cases hnode.symm.trans (hleads.node?_eq_none hafter)
  | some found =>
      refine ⟨found, hafter, fun hstatus => ?_⟩
      have hbefore := (hleads.validating hstatus).mp hafter
      obtain rfl := Option.some.inj (hnode.symm.trans hbefore)
      exact hrest hstatus

end Schema

end Asn1

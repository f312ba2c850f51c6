import Asn1.Proofs.ElementaryChanges

/-!
The number of steps in which types are compiled. A type that is compiled has only been declared
until then, and compiling declares none. So there are always more steps left than such types, and
nothing depends on what happens once all steps are used up.
-/

namespace Asn1

open Results Schema Compile

/-- Compiles a type and those it depends on. Once the steps are used up, `last` takes over. -/
def compileFrom (last : TypeCompiler) : Nat → TypeCompiler
  | 0, handle => last handle
  | steps + 1, handle => compileOnce (compileFrom last steps) handle

namespace Schema

/-- Whether there are no more types than this that have only been declared. -/
def DeclaresAtMost (count : Nat) (schema : Schema) : Prop :=
  ∀ handles : List Handle, handles.Nodup → (∀ handle ∈ handles, ∃ node,
    schema.node? handle = some node ∧ node.status = .declared) → handles.length ≤ count

variable {schema before after : Schema} {handle : Handle} {node : SchemaNode} {count : Nat}

theorem declaresAtMost_size (schema : Schema) : schema.DeclaresAtMost schema.nodes.size := by
  intro handles hnodup hdeclared
  refine length_le_of_nodup hnodup fun handle hmem => ?_
  obtain ⟨node, hnode, -⟩ := hdeclared handle hmem
  exact ⟨node, hnode⟩

theorem Alters.node?_of_declared (h : before.Alters after) (hnode : after.node? handle = some node)
    (hdeclared : node.status = .declared) : before.node? handle = some node := by
  cases h with
  | mark hold _ | fail hold | complete hold _ =>
      rw [node?_withNode hold] at hnode
      split at hnode
      · obtain rfl := Option.some.inj hnode
        cases hdeclared
      · exact hnode
  | addTag number hhas hbase =>
      rw [node?_push] at hnode
      split at hnode
      · obtain rfl := Option.some.inj hnode
        cases hdeclared
      · exact hnode

theorem DeclaresAtMost.alters (h : before.DeclaresAtMost count)
    (halters : Relation.ReflTransGen Alters before after) : after.DeclaresAtMost count := by
  induction halters with
  | refl => exact h
  | tail _ hlast ih =>
      intro handles hnodup hdeclared
      refine ih handles hnodup fun handle hmem => ?_
      obtain ⟨node, hnode, hstatus⟩ := hdeclared handle hmem
      exact ⟨node, hlast.node?_of_declared hnode hstatus, hstatus⟩

theorem DeclaresAtMost.mark (h : schema.DeclaresAtMost (count + 1))
    (hnode : schema.node? handle = some node) (hdeclared : node.status = .declared) :
    (schema.withNode handle { node with status := .validating }).DeclaresAtMost count := by
  intro handles hnodup hall
  have hbefore : ∀ other ∈ handles, other ≠ handle ∧ ∃ found,
      schema.node? other = some found ∧ found.status = .declared := by
    intro other hmem
    obtain ⟨found, hfound, hstatus⟩ := hall other hmem
    rw [node?_withNode hnode] at hfound
    split at hfound
    · obtain rfl := Option.some.inj hfound
      cases hstatus
    · next hne => exact ⟨hne, found, hfound, hstatus⟩
  have hlength := h (handle :: handles)
    (List.nodup_cons.mpr ⟨fun hmem => (hbefore handle hmem).1 rfl, hnodup⟩)
    (List.forall_mem_cons.mpr ⟨⟨node, hnode, hdeclared⟩, fun other hmem => (hbefore other hmem).2⟩)
  exact Nat.le_of_succ_le_succ hlength

theorem DeclaresAtMost.pos (h : schema.DeclaresAtMost count)
    (hnode : schema.node? handle = some node) (hdeclared : node.status = .declared) :
    0 < count := by
  apply h [handle] (List.nodup_singleton handle)
  rw [List.forall_mem_singleton]
  exact ⟨node, hnode, hdeclared⟩

end Schema

/-- Whether two steps do the same in every consistent schema with a property in which no more types
than this have only been declared. -/
def Compile.Coincide {α : Type} (count : Nat) (pre : Schema → Prop) (step other : Compile α) :
    Prop :=
  ∀ before, before.Consistent → before.DeclaresAtMost count → pre before →
    step.outcome before = other.outcome before

namespace Compile.Coincide

variable {α β : Type} {count : Nat} {pre pre' : Schema → Prop} {step other : Compile α}
  {post : α → Schema → Prop} {next next' : α → Compile β}

theorem refl (step : Compile α) : Coincide count pre step step := by
  intro _ _ _ _
  rfl

theorem imp (h : Coincide count pre step other) (hpre : ∀ schema, pre' schema → pre schema) :
    Coincide count pre' step other := by
  intro before hconsistent hcount hbefore
  exact h before hconsistent hcount (hpre before hbefore)

theorem anywhere (h : Coincide count (fun _ => True) step other) :
    Coincide count pre step other := by
  apply h.imp
  intro _ _
  exact trivial

theorem bind (hkeeps : Keeps pre step post) (halters : AltersOnly pre step)
    (h : Coincide count pre step other)
    (hnext : ∀ a, Coincide count (post a) (next a) (next' a)) :
    Coincide count pre (step >>= next) (other >>= next') := by
  intro before hconsistent hcount hpre
  obtain ⟨-, hafter, hresult⟩ := hkeeps before hconsistent hpre
  have hlater := hcount.alters (halters before hconsistent hpre)
  rw [outcome_bind, outcome_bind, ← h before hconsistent hcount hpre]
  rcases hstep : step.outcome before with ⟨error | a, after⟩
  · rfl
  · rw [hstep] at hafter hresult hlater
    exact hnext a after hafter hlater (hresult a rfl)

theorem discard (h : Coincide count pre step other) :
    Coincide count pre (discard step) (discard other) := by
  intro before hconsistent hcount hpre
  rw [discard_eq_bind, discard_eq_bind, outcome_bind, outcome_bind,
    h before hconsistent hcount hpre]

end Compile.Coincide

section Compiling

variable {compileType other : TypeCompiler} {count : Nat} (h : compileType.Compiles)
  (hcall : ∀ target, AltersOnly (fun _ => True) (compileType target))
  (hsame : ∀ target, Coincide count (fun _ => True) (compileType target) (other target))

include h hcall hsame

theorem coincide_rootComponentsOf (kind : CollectionKind) (version : Nat) (reference : TypeRef) :
    Coincide count (fun _ => True) (rootComponentsOf compileType kind version reference)
      (rootComponentsOf other kind version reference) := by
  refine .bind (Keeps.ask _) (.ask _) (.refl _) fun included => ?_
  exact .bind (h included).discard.anywhere (hcall included).discard.anywhere
    (hsame included).discard.anywhere fun _ => .refl _

theorem coincide_flatten (kind : CollectionKind) (items : List (Nat × ComponentItem)) :
    Coincide count (fun _ => True) (flatten compileType kind items) (flatten other kind items) := by
  induction items with
  | nil => exact .refl _
  | cons item rest ih =>
      obtain ⟨version, written | reference⟩ := item
      · exact .bind (keeps_flatten h kind rest) (alters_flatten h hcall kind rest) ih
          fun _ => .refl _
      · refine .bind (keeps_rootComponentsOf h kind version reference)
          (alters_rootComponentsOf h hcall kind version reference)
          (coincide_rootComponentsOf h hcall hsame kind version reference) fun part => ?_
        exact .bind (keeps_flatten h kind rest).anywhere (alters_flatten h hcall kind rest).anywhere
          ih.anywhere fun _ => .refl _

theorem coincide_compileComponents (index : Nat) (flat : List FlatComponent) :
    Coincide count (fun _ => True) (compileComponents compileType index flat)
      (compileComponents other index flat) := by
  induction flat generalizing index with
  | nil => exact .refl _
  | cons component rest ih =>
      have hfirst : Coincide count (fun _ => True) (compileComponent compileType index component)
          (compileComponent other index component) := by
        refine .bind (Keeps.ask _) (.ask _) (.refl _) fun target => ?_
        exact .bind (h target).anywhere (hcall target).anywhere (hsame target).anywhere
          fun _ => .refl _
      refine .bind (keeps_compileComponent h index component)
        (alters_compileComponent h hcall index component) hfirst fun first => ?_
      exact .bind (keeps_compileComponents h (index + 1) rest).anywhere
        (alters_compileComponents h hcall (index + 1) rest).anywhere (ih (index + 1)).anywhere
          fun _ => .refl _

theorem coincide_declaredComponents (collection : CollectionDeclaration) :
    Coincide count (fun _ => True) (declaredComponents compileType collection)
      (declaredComponents other collection) := by
  refine .bind (Keeps.refuse _) (.refuse _) (.refl _) fun _ => ?_
  refine .bind (keeps_flatten h collection.kind collection.items).anywhere
    (alters_flatten h hcall collection.kind collection.items).anywhere
    (coincide_flatten h hcall hsame collection.kind collection.items).anywhere fun flat => ?_
  refine .bind (Keeps.refuse _) (.refuse _) (.refl _) fun _ => ?_
  exact .bind (keeps_compileComponents h 0 flat).anywhere
    (alters_compileComponents h hcall 0 flat).anywhere
    (coincide_compileComponents h hcall hsame 0 flat).anywhere fun _ => .refl _

theorem coincide_compileDefinition (start : Schema) (definition : Definition) :
    Coincide count start.Extends (compileDefinition compileType definition)
      (compileDefinition other definition) := by
  cases definition with
  | builtin builtin => exact .refl _
  | «alias» reference =>
      refine .bind (Keeps.ask _) (.ask _) (.refl _) fun target => ?_
      exact .bind (h target).anywhere (hcall target).anywhere (hsame target).anywhere
        fun _ => .refl _
  | tagged tag method reference =>
      refine .bind (Keeps.ask _) (.ask _) (.refl _) fun inner => ?_
      exact .bind (h inner).anywhere (hcall inner).anywhere (hsame inner).anywhere fun _ => .refl _
  | collection collection =>
      have hcollection : Coincide count start.Extends (compileCollection compileType collection)
          (compileCollection other collection) := by
        rw [compileCollection_eq, compileCollection_eq]
        exact .bind (keeps_declaredComponents h start collection)
          (alters_declaredComponents h hcall collection).anywhere
          (coincide_declaredComponents h hcall hsame collection).anywhere fun _ => .refl _
      exact .bind (keeps_compileCollection h start collection)
        (alters_compileCollection h hcall start collection) hcollection fun _ => .refl _

end Compiling

/-- As long as there are more steps than types that have only been declared, it makes no difference
how many there are, nor what happens once they are used up. -/
theorem coincide_compileWithin (last : TypeCompiler) {count steps others : Nat}
    (hsteps : count < steps) (hothers : count < others) (handle : Handle) :
    Coincide count (fun _ => True) (compileWithin steps handle)
      (compileFrom last others handle) := by
  induction steps generalizing count others handle with
  | zero => exact absurd hsteps (Nat.not_lt_zero count)
  | succ steps ih =>
      intro before hconsistent hcount _
      obtain ⟨others, rfl⟩ := Nat.exists_eq_add_one_of_ne_zero (Nat.ne_zero_of_lt hothers)
      rw [compileWithin, compileFrom, outcome_compileOnce, outcome_compileOnce]
      cases hnode : before.node? handle with
      | none => rfl
      | some node =>
          cases hstatus : node.status with
          | declared =>
              -- Marking the type uses up a step, and leaves one declared type less.
              obtain ⟨rest, rfl⟩ :=
                Nat.exists_eq_add_one_of_ne_zero (hcount.pos hnode hstatus).ne'
              have hdefinition := coincide_compileDefinition (compiles_compileWithin steps)
                (alters_compileWithin steps) (ih (Nat.lt_of_succ_lt_succ hsteps)
                  (Nat.lt_of_succ_lt_succ hothers)) before node.declaration.definition _
                (hconsistent.mark hnode hstatus) (hcount.mark hnode hstatus)
                (extends_mark hnode hstatus)
              simp only [hstatus]
              rw [outcome_compileNode, outcome_compileNode, hdefinition]
          | _ => simp only [hstatus]

/-- Compiling a type never uses its steps up: with more of them, and whatever happened then, it
would do the same. -/
theorem Schema.Reachable.outcome_compileFrom {schema : Schema} (h : schema.Reachable)
    (last : TypeCompiler) {steps : Nat} (hsteps : schema.nodes.size < steps) (handle : Handle) :
    (discard (compileFrom last steps handle)).outcome schema =
      (Schema.compile handle).outcome schema := by
  have hsame := (coincide_compileWithin last (Nat.lt_succ_self schema.nodes.size) hsteps
    handle).discard schema h.consistent (declaresAtMost_size schema) trivial
  exact hsame.symm

end Asn1

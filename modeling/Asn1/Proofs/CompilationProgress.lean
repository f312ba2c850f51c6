import Asn1.Proofs.CompilationGrowth
import Asn1.Proofs.ReferenceChains

/-!
Schemas in which types are being compiled. The types that have not been compiled yet are as they
have been declared, and the definition of each other type is the one that has been declared, up to
resolving the reference of an alias or a tag.
-/

namespace Asn1

open Results

/-- What becomes of a definition: it stays the same, or its reference is resolved. -/
inductive Definition.ResolvesTo (schema : Schema) : Definition → Definition → Prop
  | same (definition : Definition) : ResolvesTo schema definition definition
  | alias {reference : TypeRef} {target : Handle}
    (hresolve : schema.resolve reference = .ok target) :
    ResolvesTo schema (.alias reference) (.alias (.handle target))
  | tagged {tag : Tag} {method used : TagMethod} {reference : TypeRef} {target : Handle}
    (hresolve : schema.resolve reference = .ok target) :
    ResolvesTo schema (.tagged tag method reference) (.tagged tag used (.handle target))

theorem Definition.ResolvesTo.mono {before after : Schema} {old new : Definition}
    (h : old.ResolvesTo before new) (hextends : before.Extends after) :
    old.ResolvesTo after new := by
  cases h with
  | same => exact .same _
  | «alias» hresolve => exact .alias (hextends.resolve hresolve)
  | tagged hresolve => exact .tagged (hextends.resolve hresolve)

theorem Elaborates.resolvesTo {start schema : Schema} {old new : Definition}
    {form : TypeForm CompiledType} (h : Elaborates start schema old new form) :
    old.ResolvesTo schema new := by
  cases h with
  | builtin => exact .same _
  | «alias» hresolve _ => exact .alias hresolve
  | explicit hresolve _ => exact .tagged hresolve
  | implicit hresolve _ _ => exact .tagged hresolve
  | collection _ => exact .same _

namespace Schema

/-- Whether a schema is what `start` has become while the types in the list are being compiled. What
has not been compiled is as it has been declared, and what has been added is an automatic tag. -/
structure IsCompiling (start : Schema) (marked : List Handle) (schema : Schema) : Prop
    extends start.Extends schema where
  kept : ∀ {handle old}, start.node? handle = some old → ∃ node,
    schema.node? handle = some node ∧ node.name? = old.name? ∧
      old.declaration.definition.ResolvesTo schema node.declaration.definition ∧
        node.declaration.constraints = old.declaration.constraints
  values_eq : schema.values = start.values
  declared : ∀ {handle node}, schema.node? handle = some node → node.status = .declared →
    start.node? handle = some node
  added : ∀ {handle node}, start.node? handle = none → schema.node? handle = some node →
    node.IsAddedTag
  mem_marked : ∀ {handle node}, schema.node? handle = some node → node.status = .validating →
    handle ∈ marked

variable {start schema : Schema} {marked : List Handle} {handle : Handle} {node new : SchemaNode}

theorem isDone_of_isAddedTag (hnode : schema.node? handle = some node) (h : node.IsAddedTag) :
    schema.IsDone handle := by
  obtain ⟨-, type, hstatus, -⟩ := h
  exact ⟨type, compiled_eq_ok_iff.mpr ⟨node, hnode, hstatus⟩⟩

theorem Consistent.not_startsChain_of_isAddedTag (h : schema.Consistent)
    (hnode : schema.node? handle = some node) (htag : node.IsAddedTag) (count : Nat) :
    ¬schema.StartsChain aliasTarget? (count + 1) handle := by
  rintro ⟨reference, hreference, -⟩
  obtain ⟨-, type, hstatus, -, _, _, _, hform⟩ := htag
  obtain ⟨definition, hdefinition, hdescribes⟩ :=
    definition?_of_holds (h handle type (compiled_eq_ok_iff.mpr ⟨node, hnode, hstatus⟩))
  rw [hdefinition, Option.bind_some] at hreference
  rw [hform] at hdescribes
  cases definition with
  | «alias» target => exact hdescribes
  | _ => cases hreference

namespace IsCompiling

theorem initial (hrest : ∀ handle node, start.node? handle = some node →
    node.status ≠ .validating) : IsCompiling start [] start := by
  exact ⟨.refl start, fun hold => ⟨_, hold, rfl, .same _, rfl⟩, rfl, fun hnode _ => hnode,
    fun hnone hnode => absurd (hnone.symm.trans hnode) (by simp),
    fun hnode hstatus => absurd hstatus (hrest _ _ hnode)⟩

theorem push (h : IsCompiling start marked schema) (hnode : node.IsAddedTag) :
    IsCompiling start marked (schema.push node).2 := by
  obtain ⟨-, type, hstatus, -⟩ := id hnode
  have hextends := extends_push schema node
  refine ⟨h.toExtends.trans hextends, ?_, h.values_eq, ?_, ?_, ?_⟩
  · intro other old hold
    obtain ⟨found, hfound, hname, hresolves, hconstraints⟩ := h.kept hold
    exact ⟨found, node?_push_of_node? hfound node, hname, hresolves.mono hextends, hconstraints⟩
  · intro other found hfound hdeclared
    rw [node?_push] at hfound
    split at hfound
    · obtain rfl := Option.some.inj hfound
      cases hdeclared.symm.trans hstatus
    · exact h.declared hfound hdeclared
  · intro other found hnone hfound
    rw [node?_push] at hfound
    split at hfound
    · obtain rfl := Option.some.inj hfound
      exact hnode
    · exact h.added hnone hfound
  · intro other found hfound hvalidating
    rw [node?_push] at hfound
    split at hfound
    · obtain rfl := Option.some.inj hfound
      cases hvalidating.symm.trans hstatus
    · exact h.mem_marked hfound hvalidating

/-- What becomes of the node of one type has to be right for that type only. -/
theorem withNode {marked' : List Handle} (h : IsCompiling start marked schema)
    {old : SchemaNode} (hstart : start.node? handle = some old)
    (hnode : schema.node? handle = some node)
    (hextends : schema.Extends (schema.withNode handle new)) (hname : new.name? = old.name?)
    (hresolves : old.declaration.definition.ResolvesTo (schema.withNode handle new)
      new.declaration.definition)
    (hconstraints : new.declaration.constraints = old.declaration.constraints)
    (hdeclared : new.status ≠ .declared)
    (hvalidating : new.status = .validating → handle ∈ marked')
    (hmarked : ∀ other ∈ marked, other ≠ handle → other ∈ marked') :
    IsCompiling start marked' (schema.withNode handle new) := by
  refine ⟨h.toExtends.trans hextends, ?_, h.values_eq, ?_, ?_, ?_⟩
  · intro other first hfirst
    rw [node?_withNode hnode]
    split
    · next heq =>
      subst heq
      obtain rfl := Option.some.inj (hstart.symm.trans hfirst)
      exact ⟨new, rfl, hname, hresolves, hconstraints⟩
    · obtain ⟨found, hfound, hname, hresolves, hsame⟩ := h.kept hfirst
      exact ⟨found, hfound, hname, hresolves.mono hextends, hsame⟩
  · intro other found hfound hstatus
    rw [node?_withNode hnode] at hfound
    split at hfound
    · obtain rfl := Option.some.inj hfound
      exact absurd hstatus hdeclared
    · exact h.declared hfound hstatus
  · intro other found hnone hfound
    rw [node?_withNode hnode] at hfound
    split at hfound
    · next heq =>
      subst heq
      cases hnone.symm.trans hstart
    · exact h.added hnone hfound
  · intro other found hfound hstatus
    rw [node?_withNode hnode] at hfound
    split at hfound
    · next heq =>
      obtain rfl := Option.some.inj hfound
      exact heq ▸ hvalidating hstatus
    · next hne => exact hmarked other (h.mem_marked hfound hstatus) hne

theorem mark (h : IsCompiling start marked schema) (hnode : schema.node? handle = some node)
    (hdeclared : node.status = .declared) :
    IsCompiling start (handle :: marked)
      (schema.withNode handle { node with status := .validating }) := by
  apply h.withNode (h.declared hnode hdeclared) hnode (extends_mark hnode hdeclared) rfl
    (.same _) rfl (by simp) (fun _ => List.mem_cons_self)
  intro _ hmem _
  exact List.mem_cons_of_mem _ hmem

theorem settle (h : IsCompiling start (handle :: marked) schema) {old : SchemaNode}
    (hstart : start.node? handle = some old) (hnode : schema.node? handle = some node)
    (hextends : schema.Extends (schema.withNode handle new)) (hname : new.name? = old.name?)
    (hresolves : old.declaration.definition.ResolvesTo (schema.withNode handle new)
      new.declaration.definition)
    (hconstraints : new.declaration.constraints = old.declaration.constraints)
    (hsettled : new.status.IsSettled) :
    IsCompiling start marked (schema.withNode handle new) := by
  refine h.withNode hstart hnode hextends hname hresolves hconstraints ?_ ?_ ?_
  · intro hstatus
    simp [hstatus, TypeStatus.IsSettled] at hsettled
  · intro hstatus
    simp [hstatus, TypeStatus.IsSettled] at hsettled
  · intro other hmem hne
    exact (List.mem_cons.mp hmem).resolve_left hne

/-- A reference leads to the same type as it did, unless it leads to one that has been added. -/
theorem resolve_or_added (h : IsCompiling start marked schema) {reference : TypeRef}
    {target : Handle} (hresolve : schema.resolve reference = .ok target) :
    start.resolve reference = .ok target ∨ ∃ node, schema.node? target = some node ∧
      node.IsAddedTag := by
  obtain ⟨node, hnode⟩ := Option.isSome_iff_exists.mp (isSome_node?_of_resolve hresolve)
  cases hstart : start.node? target with
  | none => exact .inr ⟨node, hnode, h.added hstart hnode⟩
  | some old =>
      refine .inl ?_
      cases reference with
      | handle handle =>
          obtain ⟨rfl, -⟩ := resolve_handle_eq_ok_iff.mp hresolve
          exact resolve_handle_eq_ok_iff.mpr ⟨rfl, Option.isSome_of_eq_some hstart⟩
      | name name =>
          have hlookup := resolve_name_eq_ok_iff.mp hresolve
          obtain ⟨_, hfound, hname, -, -⟩ := h.kept hstart
          obtain ⟨named, hnamed, heq⟩ := exists_name?_of_lookup hlookup
          obtain rfl := Option.some.inj (hfound.symm.trans hnamed)
          cases hbefore : start.lookup name with
          | none => exact absurd (hname.symm.trans heq) (name?_ne_of_lookup_eq_none hbefore hstart)
          | some first =>
              have hfirst := h.resolve (resolve_name_eq_ok_iff.mpr hbefore)
              obtain rfl := Except.ok.inj (hfirst.symm.trans hresolve)
              exact resolve_name_eq_ok_iff.mpr hbefore

/-- Aliases that follow each other have done so from the start. -/
theorem startsChain (h : IsCompiling start marked schema) (hconsistent : schema.Consistent)
    {count : Nat} (hpresent : (start.node? handle).isSome = true)
    (hstarts : schema.StartsChain aliasTarget? count handle) :
    start.StartsChain aliasTarget? count handle := by
  induction count generalizing handle with
  | zero => trivial
  | succ count ih =>
      obtain ⟨old, hold⟩ := Option.isSome_iff_exists.mp hpresent
      obtain ⟨node, hnode, -, hresolves, -⟩ := h.kept hold
      obtain ⟨reference, hreference, hrest⟩ := hstarts
      have hdefinition : schema.definition? handle = some node.declaration.definition :=
        definition?_eq_some_iff.mpr ⟨node, hnode, rfl⟩
      rw [hdefinition, Option.bind_some] at hreference
      -- The alias may have been resolved in the meantime, but it leads to the same type.
      obtain ⟨first, hfirst, hsame⟩ : ∃ first,
          aliasTarget? old.declaration.definition = some first ∧ ∀ target,
            schema.resolve reference = .ok target → schema.resolve first = .ok target := by
        generalize old.declaration.definition = before at hresolves
        generalize node.declaration.definition = after at hresolves hreference
        cases hresolves with
        | same => exact ⟨reference, hreference, fun _ => id⟩
        | @«alias» first found hfound =>
            refine ⟨first, rfl, fun target htarget => ?_⟩
            obtain rfl := Option.some.inj hreference
            obtain ⟨rfl, -⟩ := resolve_handle_eq_ok_iff.mp htarget
            exact hfound
        | tagged _ => cases hreference
      have hstart : (start.definition? handle).bind aliasTarget? = some first := by
        rw [definition?_eq_some_iff.mpr ⟨old, hold, rfl⟩, Option.bind_some, hfirst]
      refine ⟨first, hstart, ?_⟩
      rcases hrest with hzero | ⟨target, htarget, hstarts⟩
      · exact .inl hzero
      rcases h.resolve_or_added (hsame target htarget) with hresolve | ⟨added, hadded, htag⟩
      · exact .inr ⟨target, hresolve, ih (isSome_node?_of_resolve hresolve) hstarts⟩
      · cases count with
        | zero => exact .inl rfl
        | succ count =>
            exact absurd hstarts (hconsistent.not_startsChain_of_isAddedTag hadded htag count)

theorem keepsConstraints (h : IsCompiling start marked schema) (hconsistent : schema.Consistent) :
    start.KeepsConstraints schema := by
  refine keepsConstraints_of_kept hconsistent (fun hold => ?_) h.added
  obtain ⟨node, hnode, -, -, hconstraints⟩ := h.kept hold
  exact ⟨node, hnode, hconstraints⟩

theorem mayCompileTo (h : IsCompiling start marked schema) :
    start.view.MayCompileTo schema.view :=
  mayCompileTo_view h.toExtends.retains fun hvalue => h.values_eq ▸ hvalue

end IsCompiling

end Schema

end Asn1

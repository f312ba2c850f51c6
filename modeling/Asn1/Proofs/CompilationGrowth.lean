import Asn1.Proofs.CompilationSteps
import Asn1.Proofs.SchemaViews
import Asn1.Proofs.TypesUpToHandles

/-!
What becomes of a schema in which only types are compiled. A type that has been declared is compiled
to what its declaration stands for, or it fails, and the types that are added just put a tag on
another one. If two schemas have come from the same one, a declaration stands for the same in both,
up to the handles of the types that have been added.
-/

namespace Asn1

open Results

/-- Whether a node is like those that automatic tagging adds. -/
def SchemaNode.IsAddedTag (node : SchemaNode) : Prop :=
  node.name? = none ∧ ∃ type, node.status = .compiled type ∧ type.info.constraints = [] ∧
    ∃ tag method inner, type.form = .tagged tag method inner

namespace Schema

/-- Whether a reference is a name or a handle that the schema has given out. -/
def Knows (schema : Schema) (reference : TypeRef) : Prop :=
  ∀ handle, reference = .handle handle → (schema.node? handle).isSome = true

/-- Whether the declarations of a schema refer to nothing that it does not know. -/
def IsClosed (schema : Schema) : Prop :=
  ∀ handle definition, schema.definition? handle = some definition →
    ∀ reference ∈ definition.references, schema.Knows reference

/-- What becomes of the node of a type when only types are compiled. -/
inductive Becomes (start schema : Schema) (handle : Handle) (node : SchemaNode) : SchemaNode → Prop
  | same : Becomes start schema handle node node
  | marked (hdeclared : node.status = .declared) :
    Becomes start schema handle node { node with status := .validating }
  | failed (hdeclared : node.status = .declared) :
    Becomes start schema handle node { node with status := .failed }
  | compiled {definition : Definition} {form : TypeForm CompiledType}
    (hdeclared : node.status = .declared)
    (helaborates : Elaborates start schema node.declaration.definition definition form)
    (hknows : ∀ layout, form = .collection layout →
      ∀ component ∈ layout.components, start.Knows component.declared) :
    Becomes start schema handle node ⟨node.name?, ⟨definition, node.declaration.constraints⟩,
      .compiled ⟨⟨handle, node.name?, node.declaration.constraints⟩, form⟩⟩

/-- Whether a schema is what another one has become after only types have been compiled. -/
structure GrowsInto (start schema : Schema) : Prop extends start.Extends schema where
  values_eq : schema.values = start.values
  becomes : ∀ {handle node}, start.node? handle = some node →
    ∃ found, schema.node? handle = some found ∧ Becomes start schema handle node found
  added : ∀ {handle node}, start.node? handle = none → schema.node? handle = some node →
    node.IsAddedTag

variable {start schema after : Schema} {handle : Handle} {old node : SchemaNode}

theorem Becomes.mono {found : SchemaNode} (h : Becomes start schema handle node found)
    (hextends : schema.Extends after) : Becomes start after handle node found := by
  cases h with
  | same => exact .same
  | marked hdeclared => exact .marked hdeclared
  | failed hdeclared => exact .failed hdeclared
  | compiled hdeclared helaborates hknows =>
      exact .compiled hdeclared (persists_elaborates _ _ _ _ _ _ hextends helaborates) hknows

/-- No constraints are added if types keep theirs and what is added are automatic tags. -/
theorem keepsConstraints_of_kept (hconsistent : schema.Consistent)
    (hkept : ∀ {handle old}, start.node? handle = some old → ∃ node,
      schema.node? handle = some node ∧ node.declaration.constraints = old.declaration.constraints)
    (hadded : ∀ {handle node}, start.node? handle = none → schema.node? handle = some node →
      node.IsAddedTag) : start.KeepsConstraints schema := by
  intro handle type hcompiled constraint hmem
  obtain ⟨node, hnode, hinfo, -⟩ := (hconsistent handle type hcompiled).node
  cases hstart : start.node? handle with
  | none =>
      obtain ⟨found, hfound, hstatus⟩ := compiled_eq_ok_iff.mp hcompiled
      obtain ⟨-, _, hother, hconstraints, -⟩ := hadded hstart hfound
      obtain rfl := TypeStatus.compiled.inj (hstatus.symm.trans hother)
      rw [hconstraints] at hmem
      exact absurd hmem List.not_mem_nil
  | some old =>
      obtain ⟨found, hfound, hconstraints⟩ := hkept hstart
      obtain rfl := Option.some.inj (hnode.symm.trans hfound)
      rw [hinfo] at hmem
      exact ⟨old, rfl, hconstraints ▸ hmem⟩

theorem Becomes.constraints_eq {found : SchemaNode} (h : Becomes start schema handle node found) :
    found.declaration.constraints = node.declaration.constraints := by
  cases h <;> rfl

theorem size_le_of_node?_eq_none (h : schema.node? handle = none) :
    schema.nodes.size ≤ handle.index :=
  Array.getElem?_eq_none_iff.mp h

theorem isSome_node?_of_resolve {reference : TypeRef} {target : Handle}
    (h : schema.resolve reference = .ok target) : (schema.node? target).isSome = true := by
  cases reference with
  | handle handle =>
      obtain ⟨rfl, hsome⟩ := resolve_handle_eq_ok_iff.mp h
      exact hsome
  | name name =>
      rw [resolve_name_eq_ok_iff, lookup, Option.map_eq_some_iff] at h
      obtain ⟨index, hindex, rfl⟩ := h
      obtain ⟨hlt, -⟩ := Array.findIdx?_eq_some_iff_getElem.mp hindex
      simp [node?, hlt]

theorem IsClosed.push (h : schema.IsClosed) (hnode : ∀ reference ∈
    node.declaration.definition.references, (schema.push node).2.Knows reference) :
    (schema.push node).2.IsClosed := by
  intro handle definition hdefinition reference hmem
  obtain ⟨found, hfound, rfl⟩ := definition?_eq_some_iff.mp hdefinition
  rw [node?_push] at hfound
  split at hfound
  · obtain rfl := Option.some.inj hfound
    exact hnode reference hmem
  · intro target heq
    obtain ⟨old, hold⟩ := Option.isSome_iff_exists.mp
      (h handle _ (definition?_eq_some_iff.mpr ⟨found, hfound, rfl⟩) reference hmem target heq)
    rw [node?_push_of_node? hold]
    rfl

theorem exists_name?_of_lookup {name : String} (h : schema.lookup name = some handle) :
    ∃ node, schema.node? handle = some node ∧ node.name? = some name := by
  rw [lookup, Option.map_eq_some_iff] at h
  obtain ⟨index, hindex, rfl⟩ := h
  obtain ⟨hlt, hname, -⟩ := Array.findIdx?_eq_some_iff_getElem.mp hindex
  exact ⟨schema.nodes[index], by simp [node?, hlt], of_decide_eq_true hname⟩

theorem name?_ne_of_lookup_eq_none {name : String} (h : schema.lookup name = none)
    (hnode : schema.node? handle = some node) : node.name? ≠ some name := by
  rw [lookup, Option.map_eq_none_iff, Array.findIdx?_eq_none_iff] at h
  have hmem : node ∈ schema.nodes := Array.mem_of_getElem? hnode
  simpa using h node hmem

namespace GrowsInto

theorem refl (start : Schema) : start.GrowsInto start := by
  exact ⟨.refl start, rfl, fun hnode => ⟨_, hnode, .same⟩,
    fun hnone hnode => absurd (hnone.symm.trans hnode) (by simp)⟩

theorem push (h : start.GrowsInto schema) (hnode : node.IsAddedTag) :
    start.GrowsInto (schema.push node).2 := by
  have hextends := extends_push schema node
  refine ⟨h.toExtends.trans hextends, h.values_eq, ?_, ?_⟩
  · intro handle old hold
    obtain ⟨found, hfound, hbecomes⟩ := h.becomes hold
    exact ⟨found, node?_push_of_node? hfound node, hbecomes.mono hextends⟩
  · intro handle found hnone hfound
    rw [node?_push] at hfound
    split at hfound
    · obtain rfl := Option.some.inj hfound
      exact hnode
    · exact h.added hnone hfound

/-- Only the node of a type that the schema started out with is ever changed. -/
theorem withNode (h : start.GrowsInto schema) (hstart : start.node? handle = some old)
    (hnode : schema.node? handle = some node) {new : SchemaNode}
    (hextends : schema.Extends (schema.withNode handle new))
    (hbecomes : Becomes start (schema.withNode handle new) handle old new) :
    start.GrowsInto (schema.withNode handle new) := by
  refine ⟨h.toExtends.trans hextends, h.values_eq, ?_, ?_⟩
  · intro other first hfirst
    rw [node?_withNode hnode]
    split
    · next heq =>
      subst heq
      obtain rfl := Option.some.inj (hstart.symm.trans hfirst)
      exact ⟨new, rfl, hbecomes⟩
    · obtain ⟨found, hfound, hother⟩ := h.becomes hfirst
      exact ⟨found, hfound, hother.mono hextends⟩
  · intro other found hnone hfound
    rw [node?_withNode hnode] at hfound
    split at hfound
    · next heq =>
      subst heq
      exact absurd (hnone.symm.trans hstart) (by simp)
    · exact h.added hnone hfound

theorem lookup_eq (h : start.GrowsInto schema) (name : String) :
    schema.lookup name = start.lookup name := by
  cases hstart : start.lookup name with
  | some handle =>
      have hresolve := h.resolve (resolve_name_eq_ok_iff.mpr hstart)
      exact resolve_name_eq_ok_iff.mp hresolve
  | none =>
      cases hlookup : schema.lookup name with
      | none => rfl
      | some handle =>
          obtain ⟨found, hfound, hname⟩ := exists_name?_of_lookup hlookup
          cases hold : start.node? handle with
          | none => simp [(h.added hold hfound).1] at hname
          | some node =>
              obtain ⟨_, hsame, hbecomes⟩ := h.becomes hold
              obtain rfl := Option.some.inj (hfound.symm.trans hsame)
              have hne := name?_ne_of_lookup_eq_none hstart hold
              cases hbecomes <;> exact absurd hname hne

theorem resolve_iff (h : start.GrowsInto schema) {reference : TypeRef} {target : Handle}
    (hknows : start.Knows reference) :
    schema.resolve reference = .ok target ↔ start.resolve reference = .ok target := by
  cases reference with
  | name name => rw [resolve_name_eq_ok_iff, resolve_name_eq_ok_iff, h.lookup_eq]
  | handle handle =>
      refine ⟨fun hresolve => ?_, h.resolve⟩
      obtain ⟨rfl, -⟩ := resolve_handle_eq_ok_iff.mp hresolve
      exact resolve_handle_eq_ok_iff.mpr ⟨rfl, hknows _ rfl⟩

theorem keepsConstraints (h : start.GrowsInto schema) (hconsistent : schema.Consistent) :
    start.KeepsConstraints schema := by
  refine keepsConstraints_of_kept hconsistent (fun hnode => ?_) h.added
  obtain ⟨found, hfound, hbecomes⟩ := h.becomes hnode
  exact ⟨found, hfound, hbecomes.constraints_eq⟩

/-- Types that have been added just put a tag on another one. -/
theorem onlyTagsFrom (h : start.GrowsInto schema) (hconsistent : schema.Consistent)
    {type : CompiledType} (hcompiled : schema.compiled handle = .ok type) :
    type.OnlyTagsFrom start.nodes.size := by
  intro inner hreaches hle
  obtain ⟨node, hnode, hstatus⟩ :=
    compiled_eq_ok_iff.mp (hconsistent.compiled_of_reaches hcompiled hreaches)
  obtain ⟨-, found, hfound, hrest⟩ := h.added (Array.getElem?_eq_none_iff.mpr hle) hnode
  obtain rfl := TypeStatus.compiled.inj (hstatus.symm.trans hfound)
  exact hrest

theorem knows_declared (h : start.GrowsInto schema) (hstart : start.Consistent)
    {type : CompiledType} {layout : Layout CompiledType}
    (hcompiled : schema.compiled handle = .ok type) (hlayout : type.form = .collection layout) :
    ∀ component ∈ layout.components, start.Knows component.declared := by
  obtain ⟨found, hfound, hstatus⟩ := compiled_eq_ok_iff.mp hcompiled
  cases hnode : start.node? handle with
  | none =>
      obtain ⟨-, _, hother, -, _, _, _, hform⟩ := h.added hnode hfound
      obtain rfl := TypeStatus.compiled.inj (hstatus.symm.trans hother)
      cases hlayout.symm.trans hform
  | some node =>
      obtain ⟨_, hsame, hbecomes⟩ := h.becomes hnode
      obtain rfl := Option.some.inj (hfound.symm.trans hsame)
      cases hbecomes with
      | same =>
          intro component hmem other hother
          obtain ⟨target, _, hresolve, -⟩ := (hstart handle type
            (compiled_eq_ok_iff.mpr ⟨_, hnode, hstatus⟩)).declared layout hlayout component hmem
          rw [hother] at hresolve
          exact (resolve_handle_eq_ok_iff.mp hresolve).2
      | marked _ => cases hstatus
      | failed _ => cases hstatus
      | compiled _ _ hknows =>
          obtain rfl := TypeStatus.compiled.inj hstatus
          exact hknows layout hlayout

theorem knows_flat (h : start.GrowsInto schema) (hstart : start.Consistent)
    (hconsistent : schema.Consistent) {items : List (Nat × ComponentItem)}
    {flat : List FlatComponent} (hflat : schema.Flattens items flat)
    (hitems : ∀ item ∈ items, ∀ reference ∈ item.2.references, start.Knows reference) :
    ∀ component ∈ flat, start.Knows component.type := by
  induction hflat with
  | nil => simp
  | cons hitem _ ih =>
      obtain ⟨hfirst, hrest⟩ := List.forall_mem_cons.mp hitems
      refine List.forall_mem_append.mpr ⟨?_, ih hrest⟩
      cases hitem with
      | components written =>
          intro component hmem
          obtain ⟨declared, hdeclared, rfl⟩ := List.mem_map.mp hmem
          exact hfirst _ (List.mem_map_of_mem hdeclared)
      | componentsOf hresolve hcompiled hlayout =>
          intro component hmem
          obtain ⟨included, hincluded, rfl⟩ := List.mem_map.mp hmem
          exact h.knows_declared hstart (hconsistent.compiled_of_reaches hcompiled hlayout.reaches)
            rfl included (List.mem_filter.mp hincluded).1

theorem knows_layout (h : start.GrowsInto schema) (hstart : start.Consistent)
    (hconsistent : schema.Consistent) {collection : CollectionDeclaration}
    {layout : Layout CompiledType}
    (hknows : ∀ reference ∈ (Definition.collection collection).references, start.Knows reference)
    (hlayout : HasLayout start schema collection layout) :
    ∀ component ∈ layout.components, start.Knows component.declared := by
  obtain ⟨flat, components, tagged, hassembly, -, -, rfl⟩ := hlayout
  have hflat := h.knows_flat hstart hconsistent hassembly.flattens.1
    fun item hitem reference hmem => hknows reference (collection.mem_references hitem hmem)
  intro component hmem
  obtain ⟨source, hsource, heq⟩ := hassembly.exists_declared component hmem
  exact heq ▸ hflat source hsource

theorem knows_elaborated (h : start.GrowsInto schema) (hstart : start.Consistent)
    (hconsistent : schema.Consistent) {declared definition : Definition}
    {form : TypeForm CompiledType}
    (hknows : ∀ reference ∈ declared.references, start.Knows reference)
    (helaborates : Elaborates start schema declared definition form) :
    ∀ layout, form = .collection layout →
      ∀ component ∈ layout.components, start.Knows component.declared := by
  rintro layout rfl
  cases helaborates with
  | collection hlayout => exact h.knows_layout hstart hconsistent hknows hlayout

theorem size_le (h : start.GrowsInto schema) : start.nodes.size ≤ schema.nodes.size := by
  by_contra hlt
  obtain ⟨node, hnode⟩ : ∃ node, start.node? ⟨schema.nodes.size⟩ = some node :=
    ⟨_, Array.getElem?_eq_getElem (Nat.lt_of_not_le hlt)⟩
  obtain ⟨found, hfound, -⟩ := h.becomes hnode
  exact Nat.lt_irrefl _ (index_lt_of_node? hfound)

end GrowsInto

end Schema

end Asn1

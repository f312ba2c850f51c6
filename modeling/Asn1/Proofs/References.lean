import Asn1.Declaration.Versions
import Asn1.Proofs.Results
import Asn1.Schema
import Mathlib.Data.List.Nodup
import Mathlib.Data.List.Perm.Subperm
import Mathlib.Logic.Relation

namespace Asn1

/-- The types that an item of a component list mentions. -/
def ComponentItem.references : ComponentItem → List TypeRef
  | .components declared => declared.map ComponentDeclaration.type
  | .componentsOf type => [type]

/-- The types that a declaration mentions. -/
def Definition.references : Definition → List TypeRef
  | .builtin _ => []
  | .alias target => [target]
  | .tagged _ _ inner => [inner]
  | .collection declared => declared.items.flatMap fun item => item.2.references

theorem CollectionDeclaration.mem_references {collection : CollectionDeclaration}
    {item : Nat × ComponentItem} (hitem : item ∈ collection.items) {reference : TypeRef}
    (hmem : reference ∈ item.2.references) :
    reference ∈ (Definition.collection collection).references := by
  rw [Definition.references, List.mem_flatMap]
  exact ⟨item, hitem, hmem⟩

/-- Whether it is decided if the type can be used. -/
def TypeStatus.IsSettled : TypeStatus → Prop
  | .declared | .validating => False
  | .compiled _ | .failed => True

/-- Whether values that have been defined under a name are still the same. -/
def NamedValues.IsWithin (values later : NamedValues) : Prop :=
  ∀ {name value}, values.lookup name = some value → later.lookup name = some value

namespace Schema

/-- Whether the declaration of a type mentions another one. -/
def Refers (schema : Schema) (outer inner : Handle) : Prop :=
  ∃ definition, schema.definition? outer = some definition ∧
    ∃ reference ∈ definition.references, schema.resolve reference = .ok inner

/-- Whether a type is compiled and so is all that it leads to, with no way to go on forever. -/
inductive Grounded (schema : Schema) : Handle → Prop
  | intro {handle : Handle} {type : CompiledType} {definition : Definition}
    (compiled : schema.compiled handle = .ok type)
    (definition?_eq : schema.definition? handle = some definition)
    (resolves : ∀ reference ∈ definition.references,
      ∃ target, schema.resolve reference = .ok target)
    (grounded : ∀ inner, schema.Refers handle inner → Grounded schema inner) :
    Grounded schema handle

/-- Whether a reference is to a type that has been compiled. -/
def Offers (schema : Schema) (reference : TypeRef) : Prop :=
  ∃ target type, schema.resolve reference = .ok target ∧ schema.compiled target = .ok type

/-- Whether a schema has what another one has. Types that are not settled can have changed. -/
structure Extends (before after : Schema) : Prop where
  settled : ∀ {handle node}, before.node? handle = some node → node.status.IsSettled →
    after.node? handle = some node
  resolve : ∀ {reference target}, before.resolve reference = .ok target →
    after.resolve reference = .ok target
  refers : ∀ {outer inner}, before.Refers outer inner → after.Refers outer inner
  values : before.values.IsWithin after.values

/-- Whether a schema still has all that another one has compiled. What is declared of a type that is
not settled can have changed altogether. -/
structure Retains (before after : Schema) : Prop where
  settled : ∀ {handle node}, before.node? handle = some node → node.status.IsSettled →
    after.node? handle = some node
  resolve : ∀ {reference target}, before.resolve reference = .ok target →
    after.resolve reference = .ok target
  values : before.values.IsWithin after.values

variable {schema before after last : Schema} {handle : Handle} {type : CompiledType}

theorem compiled_eq_ok_iff :
    schema.compiled handle = .ok type ↔
      ∃ node, schema.node? handle = some node ∧ node.status = .compiled type := by
  rw [compiled]
  cases schema.node? handle with
  | none => simp
  | some node => cases hstatus : node.status <;> simp [hstatus]

theorem definition?_eq_some_iff {definition : Definition} :
    schema.definition? handle = some definition ↔
      ∃ node, schema.node? handle = some node ∧ node.declaration.definition = definition :=
  Option.map_eq_some_iff

theorem Grounded.compiled (h : schema.Grounded handle) :
    ∃ type, schema.compiled handle = .ok type := by
  cases h with
  | intro hcompiled _ _ _ => exact ⟨_, hcompiled⟩

theorem Grounded.of_refers {inner : Handle} (h : schema.Grounded handle)
    (hrefers : Relation.ReflTransGen schema.Refers handle inner) : schema.Grounded inner := by
  induction hrefers with
  | refl => exact h
  | tail _ hnext ih =>
      cases ih with
      | intro _ _ _ hgrounded => exact hgrounded _ hnext

theorem Grounded.exists_target (h : schema.Grounded handle) {definition : Definition}
    (hdefinition : schema.definition? handle = some definition) {reference : TypeRef}
    (hmem : reference ∈ definition.references) :
    ∃ target, schema.resolve reference = .ok target ∧ schema.Grounded target := by
  cases h with
  | intro _ hfound hresolves hgrounded =>
      obtain rfl := Option.some.inj (hfound.symm.trans hdefinition)
      obtain ⟨target, hresolve⟩ := hresolves reference hmem
      exact ⟨target, hresolve, hgrounded target ⟨_, hdefinition, reference, hmem, hresolve⟩⟩

theorem not_transGen_self_of_acc {α : Type} {relation : α → α → Prop} {a : α}
    (h : Acc (Function.swap relation) a) : ¬Relation.TransGen relation a a := by
  rw [← Relation.transGen_swap]
  replace h := h.transGen
  induction h with
  | intro a _ ih => exact fun hcycle => ih a hcycle hcycle

theorem Grounded.not_refers_self (h : schema.Grounded handle) :
    ¬Relation.TransGen schema.Refers handle handle := by
  refine not_transGen_self_of_acc ?_
  induction h with
  | intro _ _ _ _ ih => exact ⟨_, ih⟩

namespace Retains

theorem compiled (h : before.Retains after) (hcompiled : before.compiled handle = .ok type) :
    after.compiled handle = .ok type := by
  obtain ⟨node, hnode, hstatus⟩ := compiled_eq_ok_iff.mp hcompiled
  have hsettled := h.settled hnode (by simp [hstatus, TypeStatus.IsSettled])
  exact compiled_eq_ok_iff.mpr ⟨node, hsettled, hstatus⟩

/-- Nothing that a grounded type leads to can change. -/
theorem grounded (h : before.Retains after) (hgrounded : before.Grounded handle) :
    after.Grounded handle := by
  induction hgrounded with
  | @intro handle type definition hcompiled hdefinition hresolves _ ih =>
      obtain ⟨node, hnode, hstatus⟩ := compiled_eq_ok_iff.mp hcompiled
      have hkept := h.settled hnode (by simp [hstatus, TypeStatus.IsSettled])
      have hsame : after.definition? handle = some definition := by
        rw [← hdefinition, definition?, definition?, hkept, hnode]
      refine .intro (h.compiled hcompiled) hsame ?_ ?_
      · intro reference hmem
        obtain ⟨target, htarget⟩ := hresolves reference hmem
        exact ⟨target, h.resolve htarget⟩
      · rintro inner ⟨found, hfound, reference, hmem, hinner⟩
        obtain rfl : definition = found := Option.some.inj (hsame.symm.trans hfound)
        obtain ⟨target, htarget⟩ := hresolves reference hmem
        obtain rfl : target = inner := Except.ok.inj ((h.resolve htarget).symm.trans hinner)
        exact ih target ⟨definition, hdefinition, reference, hmem, htarget⟩

end Retains

namespace Extends

theorem refl (schema : Schema) : schema.Extends schema :=
  ⟨fun hnode _ => hnode, id, id, id⟩

theorem trans (h : before.Extends after) (hlast : after.Extends last) : before.Extends last := by
  exact ⟨fun hnode hsettled => hlast.settled (h.settled hnode hsettled) hsettled,
    fun hresolve => hlast.resolve (h.resolve hresolve),
    fun hrefers => hlast.refers (h.refers hrefers),
    fun hvalue => hlast.values (h.values hvalue)⟩

theorem retains (h : before.Extends after) : before.Retains after :=
  ⟨h.settled, h.resolve, h.values⟩

theorem compiled (h : before.Extends after) (hcompiled : before.compiled handle = .ok type) :
    after.compiled handle = .ok type :=
  h.retains.compiled hcompiled

theorem node?_eq_none (h : before.Extends after) (hnone : after.node? handle = none) :
    before.node? handle = none := by
  have hbefore : before.resolve (.handle handle) ≠ .ok handle := by
    intro hresolve
    simpa [Schema.resolve, hnone] using h.resolve hresolve
  cases hnode : before.node? handle with
  | none => rfl
  | some node => exact absurd (by simp [Schema.resolve, hnode]) hbefore

theorem offers {reference : TypeRef} (h : before.Extends after)
    (hoffers : before.Offers reference) : after.Offers reference := by
  obtain ⟨target, type, hresolve, hcompiled⟩ := hoffers
  exact ⟨target, type, h.resolve hresolve, h.compiled hcompiled⟩

end Extends

section Nodes

theorem node?_push (schema : Schema) (node : SchemaNode) (handle : Handle) :
    (schema.push node).2.node? handle =
      if handle.index = schema.nodes.size then some node else schema.node? handle := by
  simp [push, node?, Array.getElem?_push]

theorem index_lt_of_node? {node : SchemaNode} (h : schema.node? handle = some node) :
    handle.index < schema.nodes.size :=
  (Array.getElem?_eq_some_iff.mp h).1

theorem length_le_of_nodup {handles : List Handle} (hnodup : handles.Nodup)
    (hnodes : ∀ handle ∈ handles, ∃ node, schema.node? handle = some node) :
    handles.length ≤ schema.nodes.size := by
  have hsubset : handles.map Handle.index ⊆ List.range schema.nodes.size := by
    intro index hmem
    obtain ⟨handle, hhandle, rfl⟩ := List.mem_map.mp hmem
    obtain ⟨node, hnode⟩ := hnodes handle hhandle
    exact List.mem_range.mpr (index_lt_of_node? hnode)
  have hindexes : (handles.map Handle.index).Nodup :=
    hnodup.map fun first second heq => by
      cases first
      cases second
      exact congrArg Handle.mk heq
  simpa using (hindexes.subperm hsubset).length_le

theorem node?_push_of_node? {old : SchemaNode} (h : schema.node? handle = some old)
    (node : SchemaNode) : (schema.push node).2.node? handle = some old := by
  rw [node?_push, if_neg (Nat.ne_of_lt (index_lt_of_node? h)), h]

theorem resolve_name_eq_ok_iff {name : String} {target : Handle} :
    schema.resolve (.name name) = .ok target ↔ schema.lookup name = some target := by
  rw [resolve]
  cases schema.lookup name <;> simp

theorem resolve_handle_eq_ok_iff {target : Handle} :
    schema.resolve (.handle handle) = .ok target ↔
      target = handle ∧ (schema.node? handle).isSome := by
  rw [resolve]
  cases schema.node? handle with
  | none => simp
  | some node => simp [eq_comm]

theorem resolve_push {reference : TypeRef} {target : Handle}
    (h : schema.resolve reference = .ok target) (node : SchemaNode) :
    (schema.push node).2.resolve reference = .ok target := by
  cases reference with
  | handle handle =>
      obtain ⟨rfl, hsome⟩ := resolve_handle_eq_ok_iff.mp h
      obtain ⟨old, hold⟩ := Option.isSome_iff_exists.mp hsome
      exact resolve_handle_eq_ok_iff.mpr ⟨rfl, by simp [node?_push_of_node? hold]⟩
  | name name =>
      rw [resolve_name_eq_ok_iff, lookup, Option.map_eq_some_iff] at h
      obtain ⟨index, hindex, rfl⟩ := h
      rw [resolve_name_eq_ok_iff, lookup, push, Array.findIdx?_push, hindex]
      rfl

theorem extends_push (schema : Schema) (node : SchemaNode) :
    schema.Extends (schema.push node).2 := by
  refine ⟨fun hold _ => node?_push_of_node? hold node, fun h => resolve_push h node, ?_, id⟩
  rintro outer inner ⟨definition, hdefinition, reference, hmem, hinner⟩
  obtain ⟨old, hold, rfl⟩ := definition?_eq_some_iff.mp hdefinition
  exact ⟨_, definition?_eq_some_iff.mpr ⟨old, node?_push_of_node? hold node, rfl⟩, reference, hmem,
    resolve_push hinner node⟩

/-- Defining a value does not touch those that there are, since their names are in use. -/
theorem extends_defineValue {schema next : Schema} {name : String} {value : Value}
    (h : schema.defineValue name value = .ok next) : schema.Extends next := by
  rw [defineValue] at h
  split at h
  · contradiction
  · obtain rfl := Except.ok.inj h
    refine ⟨fun hnode _ => hnode, id, id, ?_⟩
    intro other found hfound
    rw [List.lookup_append, hfound, Option.some_or]

/-- The schema in which the node of a type is another one. -/
def withNode (schema : Schema) (handle : Handle) (node : SchemaNode) : Schema :=
  { schema with nodes := schema.nodes.setIfInBounds handle.index node }

variable {old node : SchemaNode}

theorem node?_withNode (h : schema.node? handle = some old) (other : Handle) :
    (schema.withNode handle node).node? other =
      if other = handle then some node else schema.node? other := by
  have hlt := index_lt_of_node? h
  simp only [withNode, node?, Array.getElem?_setIfInBounds]
  by_cases heq : other = handle
  · rw [if_pos (by rw [heq]), if_pos hlt, if_pos heq]
  · have hindex : handle.index ≠ other.index := by
      intro hindex
      cases other
      cases handle
      exact heq (by simpa using hindex.symm)
    rw [if_neg hindex, if_neg heq]

theorem node?_withNode_self (h : schema.node? handle = some old) (node : SchemaNode) :
    (schema.withNode handle node).node? handle = some node := by
  rw [node?_withNode h, if_pos rfl]

theorem lookup_withNode (h : schema.node? handle = some old) (hname : node.name? = old.name?)
    (name : String) : (schema.withNode handle node).lookup name = schema.lookup name := by
  have hnames : (schema.withNode handle node).nodes.map SchemaNode.name? =
      schema.nodes.map SchemaNode.name? := by
    refine Array.ext_getElem? fun index => ?_
    rw [Array.getElem?_map, Array.getElem?_map]
    have hnode : (schema.withNode handle node).node? ⟨index⟩ = _ := node?_withNode h _
    rw [node?, node?] at hnode
    rw [hnode]
    split
    · next heq =>
      subst heq
      have hold : schema.nodes[index]? = some old := h
      simp [hold, hname]
    · rfl
  have hfind (schema : Schema) : schema.lookup name =
      ((schema.nodes.map SchemaNode.name?).findIdx? (· = some name)).map Handle.mk := by
    rw [Array.findIdx?_map]
    rfl
  rw [hfind, hfind, hnames]

theorem resolve_withNode (h : schema.node? handle = some old) (hname : node.name? = old.name?)
    (reference : TypeRef) :
    (schema.withNode handle node).resolve reference = schema.resolve reference := by
  cases reference with
  | name name => rw [resolve, lookup_withNode h hname, resolve]
  | handle target =>
      simp only [resolve, node?_withNode h]
      by_cases heq : target = handle
      · simp [heq, h]
      · rw [if_neg heq]

/-- Changing what is recorded about a type that is not settled loses no compiled type if the type
keeps its name. -/
theorem retains_withNode (h : schema.node? handle = some old) (hold : ¬old.status.IsSettled)
    (hname : node.name? = old.name?) : schema.Retains (schema.withNode handle node) := by
  refine ⟨?_, ?_, id⟩
  · intro other found hfound hsettled
    rw [node?_withNode h, if_neg, hfound]
    rintro rfl
    obtain rfl : old = found := Option.some.inj (h.symm.trans hfound)
    exact hold hsettled
  · intro reference target hresolve
    rw [resolve_withNode h hname, hresolve]

/-- It loses nothing if the type also keeps all that it refers to. -/
theorem extends_withNode (h : schema.node? handle = some old) (hold : ¬old.status.IsSettled)
    (hname : node.name? = old.name?)
    (hreferences : ∀ reference ∈ old.declaration.definition.references, ∀ target,
      schema.resolve reference = .ok target →
        ∃ other ∈ node.declaration.definition.references, schema.resolve other = .ok target) :
    schema.Extends (schema.withNode handle node) := by
  have hretains := retains_withNode h hold hname
  refine ⟨hretains.settled, hretains.resolve, ?_, hretains.values⟩
  rintro outer inner ⟨definition, hdefinition, reference, hmem, hinner⟩
  simp only [Refers, resolve_withNode h hname, definition?_eq_some_iff, node?_withNode h]
  obtain ⟨found, hfound, rfl⟩ := definition?_eq_some_iff.mp hdefinition
  by_cases heq : outer = handle
  · subst heq
    obtain rfl : old = found := Option.some.inj (h.symm.trans hfound)
    obtain ⟨other, hother, htarget⟩ := hreferences reference hmem inner hinner
    exact ⟨_, ⟨node, if_pos rfl, rfl⟩, other, hother, htarget⟩
  · exact ⟨_, ⟨found, (if_neg heq).trans hfound, rfl⟩, reference, hmem, hinner⟩

end Nodes

end Schema

end Asn1

import Asn1.Proofs.MirroredCompilation

/-!
Aliases that are compiled before they are needed. Compiling an alias of a type that has been
compiled makes no difference to what is compiled later. So a chain of aliases that leads to a
compiled type can be taken to have been compiled, unless one of them has failed.
-/

namespace Asn1

open Results Schema Compile

def SchemaNode.declaredAlias (name? : Option String) (constraints : List Constraint)
    (reference : TypeRef) : SchemaNode :=
  ⟨name?, ⟨.alias reference, constraints⟩, .declared⟩

/-- What becomes of an alias with the handle when it is compiled. -/
def SchemaNode.compiledAlias (handle : Handle) (name? : Option String)
    (constraints : List Constraint) (inner : CompiledType) : SchemaNode :=
  ⟨name?, ⟨.alias (.handle inner.handle), constraints⟩,
    .compiled ⟨⟨handle, name?, constraints⟩, .alias inner⟩⟩

namespace Schema

/-- Whether no type is being compiled. -/
def IsIdle (schema : Schema) : Prop :=
  ∀ handle node, schema.node? handle = some node → node.status ≠ .validating

/-- Whether an alias of a type that has been compiled is compiled, too, and nothing else. -/
inductive CompilesAlias (schema : Schema) : Schema → Prop
  | intro {handle : Handle} {name? : Option String} {constraints : List Constraint}
    {reference : TypeRef} {inner : CompiledType}
    (hnode : schema.node? handle = some (.declaredAlias name? constraints reference))
    (hresolve : schema.resolve reference = .ok inner.handle) (hhas : schema.Has inner) :
    CompilesAlias schema
      (schema.withNode handle (.compiledAlias handle name? constraints inner))

variable {start schema next last : Schema} {place handle : Handle} {name? : Option String}
  {constraints : List Constraint} {reference : TypeRef} {inner : CompiledType}

theorem extends_declaredAlias
    (hnode : schema.node? handle = some (.declaredAlias name? constraints reference))
    (hresolve : schema.resolve reference = .ok inner.handle) (hhas : schema.Has inner) :
    schema.Extends (schema.withNode handle (.compiledAlias handle name? constraints inner)) := by
  refine extends_withNode hnode id rfl fun other hmem target htarget => ?_
  obtain rfl : other = reference := List.mem_singleton.mp hmem
  obtain rfl := Except.ok.inj (hresolve.symm.trans htarget)
  exact ⟨_, List.mem_singleton_self _, resolve_handle_of_has hhas⟩

theorem OverlooksCompiling.compiledAlias {view : SchemaView} (h : schema.OverlooksCompiling view)
    (hnode : schema.node? handle = some (.declaredAlias name? constraints reference)) :
    (schema.withNode handle (.compiledAlias handle name? constraints inner)).OverlooksCompiling
      view :=
  h.withNode hnode rfl

theorem mayCompileTo_compiledAlias
    (hnode : schema.node? handle = some (.declaredAlias name? constraints reference)) :
    schema.view.MayCompileTo
      (schema.withNode handle (.compiledAlias handle name? constraints inner)).view :=
  mayCompileTo_withNode hnode id rfl

theorem outcome_compileWithin_of_has (steps : Nat) {type : CompiledType} (h : schema.Has type) :
    (compileWithin (steps + 1) type.handle).outcome schema = (.ok type, schema) := by
  obtain ⟨node, hnode, hstatus⟩ := compiled_eq_ok_iff.mp h
  rw [outcome_compileWithin_succ, hnode]
  simp only [hstatus]

/-- If two types may still be marked, compiling an alias of a compiled type changes nothing else. -/
theorem outcome_compileWithin_alias (steps : Nat)
    (hnode : schema.node? handle = some (.declaredAlias name? constraints reference))
    (hresolve : schema.resolve reference = .ok inner.handle) (hhas : schema.Has inner) :
    (compileWithin (steps + 2) handle).outcome schema =
      (.ok ⟨⟨handle, name?, constraints⟩, .alias inner⟩,
        schema.withNode handle (.compiledAlias handle name? constraints inner)) := by
  have hmark := extends_mark hnode rfl
  have hcompile {marked : Schema} (hresolve : marked.resolve reference = .ok inner.handle)
      (hhas : marked.Has inner) :
      (compileDefinition (compileWithin (steps + 1)) (.alias reference)).outcome marked =
        (.ok (.alias (.handle inner.handle), .alias inner), marked) := by
    simp only [compileDefinition, outcome_bind, outcome_ask, hresolve,
      outcome_compileWithin_of_has steps hhas]
    rfl
  rw [outcome_compileWithin_succ, hnode]
  change (compileNode (compileWithin (steps + 1)) handle _).outcome schema = _
  have hinner := hcompile (hmark.resolve hresolve) (hmark.compiled hhas)
  simp only [outcome_compileNode, SchemaNode.declaredAlias] at hinner ⊢
  rw [hinner]
  simp only [withNode_withNode]
  rfl

/-- What schemas record about an alias that only the second one may not have compiled. -/
def RecordsAlias (place : Handle) (name? : Option String) (constraints : List Constraint)
    (reference : TypeRef) (inner : CompiledType) (node found : SchemaNode) : Prop :=
  node = .compiledAlias place name? constraints inner ∧
    (found = node ∨ found = .declaredAlias name? constraints reference)

/-- Both schemas come to the same type. There are always two types that are not marked: the alias
and the one it leads to. So the second schema does not run out of steps, either. -/
theorem mirrors_alias {marked : List Handle}
    (hanswers : AnswerAlike start (DiffersAt start place
      (RecordsAlias place name? constraints reference inner) marked))
    (hplace : start.node? place = some (.compiledAlias place name? constraints inner))
    (hresolve : start.resolve reference = .ok inner.handle) (hhas : start.Has inner)
    (hne : inner.handle ≠ place) (steps : Nat) (hnodup : marked.Nodup)
    (hsteps : start.nodes.size < steps + marked.length) :
    Mirrors (DiffersAt start place (RecordsAlias place name? constraints reference inner) marked)
      (fun _ => True) (fun _ => True) (· = ·) (compileWithin steps place)
      (compileWithin steps place) := by
  rintro left right hleft hright hdiffers - -
  have hgrows := hanswers.grows hdiffers
  obtain ⟨node, hnode, hstatus⟩ := compiled_eq_ok_iff.mp hhas
  have hfound := hgrows.settled hplace trivial
  have hinner := hgrows.settled hnode (by simp [hstatus, TypeStatus.IsSettled])
  obtain ⟨steps, rfl⟩ : ∃ rest, steps = rest + 2 := by
    have hunmarked : place ∉ inner.handle :: marked := List.not_mem_cons_of_ne_of_not_mem hne.symm
      (hdiffers.not_mem_of_ne hfound (by simp [SchemaNode.compiledAlias]))
    have hunmarked' := hdiffers.not_mem_of_ne hinner (by simp [hstatus])
    have hlength := length_le_of_nodup
      (List.nodup_cons.mpr ⟨hunmarked, List.nodup_cons.mpr ⟨hunmarked', hnodup⟩⟩)
        (List.forall_mem_cons.mpr ⟨⟨_, hplace⟩,
          List.forall_mem_cons.mpr ⟨⟨_, hnode⟩, hdiffers.exists_start⟩⟩)
    rw [List.length_cons, List.length_cons] at hlength
    exact ⟨steps - 2, by omega⟩
  have hcompile : (compileWithin (steps + 2) place).outcome left =
      (.ok ⟨⟨place, name?, constraints⟩, .alias inner⟩, left) := by
    rw [outcome_compileWithin_succ, hfound]
    rfl
  obtain ⟨hcompiling, hvalidating, _, found, hold, -, ⟨rfl, rfl | rfl⟩, rfl⟩ := id hdiffers
  · rw [withNode_self hold] at hdiffers ⊢
    rw [hcompile]
    exact .ok rfl hdiffers
  · have hresolve' := (hanswers.resolve hdiffers reference).trans (hgrows.resolve hresolve)
    have hhas' : (left.withNode place (.declaredAlias name? constraints reference)).Has inner :=
      compiled_eq_ok_iff.mpr ⟨node, (node?_withNode hold _).trans ((if_neg hne).trans hinner),
        hstatus⟩
    rw [hcompile, outcome_compileWithin_alias steps (node?_withNode_self hold _) hresolve' hhas',
      withNode_withNode, withNode_self hold]
    exact .ok rfl ⟨hcompiling, hvalidating, _, _, hold, rfl, ⟨rfl, .inl rfl⟩,
      (withNode_self hold).symm⟩

theorem answerAlike_compiledAlias
    (hnode : schema.node? place = some (.declaredAlias name? constraints reference))
    (inner : CompiledType) (hoverlooks : schema.OverlooksCompiling schema.view)
    (marked : List Handle) :
    let next := schema.withNode place (.compiledAlias place name? constraints inner)
    AnswerAlike next
      (DiffersAt next place (RecordsAlias place name? constraints reference inner) marked) := by
  apply DiffersAt.answerAlike _ _ marked (hoverlooks.compiledAlias hnode)
    (mayCompileTo_compiledAlias hnode)
  intro _
  exact not_isSettled_of_type?_view hnode id

namespace CompilesAlias

theorem leadsTo (h : schema.CompilesAlias next) (hconsistent : schema.Consistent) :
    schema.LeadsTo next ∧ next.Consistent := by
  cases h with
  | @intro handle _ _ _ _ hnode hresolve hhas =>
      obtain ⟨hleads, hafter, -⟩ := compiles_compileWithin 2 handle schema hconsistent trivial
      rw [outcome_compileWithin_alias 0 hnode hresolve hhas] at hleads hafter
      exact ⟨hleads, hafter⟩

theorem isIdle (h : schema.CompilesAlias next) (hconsistent : schema.Consistent)
    (hidle : schema.IsIdle) : next.IsIdle := by
  intro handle node hnode hstatus
  exact hidle handle node (((h.leadsTo hconsistent).1.validating hstatus).mp hnode) hstatus

/-- Whatever is compiled, it does not matter whether the alias has been compiled before. -/
theorem result_eq (h : schema.CompilesAlias next) (hconsistent : schema.Consistent)
    (hidle : schema.IsIdle) (hoverlooks : schema.OverlooksCompiling schema.view)
    (handle : Handle) :
    ((compileWithin (next.nodes.size + 1) handle).outcome next).1 =
      ((compileWithin (schema.nodes.size + 1) handle).outcome schema).1 := by
  have hnext := (h.leadsTo hconsistent).2
  have hrest := h.isIdle hconsistent hidle
  cases h with
  | @intro place name? constraints reference inner hnode hresolve hhas =>
      have hextends := extends_declaredAlias hnode hresolve hhas
      have hne : inner.handle ≠ place := by
        intro heq
        obtain ⟨found, hfound, hstatus⟩ := compiled_eq_ok_iff.mp hhas
        obtain rfl := Option.some.inj (hnode.symm.trans (heq ▸ hfound))
        cases hstatus
      have hplace := node?_withNode_self hnode (.compiledAlias place name? constraints inner)
      have hdiffers : DiffersAt
          (schema.withNode place (.compiledAlias place name? constraints inner)) place
          (RecordsAlias place name? constraints reference inner) []
          (schema.withNode place (.compiledAlias place name? constraints inner)) schema := by
        refine ⟨.initial hrest, by simp, _, _, hplace, ?_, ⟨rfl, .inr rfl⟩, ?_⟩
        · rfl
        · rw [withNode_withNode, withNode_self hnode]
      have hsize : (schema.withNode place
          (.compiledAlias place name? constraints inner)).nodes.size = schema.nodes.size :=
        Array.size_setIfInBounds
      have hanswers := answerAlike_compiledAlias hnode inner hoverlooks
      rw [← hsize]
      exact (mirrors_compileWithin hanswers (fun steps marked => mirrors_alias (hanswers marked)
        hplace (hextends.resolve hresolve) (hextends.compiled hhas) hne steps) _ .nil (by simp) _ _
          hnext hconsistent hdiffers trivial trivial).result_eq

theorem mayCompileTo (h : schema.CompilesAlias next) : schema.view.MayCompileTo next.view := by
  cases h with
  | intro hnode hresolve hhas => exact mayCompileTo_compiledAlias hnode

theorem overlooksCompiling (h : schema.CompilesAlias next)
    (hoverlooks : schema.OverlooksCompiling schema.view) : next.OverlooksCompiling next.view := by
  cases h with
  | intro hnode hresolve hhas => exact hoverlooks.withNode_view hnode id rfl rfl

theorem follow_eq (h : schema.CompilesAlias next) (origin : Handle) (count : Nat)
    (handle : Handle) : next.follow aliasTarget? origin count handle =
      schema.follow aliasTarget? origin count handle := by
  cases h with
  | @intro place name? constraints reference inner hnode hresolve hhas =>
      have hinner :=
        (extends_declaredAlias hnode hresolve hhas).resolve (resolve_handle_of_has hhas)
      have hname : (SchemaNode.compiledAlias place name? constraints inner).name? =
          (SchemaNode.declaredAlias name? constraints reference).name? :=
        rfl
      have hsame := resolve_withNode hnode hname
      induction count generalizing handle with
      | zero => rw [follow, follow, describe_withNode hnode hname]
      | succ count ih =>
          rw [follow, follow]
          rcases eq_or_ne handle place with rfl | hne
          · have hleft : schema.definition? handle = some (.alias reference) :=
              definition?_eq_some_iff.mpr ⟨_, hnode, rfl⟩
            have hright : (schema.withNode handle (.compiledAlias handle name? constraints
                inner)).definition? handle = some (.alias (.handle inner.handle)) :=
              definition?_eq_some_iff.mpr ⟨_, node?_withNode_self hnode _, rfl⟩
            simp only [hleft, hright, Option.bind_some, aliasTarget?, hresolve, hinner]
            exact ih inner.handle
          · rw [definition?, node?_withNode hnode, if_neg hne, ← definition?]
            cases (schema.definition? handle).bind aliasTarget? with
            | none => rfl
            | some target =>
                simp only [hsame]
                cases schema.resolve target with
                | error error => rfl
                | ok found => exact ih found

theorem withNode (h : schema.CompilesAlias next) {old new : SchemaNode}
    (hnode : schema.node? handle = some old) (hdeclared : old.status = .declared)
    (halias : ∀ reference, old.declaration.definition ≠ .alias reference)
    (hname : new.name? = old.name?) :
    next.node? handle = some old ∧
      (schema.withNode handle new).CompilesAlias (next.withNode handle new) := by
  cases h with
  | @intro place name? constraints reference inner hplace hresolve hhas =>
      have hne : handle ≠ place := by
        rintro rfl
        obtain rfl := Option.some.inj (hnode.symm.trans hplace)
        exact halias reference rfl
      have hretains : schema.Retains (schema.withNode handle new) :=
        retains_withNode hnode (by simp [hdeclared, TypeStatus.IsSettled]) hname
      refine ⟨by rw [node?_withNode hplace, if_neg hne, hnode], ?_⟩
      rw [withNode_comm schema hne]
      exact .intro (by rw [node?_withNode hnode, if_neg hne.symm, hplace])
        (hretains.resolve hresolve) (hretains.compiled hhas)

end CompilesAlias

/-- Whether aliases have been compiled one after the other, each one after what it leads to. -/
def CompilesAliases : Schema → Schema → Prop :=
  Relation.ReflTransGen CompilesAlias

namespace CompilesAliases

theorem leadsTo (h : schema.CompilesAliases last) (hconsistent : schema.Consistent) :
    schema.LeadsTo last ∧ last.Consistent := by
  induction h with
  | refl => exact ⟨.refl schema, hconsistent⟩
  | tail _ hnext ih =>
      obtain ⟨hleads, hafter⟩ := hnext.leadsTo ih.2
      exact ⟨ih.1.trans hleads, hafter⟩

theorem isIdle (h : schema.CompilesAliases last) (hconsistent : schema.Consistent)
    (hidle : schema.IsIdle) : last.IsIdle := by
  induction h with
  | refl => exact hidle
  | tail hsteps hnext ih => exact hnext.isIdle (leadsTo hsteps hconsistent).2 ih

theorem mayCompileTo (h : schema.CompilesAliases last) :
    schema.view.MayCompileTo last.view := by
  induction h with
  | refl => exact .refl _
  | tail _ hnext ih => exact ih.trans hnext.mayCompileTo

theorem overlooksCompiling (h : schema.CompilesAliases last)
    (hoverlooks : schema.OverlooksCompiling schema.view) : last.OverlooksCompiling last.view := by
  induction h with
  | refl => exact hoverlooks
  | tail _ hnext ih => exact hnext.overlooksCompiling ih

theorem result_eq (h : schema.CompilesAliases last) (hconsistent : schema.Consistent)
    (hidle : schema.IsIdle) (hoverlooks : schema.OverlooksCompiling schema.view)
    (handle : Handle) :
    ((compileWithin (last.nodes.size + 1) handle).outcome last).1 =
      ((compileWithin (schema.nodes.size + 1) handle).outcome schema).1 := by
  induction h with
  | refl => rfl
  | tail hsteps hnext ih =>
      rw [hnext.result_eq (leadsTo hsteps hconsistent).2 (isIdle hsteps hconsistent hidle)
        (overlooksCompiling hsteps hoverlooks), ih]

theorem follow_eq (h : schema.CompilesAliases last) (origin : Handle) (count : Nat)
    (handle : Handle) :
    last.follow aliasTarget? origin count handle =
      schema.follow aliasTarget? origin count handle := by
  induction h with
  | refl => rfl
  | tail _ hnext ih => rw [hnext.follow_eq, ih]

theorem withNode (h : schema.CompilesAliases last) {old new : SchemaNode}
    (hnode : schema.node? handle = some old) (hdeclared : old.status = .declared)
    (halias : ∀ reference, old.declaration.definition ≠ .alias reference)
    (hname : new.name? = old.name?) :
    last.node? handle = some old ∧
      (schema.withNode handle new).CompilesAliases (last.withNode handle new) := by
  induction h with
  | refl => exact ⟨hnode, .refl⟩
  | tail _ hnext ih =>
      obtain ⟨hkept, hsame⟩ := hnext.withNode ih.1 hdeclared halias hname
      exact ⟨hkept, ih.2.tail hsame⟩

end CompilesAliases

/-- Whether a type is declared to be another one. -/
def IsAliasOf (schema : Schema) (outer inner : Handle) : Prop :=
  ∃ reference, schema.definition? outer = some (.alias reference) ∧
    schema.resolve reference = .ok inner

theorem CompilesAliases.skipAliases_eq (h : schema.CompilesAliases last)
    (hconsistent : schema.Consistent) {base : Handle}
    (hskip : schema.skipAliases handle = .ok base) : last.skipAliases handle = .ok base := by
  obtain ⟨hsome, hfollow⟩ := skipAliases_eq_ok_iff.mp hskip
  obtain ⟨node, hnode⟩ := Option.isSome_iff_exists.mp hsome
  have hextends := (h.leadsTo hconsistent).1.toExtends
  refine skipAliases_eq_ok_iff.mpr ⟨?_, (h.follow_eq handle maxChain handle).trans hfollow⟩
  exact isSome_node?_of_resolve (hextends.resolve (resolve_handle_eq_ok_iff.mpr ⟨rfl, hsome⟩))

end Schema

end Asn1

import Asn1.Proofs.CompilationRuns
import Asn1.Proofs.SettlingCalls

namespace Asn1

open Results Schema Compile

namespace Schema

/-- Whether a type is one that `start` has and that is compiled in `final`, where the constraints
make no difference. -/
structure IsShared (start final : Schema) (handle : Handle) : Prop where
  present : (start.node? handle).isSome = true
  isDone : final.IsDone handle
  overlooks : start.OverlooksCompiling start.view

/-- Whether a schema is what `start` has become, and agrees with `final` on the types that are
compiled there. The types that are being compiled are those in the list. -/
structure Follows (start final : Schema) (marked : List Handle) (schema : Schema) : Prop where
  grows : start.GrowsInto schema
  upTo_eq : ∀ {handle type other}, (start.node? handle).isSome = true →
    final.compiled handle = .ok type → schema.compiled handle = .ok other →
      type.upTo start.nodes.size = other.upTo start.nodes.size
  not_hasFailed : ∀ {handle}, IsShared start final handle → ¬schema.HasFailed handle
  mem_marked_iff : ∀ handle, handle ∈ marked ↔
    ∃ node, schema.node? handle = some node ∧ node.status = .validating

variable {start final schema : Schema} {marked : List Handle} {handle : Handle}
  {node new : SchemaNode}

namespace Follows

theorem initial (hextends : start.Extends final)
    (hrest : ∀ handle node, start.node? handle = some node → node.status ≠ .validating) :
    Follows start final [] start := by
  refine ⟨.refl start, ?_, ?_, ?_⟩
  · intro handle type other _ htype hother
    rw [Except.ok.inj (htype.symm.trans (hextends.compiled hother))]
  · rintro handle ⟨-, ⟨type, htype⟩, -⟩ ⟨node, hnode, hfailed⟩
    obtain ⟨found, hfound, hstatus⟩ := compiled_eq_ok_iff.mp htype
    have hkept := hextends.settled hnode (by simp [hfailed, TypeStatus.IsSettled])
    obtain rfl := Option.some.inj (hkept.symm.trans hfound)
    simp [hfailed] at hstatus
  · intro handle
    simp only [List.not_mem_nil, false_iff]
    rintro ⟨node, hnode, hmarked⟩
    exact hrest handle node hnode hmarked

theorem push (h : Follows start final marked schema) (hnode : node.IsAddedTag) :
    Follows start final marked (schema.push node).2 := by
  obtain ⟨-, type, hstatus, -⟩ := id hnode
  have hold {other : Handle} {found : SchemaNode} (hstart : (start.node? other).isSome = true)
      (hfound : (schema.push node).2.node? other = some found) :
      schema.node? other = some found := by
    obtain ⟨first, hfirst⟩ := Option.isSome_iff_exists.mp hstart
    obtain ⟨old, hold, -⟩ := h.grows.becomes hfirst
    rw [node?_push_of_node? hold] at hfound
    rw [hold, hfound]
  refine ⟨h.grows.push hnode, ?_, ?_, ?_⟩
  · intro other type found hstart htype hfound
    obtain ⟨foundNode, hnode, hcompiled⟩ := compiled_eq_ok_iff.mp hfound
    exact h.upTo_eq hstart htype (compiled_eq_ok_iff.mpr ⟨_, hold hstart hnode, hcompiled⟩)
  · rintro other hshared ⟨found, hfound, hfailed⟩
    exact h.not_hasFailed hshared ⟨found, hold hshared.present hfound, hfailed⟩
  · intro other
    rw [h.mem_marked_iff, node?_push]
    split
    · next hindex =>
      have hnone : schema.node? other = none := Array.getElem?_eq_none_iff.mpr hindex.ge
      simp [hnone, hstatus]
    · rfl

/-- What becomes of the node of one type has to be right for that type only. -/
theorem withNode {marked' : List Handle} (h : Follows start final marked schema)
    (hnode : schema.node? handle = some node)
    (hgrows : start.GrowsInto (schema.withNode handle new))
    (hupTo : ∀ {type other}, final.compiled handle = .ok type → new.status = .compiled other →
      type.upTo start.nodes.size = other.upTo start.nodes.size)
    (hfailed : IsShared start final handle → new.status ≠ .failed)
    (hmarked : ∀ other, other ∈ marked' ↔
      if other = handle then new.status = .validating else other ∈ marked) :
    Follows start final marked' (schema.withNode handle new) := by
  refine ⟨hgrows, ?_, ?_, ?_⟩
  · intro other type found hstart htype hfound
    obtain ⟨foundNode, hother, hcompiled⟩ := compiled_eq_ok_iff.mp hfound
    rw [node?_withNode hnode] at hother
    split at hother
    · next heq =>
      subst heq
      obtain rfl := Option.some.inj hother
      exact hupTo htype hcompiled
    · exact h.upTo_eq hstart htype (compiled_eq_ok_iff.mpr ⟨_, hother, hcompiled⟩)
  · rintro other hshared ⟨found, hfound, hstatus⟩
    rw [node?_withNode hnode] at hfound
    split at hfound
    · next heq =>
      subst heq
      obtain rfl := Option.some.inj hfound
      exact hfailed hshared hstatus
    · exact h.not_hasFailed hshared ⟨found, hfound, hstatus⟩
  · intro other
    rw [hmarked, node?_withNode hnode]
    split
    · simp
    · exact h.mem_marked_iff other

theorem exists_start (h : Follows start final marked schema)
    (hnode : schema.node? handle = some node) (hstatus : ∀ type, node.status ≠ .compiled type) :
    ∃ old, start.node? handle = some old ∧ Becomes start schema handle old node := by
  cases hstart : start.node? handle with
  | none =>
      obtain ⟨-, type, htype, -⟩ := h.grows.added hstart hnode
      exact absurd htype (hstatus type)
  | some old =>
      obtain ⟨found, hfound, hbecomes⟩ := h.grows.becomes hstart
      obtain rfl := Option.some.inj (hnode.symm.trans hfound)
      exact ⟨old, rfl, hbecomes⟩

theorem node?_eq_of_declared (h : Follows start final marked schema)
    (hnode : schema.node? handle = some node) (hdeclared : node.status = .declared) :
    start.node? handle = some node ∧ handle ∉ marked := by
  constructor
  · obtain ⟨old, hold, hbecomes⟩ := h.exists_start hnode (by simp [hdeclared])
    cases hbecomes with
    | same => exact hold
    | marked _ => cases hdeclared
    | failed _ => cases hdeclared
    | compiled _ _ _ => cases hdeclared
  · intro hmem
    obtain ⟨found, hfound, hstatus⟩ := (h.mem_marked_iff handle).mp hmem
    obtain rfl := Option.some.inj (hnode.symm.trans hfound)
    cases hdeclared.symm.trans hstatus

theorem mark (h : Follows start final marked schema) (hnode : schema.node? handle = some node)
    (hdeclared : node.status = .declared) :
    Follows start final (handle :: marked)
      (schema.withNode handle { node with status := .validating }) := by
  obtain ⟨hstart, -⟩ := h.node?_eq_of_declared hnode hdeclared
  refine h.withNode hnode
    (h.grows.withNode hstart hnode (extends_mark hnode hdeclared) (.marked hdeclared)) ?_ ?_ ?_
  · rintro type other - ⟨⟩
  · simp
  · intro other
    rw [List.mem_cons]
    split
    · next heq => simp [heq]
    · next hne => simp [hne]

theorem settle (h : Follows start final (handle :: marked) schema)
    (hnode : schema.node? handle = some { node with status := .validating })
    (hgrows : start.GrowsInto (schema.withNode handle new)) (hnot : handle ∉ marked)
    (hsettled : new.status ≠ .validating)
    (hupTo : ∀ {type other}, final.compiled handle = .ok type → new.status = .compiled other →
      type.upTo start.nodes.size = other.upTo start.nodes.size)
    (hfailed : IsShared start final handle → new.status ≠ .failed) :
    Follows start final marked (schema.withNode handle new) := by
  refine h.withNode hnode hgrows hupTo hfailed fun other => ?_
  split
  · next heq => simp [heq, hnot, hsettled]
  · next hne => simp [hne]

theorem length_marked_le (h : Follows start final marked schema) (hnodup : marked.Nodup) :
    marked.length ≤ start.nodes.size := by
  refine length_le_of_nodup hnodup fun handle hhandle => ?_
  obtain ⟨node, hnode, hstatus⟩ := (h.mem_marked_iff handle).mp hhandle
  obtain ⟨old, hold, -⟩ := h.exists_start hnode (by simp [hstatus])
  exact ⟨old, hold⟩

end Follows

/-- Whether a schema has come from one whose declarations are closed by compiling types. -/
structure ComesFrom (final start : Schema) : Prop extends start.GrowsInto final where
  consistent_start : start.Consistent
  closed : start.IsClosed
  consistent : final.Consistent

/-- Whether no type that is marked can be in the way of another one. If a marked type is compiled in
`final`, then so is the other one, and its references do not lead back. -/
def IsAhead (start final : Schema) (marked : List Handle) (handle : Handle) : Prop :=
  ∀ outer ∈ marked, IsShared start final outer →
    IsShared start final handle ∧ ¬Relation.ReflTransGen final.Refers handle outer

theorem IsAhead.not_mem (h : IsAhead start final marked handle)
    (hshared : IsShared start final handle) : handle ∉ marked := by
  intro hmem
  exact (h handle hmem hshared).2 .refl

namespace ComesFrom

variable (h : final.ComesFrom start)

include h

theorem agree (hfollows : Follows start final marked schema) (hconsistent : schema.Consistent) :
    Concur start final schema :=
  ⟨h.consistent_start, h.consistent, hconsistent, h.toGrowsInto, hfollows.grows, hfollows.upTo_eq⟩

theorem exists_elaborates {type : CompiledType} (hnode : start.node? handle = some node)
    (hdeclared : node.status = .declared) (hcompiled : final.compiled handle = .ok type) :
    ∃ definition form, type = ⟨⟨handle, node.name?, node.declaration.constraints⟩, form⟩ ∧
      final.definition? handle = some definition ∧
        Elaborates start final node.declaration.definition definition form := by
  obtain ⟨found, hfound, hstatus⟩ := compiled_eq_ok_iff.mp hcompiled
  obtain ⟨_, hsame, hbecomes⟩ := h.becomes hnode
  obtain rfl := Option.some.inj (hfound.symm.trans hsame)
  cases hbecomes with
  | same => simp [hdeclared] at hstatus
  | marked _ => cases hstatus
  | failed _ => cases hstatus
  | @compiled definition form _ helaborates _ =>
      obtain rfl := TypeStatus.compiled.inj hstatus
      exact ⟨definition, form, rfl, definition?_eq_some_iff.mpr ⟨_, hfound, rfl⟩, helaborates⟩

/-- All that a type refers to is compiled where the type is. -/
theorem canCall_of_isShared (hnode : start.node? handle = some node)
    (hdeclared : node.status = .declared) (hshared : IsShared start final handle) :
    ∀ reference ∈ node.declaration.definition.references,
      CanCall final (fun target => final.Refers handle target ∧ IsShared start final target)
        reference := by
  obtain ⟨-, ⟨type, hcompiled⟩, hoverlooks⟩ := hshared
  obtain ⟨definition, form, -, hdefinition, helaborates⟩ :=
    h.exists_elaborates hnode hdeclared hcompiled
  intro reference hmem
  obtain ⟨target, inner, hresolve, hinner⟩ := helaborates.offers reference hmem
  obtain ⟨other, hother, htarget⟩ :=
    helaborates.compilesTo.references reference hmem target hresolve
  have hknows := h.closed handle _ (definition?_eq_some_iff.mpr ⟨node, hnode, rfl⟩) reference hmem
  exact ⟨target, hresolve, ⟨definition, hdefinition, other, hother, htarget⟩,
    isSome_node?_of_resolve ((h.resolve_iff hknows).mp hresolve), ⟨inner, hinner⟩, hoverlooks⟩

/-- The types that a compiled type refers to do not lead back to it. -/
theorem isAhead_of_refers {inner : Handle} (hahead : IsAhead start final marked handle)
    (hdone : final.IsDone handle) (hrefers : final.Refers handle inner)
    (hshared : IsShared start final inner) : IsAhead start final (handle :: marked) inner := by
  refine List.forall_mem_cons.mpr ⟨fun _ => ⟨hshared, fun hback => ?_⟩, ?_⟩
  · obtain ⟨type, hcompiled⟩ := hdone
    exact (h.consistent _ _ hcompiled).grounded.not_refers_self (.head' hrefers hback)
  · intro outer hmem houter
    exact ⟨hshared, fun hback => (hahead outer hmem houter).2 (.head hrefers hback)⟩

end ComesFrom

/-- A type that is not compiled in `final` can be in the way of any other. -/
theorem isAhead_of_not_isShared {inner : Handle} (hahead : IsAhead start final marked handle)
    (hnot : ¬IsShared start final handle) : IsAhead start final (handle :: marked) inner := by
  refine List.forall_mem_cons.mpr ⟨fun hshared => absurd hshared hnot, ?_⟩
  intro outer hmem houter
  exact absurd (hahead outer hmem houter).1 hnot

end Schema

section Compiling

variable {start final : Schema} {marked : List Handle} {handle : Handle}

/-- Compiling a type records what it has been compiled to elsewhere, up to handles. It fails only if
the type has not been compiled there. -/
theorem runs_compileNode (h : final.ComesFrom start) {compileType : TypeCompiler}
    {node : SchemaNode}
    (hcalls : RunsAlong start final (Follows start final (handle :: marked))
      (IsShared start final handle)
      (fun target => final.Refers handle target ∧ IsShared start final target) compileType) :
    Runs (Follows start final marked)
      (fun schema => schema.node? handle = some node ∧ node.status = .declared)
      (IsShared start final handle) (compileNode compileType handle node) := by
  rintro before hconsistent hfollows ⟨hnode, hdeclared⟩
  obtain ⟨hstart, hnot⟩ := hfollows.node?_eq_of_declared hnode hdeclared
  have hknows := h.closed handle _ (definition?_eq_some_iff.mpr ⟨node, hstart, rfl⟩)
  obtain ⟨hkept, hsucceeds⟩ := hcalls.runs_compileDefinition hknows
    (h.canCall_of_isShared hstart hdeclared) (fun hshared => by
      obtain ⟨type, hcompiled⟩ := hshared.isDone
      obtain ⟨definition, form, -, -, helaborates⟩ :=
        h.exists_elaborates hstart hdeclared hcompiled
      exact ⟨definition, form, helaborates⟩) _ (hconsistent.mark hnode hdeclared)
        (hfollows.mark hnode hdeclared)
        (hfollows.grows.toExtends.trans (extends_mark hnode hdeclared))
  have hcompiles :=
    compilesNode hcalls.compiles hfollows.grows.toExtends hconsistent hnode hdeclared
  generalize (compileNode compileType handle node).outcome before = result at hcompiles ⊢
  cases hcompiles with
  | fail houtcome hleads hafter hsame =>
    rw [houtcome] at hkept hsucceeds
    have hnotShared : ¬IsShared start final handle := by
      intro hshared
      obtain ⟨_, hok⟩ := hsucceeds hshared
      cases hok
    have hgrows := hkept.grows.withNode hstart hsame (extends_fail hsame) (.failed hdeclared)
    refine ⟨hkept.settle hsame hgrows hnot (by simp) ?_ fun hshared => absurd hshared hnotShared,
      fun hshared => absurd hshared hnotShared⟩
    rintro type other - ⟨⟩
  | complete houtcome hleads hafter hsame helaborates =>
    rw [houtcome] at hkept
    have hcomplete := extends_complete hsame helaborates
    have hlayout := hkept.grows.knows_elaborated h.consistent_start hafter hknows helaborates
    have hgrows := hkept.grows.withNode hstart hsame hcomplete
      (.compiled hdeclared (persists_elaborates _ _ _ _ _ _ hcomplete helaborates) hlayout)
    refine ⟨hkept.settle hsame hgrows hnot (by simp) ?_ (by simp), fun _ => ⟨_, rfl⟩⟩
    rintro type other htype ⟨⟩
    obtain ⟨definition', form', rfl, -, helaborates'⟩ :=
      h.exists_elaborates hstart hdeclared htype
    rw [CompiledType.upTo_mk, CompiledType.upTo_mk,
      (h.agree hkept hafter).form_eq hknows helaborates' helaborates]

/-- Compiling the types that a marked type refers to: each of them has been compiled already, or is
not marked. -/
theorem runs_callWithin (h : final.ComesFrom start) {steps : Nat}
    (hcompiled : ∀ target, IsAhead start final (handle :: marked) target →
      Runs (Follows start final (handle :: marked)) (fun _ => True) (IsShared start final target)
        (compileWithin steps target))
    (hsteps : 0 < steps)
    (hahead : IsAhead start final marked handle) (target : Handle) :
    Runs (Follows start final (handle :: marked))
      (fun schema => IsShared start final handle →
        (final.Refers handle target ∧ IsShared start final target) ∨ schema.IsDone target)
      (IsShared start final handle) (compileWithin steps target) := by
  intro before hconsistent hfollows hready
  by_cases hshared : IsShared start final handle
  · rcases hready hshared with ⟨hrefers, htarget⟩ | ⟨type, htype⟩
    · have hinner := h.isAhead_of_refers hahead hshared.isDone hrefers htarget
      obtain ⟨hkept, hsucceeds⟩ := hcompiled target hinner before hconsistent hfollows trivial
      exact ⟨hkept, fun _ => hsucceeds htarget⟩
    · obtain ⟨found, hfound, hstatus⟩ := compiled_eq_ok_iff.mp htype
      obtain ⟨rest, rfl⟩ := Nat.exists_eq_add_one.mpr hsteps
      rw [outcome_compileWithin_succ, hfound]
      simp only [hstatus]
      exact ⟨hfollows, fun _ => ⟨type, rfl⟩⟩
  · have hinner : IsAhead start final (handle :: marked) target :=
      isAhead_of_not_isShared hahead hshared
    exact ⟨(hcompiled target hinner before hconsistent hfollows trivial).1,
      fun hcondition => absurd hcondition hshared⟩

/-- Types that are being compiled are marked, so that there are steps left for the others. -/
theorem runs_compileWithin (h : final.ComesFrom start) (steps : Nat) (hnodup : marked.Nodup)
    (hsteps : start.nodes.size < steps + marked.length)
    (hahead : IsAhead start final marked handle) :
    Runs (Follows start final marked) (fun _ => True) (IsShared start final handle)
      (compileWithin steps handle) := by
  induction steps generalizing marked handle with
  | zero =>
      intro before _ hfollows _
      have hle := hfollows.length_marked_le hnodup
      omega
  | succ steps ih =>
      refine Runs.bind Keeps.get Runs.get fun schema => ?_
      cases hnode : schema.node? handle with
      | none =>
          refine Runs.throw _ ?_
          rintro _ - hfollows ⟨rfl, -⟩ ⟨hpresent, -, -⟩
          obtain ⟨old, hold⟩ := Option.isSome_iff_exists.mp hpresent
          obtain ⟨found, hfound, -⟩ := hfollows.grows.becomes hold
          cases hnode.symm.trans hfound
      | some node =>
          simp only
          cases hstatus : node.status with
          | compiled type => exact Runs.pure type
          | failed =>
              refine Runs.throw _ ?_
              rintro _ - hfollows ⟨rfl, -⟩ hshared
              exact hfollows.not_hasFailed hshared ⟨node, hnode, hstatus⟩
          | validating =>
              refine Runs.throw _ ?_
              rintro _ - hfollows ⟨rfl, -⟩ hshared
              exact hahead.not_mem hshared
                ((hfollows.mem_marked_iff handle).mpr ⟨node, hnode, hstatus⟩)
          | declared =>
              rintro before hconsistent hfollows ⟨rfl, -⟩
              obtain ⟨hstart, hnot⟩ := hfollows.node?_eq_of_declared hnode hstatus
              have hmarks : (handle :: marked).Nodup := List.nodup_cons.mpr ⟨hnot, hnodup⟩
              have hle := (hfollows.mark hnode hstatus).length_marked_le hmarks
              have hcalls :=
                runs_callWithin h (fun target => ih hmarks (by grind)) (by grind) hahead
              exact runs_compileNode h ⟨fun hconsistent hfollows => h.agree hfollows hconsistent,
                IsShared.overlooks, Follows.push, compiles_compileWithin steps, hcalls⟩ schema
                  hconsistent hfollows ⟨hnode, hstatus⟩

end Compiling

namespace Schema

variable {start final schema : Schema} {handle : Handle} {node : SchemaNode}

section Orders

variable {calls others : List Call}

/-- Compiling a type keeps what has been compiled elsewhere. -/
theorem ComesFrom.follows_compile (h : final.ComesFrom start) (hconsistent : schema.Consistent)
    (hfollows : Follows start final [] schema) (handle : Handle) :
    Follows start final [] ((Schema.compile handle).outcome schema).2 := by
  have hsteps := hfollows.grows.size_le
  rw [outcome_compile]
  exact (runs_compileWithin h _ .nil (by rw [List.length_nil]; omega)
    (List.forall_mem_nil _) schema hconsistent hfollows trivial).1

theorem ComesFrom.follows_compileEach (h : final.ComesFrom start) (hconsistent : schema.Consistent)
    (hfollows : Follows start final [] schema) (indexes : List Nat) :
    Follows start final [] ((compileEach indexes).outcome schema).2 := by
  induction indexes generalizing schema with
  | nil => exact hfollows
  | cons index rest ih =>
      have hnext := h.follows_compile hconsistent hfollows ⟨index⟩
      obtain ⟨-, hafter, -⟩ := keeps_compile ⟨index⟩ schema hconsistent trivial
      rw [outcome_compileEach_cons]
      rcases hcompile : (Schema.compile ⟨index⟩).outcome schema with ⟨_ | _, after⟩
      · rw [hcompile] at hnext
        exact hnext
      · rw [hcompile] at hnext hafter
        exact ih hafter hnext

theorem ComesFrom.follows_perform (h : final.ComesFrom start) (hconsistent : schema.Consistent)
    (hfollows : Follows start final [] schema) {call : Call} (hcall : call.IsCompiling) :
    Follows start final [] (schema.perform call) := by
  cases call with
  | compile handle => exact h.follows_compile hconsistent hfollows handle
  | compileAll =>
      exact h.follows_compileEach hconsistent hfollows (List.range schema.nodes.size)
  | _ => exact hcall.elim

theorem ComesFrom.follows_run (h : final.ComesFrom start) (hreachable : schema.Reachable)
    (hfollows : Follows start final [] schema) (hcalls : ∀ call ∈ calls, call.IsCompiling) :
    Follows start final [] (schema.run calls) := by
  induction calls generalizing schema with
  | nil => exact hfollows
  | cons call rest ih =>
      obtain ⟨hcall, hcalls⟩ := List.forall_mem_cons.mp hcalls
      exact ih (hreachable.perform call)
        (h.follows_perform hreachable.consistent hfollows hcall) hcalls

theorem Reachable.follows_start (h : schema.Reachable) (hextends : schema.Extends final) :
    Follows schema final [] schema := by
  refine .initial hextends ?_
  intro _ _
  exact h.ne_validating

/-- Any compilation comes to a schema that others can be compared with. -/
theorem Reachable.comesFrom_run (h : schema.Reachable) (hclosed : schema.IsClosed)
    (hcalls : ∀ call ∈ calls, call.IsCompiling) : (schema.run calls).ComesFrom schema := by
  have hself : schema.ComesFrom schema := ⟨.refl schema, h.consistent, hclosed, h.consistent⟩
  have hfollows := hself.follows_run h (h.follows_start (.refl schema)) hcalls
  exact ⟨hfollows.grows, h.consistent, hclosed, (h.run calls).1.consistent⟩

theorem Reachable.follows_run (h : schema.Reachable) (hclosed : schema.IsClosed)
    (hcalls : ∀ call ∈ calls, call.IsCompiling) (hothers : ∀ call ∈ others, call.IsCompiling) :
    Follows schema (schema.run others) [] (schema.run calls) := by
  exact (h.comesFrom_run hclosed hothers).follows_run h
    (h.follows_start (h.run others).2.toExtends) hcalls

/-- What compiling types adds just puts a tag on another type, as automatic tagging does. -/
theorem Reachable.isAddedTag_of_run (h : schema.Reachable) (hclosed : schema.IsClosed)
    (hcalls : ∀ call ∈ calls, call.IsCompiling) (hnew : schema.nodes.size ≤ handle.index)
    {node : SchemaNode} (hnode : (schema.run calls).node? handle = some node) :
    node.IsAddedTag :=
  (h.comesFrom_run hclosed hcalls).added (Array.getElem?_eq_none hnew) hnode

end Orders

end Schema

end Asn1

import Asn1.Proofs.CompilationProgress

/-!
Steps that are taken side by side, each in a schema of its own. As long as the two schemas answer
alike whatever a step asks, both steps fail with the same error or give the same result. Schemas
that differ in what is recorded about one type only are such schemas.
-/

namespace Asn1

open Results Schema

namespace Compile

variable {α β γ δ : Type}

/-- Whether two steps have come to the same: both have failed with the same error, or their results
and the schemas that they leave behind are related. -/
inductive Mirrored (related : Schema → Schema → Prop) (same : α → β → Prop) :
    Except SchemaError α × Schema → Except SchemaError β × Schema → Prop
  | ok {a : α} {b : β} {after last : Schema} (hsame : same a b) (hrelated : related after last) :
    Mirrored related same (.ok a, after) (.ok b, last)
  | error (error : SchemaError) (after last : Schema) :
    Mirrored related same (.error error, after) (.error error, last)

theorem Mirrored.result_eq {related : Schema → Schema → Prop}
    {first second : Except SchemaError α × Schema} (h : Mirrored related (· = ·) first second) :
    first.1 = second.1 := by
  cases h with
  | ok hsame _ => exact congrArg Except.ok hsame
  | error => rfl

/-- Whether two steps come to the same from any two consistent schemas that are related, the first
of which has the property `pre` and the second one `pre'`. -/
def Mirrors (related : Schema → Schema → Prop) (pre pre' : Schema → Prop) (same : α → β → Prop)
    (step : Compile α) (other : Compile β) : Prop :=
  ∀ left right, left.Consistent → right.Consistent → related left right → pre left → pre' right →
    Mirrored related same (step.outcome left) (other.outcome right)

namespace Mirrors

variable {related : Schema → Schema → Prop} {pre pre' earlier earlier' : Schema → Prop}
  {same : α → β → Prop} {last : γ → δ → Prop} {step : Compile α} {other : Compile β}

theorem pure {a : α} {b : β} (h : same a b) : Mirrors related pre pre' same (pure a) (pure b) := by
  intro _ _ _ _ hrelated _ _
  exact .ok h hrelated

theorem throw (error : SchemaError) :
    Mirrors related pre pre' same (throw error : Compile α) (throw error) := by
  intro left right _ _ _ _ _
  exact .error error left right

theorem ask {question question' : Schema → Except SchemaError α}
    (h : ∀ left right, left.Consistent → right.Consistent → related left right → pre left →
      pre' right → question' right = question left) :
    Mirrors related pre pre' (· = ·) (ask question) (ask question') := by
  intro left right hleft hright hrelated hpre hpre'
  rw [outcome_ask, outcome_ask, h left right hleft hright hrelated hpre hpre']
  cases question left with
  | ok a => exact .ok rfl hrelated
  | error error => exact .error error left right

theorem refuse (fault? : Option SchemaError) :
    Mirrors related pre pre' (· = ·) (refuse fault?) (refuse fault?) := by
  cases fault? with
  | none => exact pure rfl
  | some error => exact throw error

theorem imp (h : Mirrors related pre pre' same step other)
    (hpre : ∀ schema, earlier schema → pre schema)
    (hpre' : ∀ schema, earlier' schema → pre' schema) :
    Mirrors related earlier earlier' same step other := by
  intro left right hleft hright hrelated hbefore hbefore'
  exact h left right hleft hright hrelated (hpre left hbefore) (hpre' right hbefore')

theorem anywhere (h : Mirrors related (fun _ => True) (fun _ => True) same step other) :
    Mirrors related pre pre' same step other := by
  apply h.imp (fun _ _ => trivial)
  intro _ _
  exact trivial

theorem assume (fact : Prop)
    (hfact : ∀ left right, left.Consistent → related left right → pre left → fact)
    (h : fact → Mirrors related pre pre' same step other) :
    Mirrors related pre pre' same step other := by
  intro left right hleft hright hrelated hpre hpre'
  exact h (hfact left right hleft hrelated hpre) left right hleft hright hrelated hpre hpre'

theorem bind {post : α → Schema → Prop} {post' : β → Schema → Prop} {next : α → Compile γ}
    {next' : β → Compile δ} (hkeeps : Keeps pre step post) (hkeeps' : Keeps pre' other post')
    (h : Mirrors related pre pre' same step other)
    (hnext : ∀ a b, same a b → Mirrors related (post a) (post' b) last (next a) (next' b)) :
    Mirrors related pre pre' last (step >>= next) (other >>= next') := by
  intro left right hleft hright hrelated hpre hpre'
  obtain ⟨-, hafter, hresult⟩ := hkeeps left hleft hpre
  obtain ⟨-, hafter', hresult'⟩ := hkeeps' right hright hpre'
  have hmirrored := h left right hleft hright hrelated hpre hpre'
  rw [outcome_bind, outcome_bind]
  generalize step.outcome left = first at hmirrored hafter hresult
  generalize other.outcome right = second at hmirrored hafter' hresult'
  cases hmirrored with
  | ok hsame hrelated =>
      exact hnext _ _ hsame _ _ hafter hafter' hrelated (hresult _ rfl) (hresult' _ rfl)
  | error error after last => exact .error error after last

theorem bind_same {post post' : α → Schema → Prop} {next : α → Compile γ} {next' : α → Compile δ}
    {other : Compile α} (hkeeps : Keeps pre step post) (hkeeps' : Keeps pre' other post')
    (h : Mirrors related pre pre' (· = ·) step other)
    (hnext : ∀ a, Mirrors related (post a) (post' a) last (next a) (next' a)) :
    Mirrors related pre pre' last (step >>= next) (other >>= next') := by
  apply bind hkeeps hkeeps' h
  intro a _ heq
  exact heq ▸ hnext a

/-- A result that is not used can still be what the steps that follow depend on. -/
theorem discard_bind {post post' : α → Schema → Prop} {next : Unit → Compile γ}
    {next' : Unit → Compile δ} {other : Compile α} (hkeeps : Keeps pre step post)
    (hkeeps' : Keeps pre' other post') (h : Mirrors related pre pre' (· = ·) step other)
    (hnext : ∀ a, Mirrors related (post a) (post' a) last (next ()) (next' ())) :
    Mirrors related pre pre' last (discard step >>= next) (discard other >>= next') := by
  rw [discard_eq_bind, discard_eq_bind]
  simp only [bind_assoc, pure_bind]
  exact bind_same hkeeps hkeeps' h hnext

theorem get_bind {next : Schema → Compile γ} {next' : Schema → Compile δ}
    (h : ∀ left right, left.Consistent → right.Consistent → related left right → pre left →
      pre' right →
        Mirrored related last ((next left).outcome left) ((next' right).outcome right)) :
    Mirrors related pre pre' last (get >>= next) (get >>= next') :=
  h

theorem mapM {f : α → Compile β} {relation : α → β → Prop} {as : List α} (hpre : Persists pre)
    (hkeeps : ∀ a ∈ as, Keeps pre (f a) fun b _ => relation a b)
    (h : ∀ a ∈ as, Mirrors related pre pre (· = ·) (f a) (f a)) :
    Mirrors related pre pre (· = ·) (as.mapM f) (as.mapM f) := by
  induction as with
  | nil => exact pure rfl
  | cons a rest ih =>
      obtain ⟨hkeep, hkeeps⟩ := List.forall_mem_cons.mp hkeeps
      obtain ⟨hfirst, hrest⟩ := List.forall_mem_cons.mp h
      rw [List.mapM_cons]
      have hframed := (hkeep.frame hpre).imp (fun _ hbefore => ⟨hbefore, hbefore⟩) fun _ _ _ => id
      refine bind_same hframed hframed hfirst fun b => ?_
      have hlater : Keeps (fun schema => relation a b ∧ pre schema) (rest.mapM f) _ :=
        (Keeps.mapM hpre hkeeps).imp (fun _ hbefore => hbefore.2) fun _ _ _ => id
      exact bind_same hlater hlater
        ((ih hkeeps hrest).imp (fun _ hbefore => hbefore.2) fun _ hbefore => hbefore.2)
          fun _ => pure rfl

end Mirrors

end Compile

namespace Schema

variable {start schema other left right : Schema} {marked : List Handle} {place handle : Handle}
  {allowed : SchemaNode → SchemaNode → Prop} {node found : SchemaNode}

section Questions

theorem skipAliases_eq_of_has {type : CompiledType} (hleft : left.Consistent)
    (hright : right.Consistent) (hhas : left.Has type) (hhas' : right.Has type)
    (hdescribe : right.describe type.handle = left.describe type.handle) :
    right.skipAliases type.handle = left.skipAliases type.handle := by
  rw [skipAliases_eq_bind, skipAliases_eq_bind, resolve_handle_of_has hhas,
    resolve_handle_of_has hhas']
  change right.follow aliasTarget? type.handle maxChain type.handle =
    left.follow aliasTarget? type.handle maxChain type.handle
  rw [hleft.follow_eq hhas, hright.follow_eq hhas', hdescribe]

theorem isUntaggedChoice_eq_of_has {type : CompiledType} (hleft : left.Consistent)
    (hright : right.Consistent) (hhas : left.Has type) (hhas' : right.Has type)
    (hdescribe : right.describe type.handle = left.describe type.handle) :
    right.isUntaggedChoice type.handle = left.isUntaggedChoice type.handle := by
  have hskip := skipAliases_eq_of_has hleft hright hhas hhas' hdescribe
  cases hbase : left.skipAliases type.handle with
  | error error =>
      rw [hbase] at hskip
      rw [isUntaggedChoice, isUntaggedChoice, hbase, hskip]
      rfl
  | ok base =>
      have hfollows := hleft.hasBase_of_skipAliases hhas hbase
      rw [hleft.isUntaggedChoice_eq_ok hhas hfollows, hright.isUntaggedChoice_eq_ok hhas' hfollows]

theorem firstTags_eq_of_has {type : CompiledType} (hleft : left.Consistent)
    (hright : right.Consistent) (hhas : left.Has type) (hhas' : right.Has type)
    (hdescribe : right.describe type.handle = left.describe type.handle) :
    right.firstTags type.handle = left.firstTags type.handle := by
  have hskip := skipAliases_eq_of_has hleft hright hhas hhas' hdescribe
  cases hbase : left.skipAliases type.handle with
  | error error =>
      rw [hbase] at hskip
      rw [firstTags, firstTags, hbase, hskip]
      rfl
  | ok base =>
      have hfollows := hleft.hasBase_of_skipAliases hhas hbase
      rw [hleft.firstTags_eq_ok hhas hfollows, hright.firstTags_eq_ok hhas' hfollows]

end Questions

section Differences

theorem withNode_withNode (schema : Schema) (handle : Handle) (node found : SchemaNode) :
    (schema.withNode handle node).withNode handle found = schema.withNode handle found := by
  simp [withNode]

theorem withNode_comm (schema : Schema) {place handle : Handle} (hne : handle ≠ place)
    (node found : SchemaNode) :
    (schema.withNode place found).withNode handle node =
      (schema.withNode handle node).withNode place found := by
  have hindex : place.index ≠ handle.index := by
    intro heq
    cases place
    cases handle
    exact hne (by simpa using heq.symm)
  simp only [withNode, Array.setIfInBounds_comm _ _ hindex]

theorem withNode_self (hnode : schema.node? handle = some node) :
    schema.withNode handle node = schema := by
  have hlt := index_lt_of_node? hnode
  have hget : schema.nodes[handle.index] = node := (Array.getElem?_eq_some_iff.mp hnode).2
  have hsame : schema.nodes.setIfInBounds handle.index node = schema.nodes := by
    simp [← hget, Array.setIfInBounds_def, hlt]
  rw [withNode, hsame]

theorem describe_withNode (hnode : schema.node? place = some node)
    (hname : found.name? = node.name?) (handle : Handle) :
    (schema.withNode place found).describe handle = schema.describe handle := by
  rw [describe, describe, node?_withNode hnode]
  split
  · next heq => rw [heq, hnode, Option.bind_some, Option.bind_some, hname]
  · rfl

theorem push_withNode (hnode : schema.node? place = some node) (found added : SchemaNode) :
    ((schema.withNode place found).push added).2 = (schema.push added).2.withNode place found := by
  have hlt := index_lt_of_node? hnode
  simp only [push, withNode, Schema.mk.injEq, and_true]
  simp [Array.setIfInBounds_def, hlt, Nat.lt_succ_of_lt hlt, Array.set_push]

/-- Whether two schemas are the same but for what is recorded about one type, which has the same
name in both. The first one is what `start` has become while the types in the list are being
compiled. -/
structure DiffersAt (start : Schema) (place : Handle) (allowed : SchemaNode → SchemaNode → Prop)
    (marked : List Handle) (schema other : Schema) : Prop where
  compiling : IsCompiling start marked schema
  validating : ∀ handle ∈ marked, ∃ node,
    schema.node? handle = some node ∧ node.status = .validating
  differs : ∃ node found, schema.node? place = some node ∧ found.name? = node.name? ∧
    allowed node found ∧ other = schema.withNode place found

/-- Whether two schemas, the first of which has come from `start`, answer alike whatever is asked
while types are being compiled, and still do so after a type has been added to both. -/
structure AnswerAlike (start : Schema) (related : Schema → Schema → Prop) : Prop where
  grows : ∀ {left right}, related left right → start.Extends left
  values : ∀ {left right}, related left right → right.values = left.values
  size : ∀ {left right}, related left right → right.nodes.size = left.nodes.size
  resolve : ∀ {left right}, related left right → ∀ reference,
    right.resolve reference = left.resolve reference
  describe : ∀ {left right}, related left right → ∀ handle,
    right.describe handle = left.describe handle
  push : ∀ {left right node}, related left right → node.IsAddedTag →
    related (left.push node).2 (right.push node).2
  passes : ∀ {left right type}, related left right → left.Consistent → start.Has type →
    type.StillPasses start.view left.view
  canonicalize : ∀ {left right type}, related left right → left.Consistent → left.Has type →
    ∀ value, type.canonicalize right.values (.top right.view) value =
      type.canonicalize left.values (.top left.view) value

namespace DiffersAt

theorem node?_eq (h : DiffersAt start place allowed marked schema other) (hne : handle ≠ place) :
    other.node? handle = schema.node? handle := by
  obtain ⟨node, found, hnode, -, -, rfl⟩ := h.differs
  rw [node?_withNode hnode, if_neg hne]

theorem describe_eq (h : DiffersAt start place allowed marked schema other) (handle : Handle) :
    other.describe handle = schema.describe handle := by
  obtain ⟨node, found, hnode, hname, -, rfl⟩ := h.differs
  exact describe_withNode hnode hname handle

theorem push (h : DiffersAt start place allowed marked schema other) (hadded : node.IsAddedTag) :
    DiffersAt start place allowed marked (schema.push node).2 (other.push node).2 := by
  obtain ⟨hcompiling, hvalidating, old, found, hold, hname, hallowed, rfl⟩ := h
  refine ⟨hcompiling.push hadded, ?_, old, found, node?_push_of_node? hold node, hname, hallowed,
    push_withNode hold found node⟩
  intro handle hmem
  obtain ⟨marked, hmarked, hstatus⟩ := hvalidating handle hmem
  exact ⟨marked, node?_push_of_node? hmarked node, hstatus⟩

/-- What constraints can see of both schemas has come from one view of them, in which the type where
they differ has not been compiled. -/
theorem mayCompileTo {view : SchemaView} (hview : view.MayCompileTo start.view)
    (hopen : ∀ type, view.type? place = some type → ¬type.IsSettled)
    (h : DiffersAt start place allowed marked schema other) :
    view.MayCompileTo schema.view ∧ view.MayCompileTo other.view := by
  have hschema := hview.trans h.compiling.mayCompileTo
  obtain ⟨node, found, hnode, hname, -, rfl⟩ := h.differs
  exact ⟨hschema, mayCompileTo_withNode_of_open hschema hnode hopen hname⟩

theorem answerAlike (start : Schema) {place : Handle} (allowed : SchemaNode → SchemaNode → Prop)
    (marked : List Handle) {view : SchemaView} (hoverlooks : start.OverlooksCompiling view)
    (hview : view.MayCompileTo start.view)
    (hopen : ∀ type, view.type? place = some type → ¬type.IsSettled) :
    AnswerAlike start (DiffersAt start place allowed marked) := by
  refine ⟨fun h => h.compiling.toExtends, ?_, ?_, ?_, fun h => h.describe_eq, fun h => h.push, ?_,
    ?_⟩
  · rintro left right ⟨-, -, node, found, -, -, -, rfl⟩
    rfl
  · rintro left right ⟨-, -, node, found, -, -, -, rfl⟩
    exact Array.size_setIfInBounds
  · rintro left right ⟨-, -, node, found, hnode, hname, -, rfl⟩ reference
    exact resolve_withNode hnode hname reference
  · intro left right type h hconsistent hhas
    exact ((h.compiling.keepsConstraints hconsistent).checksAlike hconsistent hoverlooks
      (h.compiling.toExtends.compiled hhas) hview (h.mayCompileTo hview hopen).1).stillPasses
  · intro left right type h hconsistent hhas value
    obtain ⟨hleft, hright⟩ := h.mayCompileTo hview hopen
    have hchecks := (h.compiling.keepsConstraints hconsistent).checksAlike hconsistent hoverlooks
      hhas hright hleft
    have hvalues : right.values = left.values := by
      obtain ⟨-, -, node, found, -, -, -, rfl⟩ := h
      rfl
    rw [hvalues]
    exact CompiledType.canonicalize_withSchema hchecks left.values .top value

theorem not_mem_of_ne (h : DiffersAt start place allowed marked schema other)
    (hnode : schema.node? handle = some node) (hstatus : node.status ≠ .validating) :
    handle ∉ marked := by
  intro hmem
  obtain ⟨found, hfound, hmarked⟩ := h.validating handle hmem
  obtain rfl := Option.some.inj (hnode.symm.trans hfound)
  exact hstatus hmarked

/-- Types that are added are compiled, so that those that are being compiled have been there. -/
theorem exists_start (h : DiffersAt start place allowed marked schema other) :
    ∀ handle ∈ marked, ∃ node, start.node? handle = some node := by
  intro handle hmem
  obtain ⟨found, hfound, hstatus⟩ := h.validating handle hmem
  cases hstart : start.node? handle with
  | some node => exact ⟨node, rfl⟩
  | none =>
      obtain ⟨-, type, hcompiled, -⟩ := h.compiling.added hstart hfound
      cases hcompiled.symm.trans hstatus

theorem mark (h : DiffersAt start place allowed marked schema other)
    (hnode : schema.node? handle = some node) (hdeclared : node.status = .declared)
    (hne : handle ≠ place) :
    DiffersAt start place allowed (handle :: marked)
      (schema.withNode handle { node with status := .validating })
      (other.withNode handle { node with status := .validating }) := by
  obtain ⟨hcompiling, hvalidating, old, found, hold, hname, hallowed, rfl⟩ := h
  refine ⟨hcompiling.mark hnode hdeclared, ?_, old, found, ?_, hname, hallowed,
    withNode_comm schema hne _ _⟩
  · refine List.forall_mem_cons.mpr ⟨⟨_, node?_withNode_self hnode _, rfl⟩, ?_⟩
    intro outer hmem
    obtain ⟨marked, hmarked, hstatus⟩ := hvalidating outer hmem
    refine ⟨marked, (node?_withNode hnode _).trans ((if_neg ?_).trans hmarked), hstatus⟩
    rintro rfl
    obtain rfl := Option.some.inj (hnode.symm.trans hmarked)
    cases hdeclared.symm.trans hstatus
  · rw [node?_withNode hnode, if_neg hne.symm, hold]

theorem settle {old new : SchemaNode}
    (h : DiffersAt start place allowed (handle :: marked) schema other)
    (hnew : handle ∉ marked) (hstart : start.node? handle = some old)
    (hnode : schema.node? handle = some node)
    (hextends : schema.Extends (schema.withNode handle new)) (hname : new.name? = old.name?)
    (hresolves : old.declaration.definition.ResolvesTo (schema.withNode handle new)
      new.declaration.definition)
    (hconstraints : new.declaration.constraints = old.declaration.constraints)
    (hsettled : new.status.IsSettled) (hne : handle ≠ place) :
    DiffersAt start place allowed marked (schema.withNode handle new)
      (other.withNode handle new) := by
  obtain ⟨hcompiling, hvalidating, before, found, hbefore, hsame, hallowed, rfl⟩ := h
  refine ⟨hcompiling.settle hstart hnode hextends hname hresolves hconstraints hsettled, ?_, before,
    found, ?_, hsame, hallowed, withNode_comm schema hne _ _⟩
  · intro outer hmem
    obtain ⟨marked, hmarked, hstatus⟩ := hvalidating outer (List.mem_cons_of_mem _ hmem)
    refine ⟨marked, (node?_withNode hnode _).trans ((if_neg ?_).trans hmarked), hstatus⟩
    rintro rfl
    exact hnew hmem
  · rw [node?_withNode hnode, if_neg hne.symm, hbefore]

end DiffersAt

end Differences

end Schema

end Asn1

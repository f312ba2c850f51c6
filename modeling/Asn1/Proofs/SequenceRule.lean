import Asn1.Proofs.CanonicalValues
import Asn1.Proofs.SequenceMatching

namespace Asn1

namespace Layout

/-- The rule for the entries of a SEQUENCE value. Nothing at all may be present if nothing is
required. `accepts` says which values the components take. -/
def IsSequence (layout : Layout CompiledType) (accepts : Component CompiledType → Value → Prop)
    (entries : Entries) : Prop :=
  (entries = [] ∧ ∀ component ∈ layout.components, component.isRequired = false) ∨
    (entries ≠ [] ∧
      (layout.known entries).Pairwise (·.index < ·.index) ∧
      (∀ before entry after, entries = before ++ entry :: after →
        layout.component? entry.1 = none →
          ∃ component, (layout.known before).getLast? = some component ∧ 1 < component.version) ∧
      (∀ component ∈ layout.components, component.isRequired = true →
        component.version ≤ layout.topVersion entries → component ∈ layout.known entries) ∧
      ∀ entry ∈ entries, ∀ component, layout.component? entry.1 = some component →
        accepts component entry.2)

variable {layout : Layout CompiledType} {accepts : Component CompiledType → Value → Prop}

theorem isSequence_iff_admits (hregular : layout.IsRegular) (hkind : layout.kind = .sequence)
    {entries : Entries} :
    layout.IsSequence accepts entries ↔ layout.Admits entries ∧ ∀ entry ∈ entries, ∀ component,
      layout.component? entry.1 = some component → accepts component entry.2 := by
  rw [IsSequence, admits_sequence_iff hkind, allowsAfter_sequence_iff hregular hkind]
  simp only [Component.isAddition, decide_eq_true_eq]
  by_cases hnil : entries = []
  · subst hnil
    have hoptional : layout.IsComplete [] ↔
        ∀ component ∈ layout.components, component.isRequired = false := by
      simp [isComplete_nil_iff, isAllOptional]
    simp [hoptional, known]
  · rw [isComplete_iff_of_ne_nil hnil]
    simp only [hnil, false_and, ne_eq, not_false_eq_true, true_and, false_or]
    tauto

end Layout

namespace Schema

variable {schema : Schema} {handle : Handle} {info : TypeInfo} {layout : Layout CompiledType}

/-- Without custom constraints the context in which a value is checked does not matter. -/
theorem Consistent.accept_iff_accept_top (h : schema.Consistent) {type : CompiledType}
    (hcompiled : schema.compiled handle = .ok type) (hranges : type.HasRangesOnly) (scope : Scope)
    (value : Value) :
    type.accept schema.values scope value = .ok () ↔ schema.accept handle value = .ok () := by
  have hform (scope : Scope) : type.accept schema.values scope value = .ok () ↔
      ∃ form, type.canonicalize schema.values (.top schema.view) value = .ok form :=
    CompiledType.accept_eq_ok_iff_exists_canonical (h.isRegular hcompiled) hranges
  rw [accept_eq_ok_iff hcompiled, hform scope, hform (.top schema.view)]

/-- A SEQUENCE type without constraints accepts exactly the values that satisfy the rule, each
component in the context of the whole value. For known entries in order, the check for missing
components between each two of them is that of the SET, which looks at all of them at once. -/
theorem Reachable.accept_sequence_iff (h : schema.Reachable)
    (hcompiled : schema.compiled handle = .ok ⟨info, .collection layout⟩)
    (hkind : layout.kind = .sequence) (hconstraints : info.constraints = []) (entries : Entries) :
    (schema.accept handle (.collection entries) = .ok () ↔
      layout.IsSequence (fun component value => component.type.accept schema.values
        (((Scope.top schema.view).typed info.handle info.description).walking entries)
          value = .ok ()) entries) ∧
    (∀ component ∈ layout.components, component.type.HasRangesOnly → ∀ scope value,
      component.type.accept schema.values scope value = .ok () ↔
        schema.accept component.type.handle value = .ok ()) ∧
    ((∀ entry ∈ entries, layout.component? entry.1 ≠ none) →
      (layout.known entries).Pairwise (·.index < ·.index) →
        ∀ (visit : Visit CompiledType Unit) results,
          layout.walkSequence visit none 1 entries = .ok results ↔
            layout.walkSet visit [] 1 entries = .ok results) := by
  have hholds := h.consistent _ _ hcompiled
  have hregular := hholds.regular layout rfl
  refine ⟨?_, ?_, ?_⟩
  · rw [accept_collection_iff h.consistent hcompiled (by simp [hkind, CollectionKind.isList]),
      Layout.isSequence_iff_admits hregular hkind, hconstraints]
    simp
  · intro component hmem hranges
    have hcomponent := hholds.types component.type (TypeForm.type_mem_types hmem)
    exact h.consistent.accept_iff_accept_top hcomponent hranges
  · intro hknown horder visit results
    exact Layout.walkSequence_eq_ok_iff_walkSet hregular hknown horder

/-- An entry that the sequence does not know is let through after the addition `x`, but not after
the root component `b`. -/
theorem accept_sequence_defaultedSequence :
    let five : Integer := ⟨5, by decide, by decide⟩
    defaultedSequence.accept ⟨2⟩ (.collection [("x", .integer five), ("new", .null)]) = .ok () ∧
      defaultedSequence.accept ⟨2⟩ (.collection [("b", .boolean true), ("new", .null)]) ≠
        .ok () := by
  intro five
  have hreachable : defaultedSequence.Reachable := reachable_extendedSequence _ _ _
  have hrule (entries : Entries) :=
    (hreachable.accept_sequence_iff compiled_defaultedSequence rfl rfl entries).1
  rw [hrule, ne_eq, hrule]
  constructor
  · refine .inr ⟨by simp, List.pairwise_singleton _ _, ?_, ?_, ?_⟩
    · intro before entry after heq hnone
      rcases before with _ | ⟨first, _ | ⟨second, before⟩⟩
      · obtain ⟨rfl, -⟩ := List.cons_eq_cons.mp heq
        cases hnone
      · obtain ⟨rfl, -⟩ := List.cons_eq_cons.mp heq
        exact ⟨_, rfl, by decide⟩
      · simp at heq
    · intro component hmem hrequired
      have hoptional : defaultedLayout.isAllOptional = true := rfl
      simpa [hrequired] using List.all_eq_true.mp hoptional component hmem
    · intro entry hmem component hfind
      rcases List.mem_cons.mp hmem with rfl | hmem
      · obtain rfl := Option.some.inj hfind
        rfl
      · obtain rfl := List.mem_singleton.mp hmem
        cases hfind
  · rintro (⟨hnil, -⟩ | ⟨-, -, hunknown, -⟩)
    · cases hnil
    · obtain ⟨component, hlast, hversion⟩ :=
        hunknown [("b", .boolean true)] ("new", .null) [] rfl rfl
      obtain rfl := Option.some.inj hlast
      exact absurd hversion (by decide)

end Schema

end Asn1

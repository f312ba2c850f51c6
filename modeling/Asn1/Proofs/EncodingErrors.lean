import Asn1.Proofs.CanonicalValues
import Asn1.Proofs.InternalErrors
import Asn1.Proofs.SchemaConsistency
import Asn1.Proofs.TypeWriting

namespace Asn1

open Results

namespace Written

/-- Whether writing has not failed with an internal error. -/
def IsSafe (written : Written) : Prop :=
  ∀ error, written.failure? = some error → error.isInternal = false

theorem isSafe_done (octets : Octets) : (done octets).IsSafe := by
  rintro _ ⟨⟩

theorem isSafe_fail {error : EncodeError} (h : error.isInternal = false) : (fail error).IsSafe := by
  rintro _ ⟨⟩
  exact h

theorem IsSafe.append {first second : Written} (hfirst : first.IsSafe) (hsecond : second.IsSafe) :
    (first ++ second).IsSafe := by
  obtain ⟨octets, failure?⟩ := first
  cases failure? with
  | some error => exact hfirst
  | none => exact hsecond

theorem isSafe_concat {parts : List Written} (h : ∀ part ∈ parts, part.IsSafe) :
    (concat parts).IsSafe := by
  induction parts with
  | nil => exact isSafe_done []
  | cons first rest ih =>
      obtain ⟨hfirst, hrest⟩ := List.forall_mem_cons.mp h
      exact hfirst.append (ih hrest)

theorem IsSafe.failsWith {written : Written} (h : written.IsSafe) :
    FailsWith (·.isInternal = false) written.toExcept := by
  intro error herror
  rw [toExcept] at herror
  split at herror
  · next found hfound => exact h error (hfound.trans (congrArg some (Except.error.inj herror)))
  · contradiction

end Written

theorem Builtin.encodeContent_failsWith {builtin : Builtin} {value : Value}
    (haccept : builtin.accept value = .ok ()) (rules : EncodingRules) :
    FailsWith (·.isInternal = false) (builtin.encodeContent rules value) := by
  cases value with
  | text string =>
      have htext : builtin.isText = true := by
        cases builtin <;> first | rfl | cases haccept
      rw [encodeContent_text htext]
      split
      · exact failsWith_error rfl
      · exact failsWith_ok _
  | _ => cases builtin <;> first | exact failsWith_ok _ | cases haccept

namespace Encoder

open Written

variable {encoder : Encoder}

theorem isSafe_constructed (tag : Tag) {content : Written} (h : content.IsSafe) :
    (encoder.constructed tag content).IsSafe := by
  rw [constructed]
  split
  · cases hfailure : content.failure? with
    | some error => exact isSafe_fail (h error hfailure)
    | none => exact isSafe_done _
  · split
    · exact ((isSafe_done _).append h).append (isSafe_done _)
    · exact isSafe_fail rfl

theorem isSafe_builtin {builtin : Builtin} {value : Value}
    (haccept : builtin.accept value = .ok ()) (tag : Tag) :
    (encoder.builtin builtin value tag).IsSafe := by
  have hfails := Builtin.encodeContent_failsWith haccept encoder.rules
  rw [Encoder.builtin]
  cases hcontent : builtin.encodeContent encoder.rules value with
  | error error =>
      have herror := hfails error hcontent
      cases error <;> exact isSafe_fail herror
  | ok content =>
      simp only
      split
      · refine isSafe_constructed tag (isSafe_concat ?_)
        intro part hmem
        obtain ⟨segment, -, rfl⟩ := List.mem_map.mp hmem
        exact isSafe_done _
      · exact isSafe_done _

theorem isSafe_unknown (value : Value) : (encoder.unknown value).IsSafe := by
  cases value with
  | captured element =>
      rw [unknown]
      split
      · exact isSafe_fail rfl
      · exact isSafe_done _
  | _ => exact isSafe_fail rfl

end Encoder

namespace CompiledType

open Encoder Written

/-- Whether the canonical values of a type are written without internal errors. -/
def IsSafelyWritten (type : CompiledType) : Prop :=
  ∀ {values scope value} (canonical : CanonicalForm) (encoder : Encoder) (tag? : Option Tag),
    type.canonicalize values scope value = .ok canonical →
      (tag? ≠ none → type.isUntaggedChoice = false) →
        (type.interpret encoder.step (canonical.value, tag?)).IsSafe

variable {layout : Layout CompiledType} {values : NamedValues} {scope : Scope} {value : Value}
  {canonical : CanonicalForm} {encoder : Encoder}

theorem isSafe_items (htypes : ∀ component ∈ layout.components, component.type.IsSafelyWritten)
    (hlist : layout.kind.isList = true)
    (h : layout.CanonicalizesItems values scope value canonical) :
    (encoder.content (layout.map (interpret encoder.step)) canonical.value).IsSafe := by
  obtain ⟨element, items, forms, helement, -, hforms, rfl⟩ := h
  unfold content
  rw [Layout.kind_map, if_pos hlist, Layout.element?_map_of_some _ helement]
  refine isSafe_concat ?_
  intro part hmem
  obtain ⟨_, hvalue, rfl⟩ := List.mem_map.mp hmem
  obtain ⟨form, hform, rfl⟩ := List.mem_map.mp hvalue
  obtain ⟨item, -, hcanonical⟩ := forall₂_exists_of_mem hforms hform
  exact htypes element (Layout.mem_components_of_element? helement) form encoder none hcanonical
    (absurd rfl)

theorem isSafe_entries (htypes : ∀ component ∈ layout.components, component.type.IsSafelyWritten)
    (hlist : layout.kind.isList = false)
    (h : layout.CanonicalizesEntries values scope value canonical) :
    (encoder.content (layout.map (interpret encoder.step)) canonical.value).IsSafe := by
  obtain ⟨entries, kept, -, -, hvalue, hkept⟩ := h.exists_kept
  unfold content
  rw [Layout.kind_map, if_neg (by simp [hlist]), hvalue]
  refine isSafe_concat ?_
  intro part hmem
  obtain ⟨entry, hentry, rfl⟩ := List.mem_map.mp hmem
  simp only [Layout.component?_map]
  cases hfind : layout.component? entry.1 with
  | none => exact isSafe_unknown _
  | some component =>
      obtain ⟨-, source, form, -, hform, hsame⟩ := hkept.stems entry hentry component hfind
      have hsafe := htypes component (Layout.mem_components_of_component? hfind) form encoder none
        hform (absurd rfl)
      rwa [hsame] at hsafe

theorem isSafe_collection
    (htypes : ∀ component ∈ layout.components, component.type.IsSafelyWritten) {info : TypeInfo}
    {tag? : Option Tag}
    (htag : tag? ≠ none → isUntaggedChoice ⟨info, .collection layout⟩ = false)
    (h : (TypeForm.collection layout).Canonicalizes values scope value canonical) :
    (encoder.step info (.collection (layout.map (interpret encoder.step)))
      (canonical.value, tag?)).IsSafe := by
  have hcontent :
      (encoder.content (layout.map (interpret encoder.step)) canonical.value).IsSafe := by
    rw [TypeForm.Canonicalizes] at h
    split at h
    · next hlist => exact isSafe_items htypes hlist h
    · next hlist => exact isSafe_entries htypes (by simpa using hlist) h
  rw [isUntaggedChoice_collection] at htag
  cases htag? : layout.kind.tag? with
  | some tag =>
      simp only [Encoder.step, Layout.kind_map, htag?]
      exact isSafe_constructed _ hcontent
  | none =>
      simp only [Encoder.step, Layout.kind_map, htag?]
      cases tag? with
      | none => exact hcontent
      | some tag =>
          have hchoice := CollectionKind.tag?_eq_none_iff.mp htag?
          simp [hchoice] at htag

/-- Canonical values have the shape that their type gives them, and implicit tags only get to types
whose tag they can replace. -/
theorem isSafelyWritten {type : CompiledType} (hregular : type.IsRegular) (hsound : type.IsSound) :
    type.IsSafelyWritten := by
  induction type using CompiledType.induct with
  | mk info form ih =>
      obtain ⟨hlayout, hregular⟩ := hregular.of_mk
      obtain ⟨hform, hsound⟩ := hsound.of_mk
      have hsafe (inner : CompiledType) (hmem : inner ∈ form.types) : inner.IsSafelyWritten :=
        ih inner hmem (hregular inner hmem) (hsound inner hmem)
      intro values scope value result encoder tag? hcanonicalize htag
      obtain ⟨resolved, canonical, -, hcanonical, -, rfl⟩ :=
        (canonicalize_mk_iff hlayout).mp hcanonicalize
      rw [interpret_mk]
      cases form with
      | builtin builtin =>
          obtain ⟨haccept, rfl⟩ := hcanonical
          exact isSafe_builtin haccept _
      | «alias» target =>
          rw [isUntaggedChoice_alias] at htag
          exact hsafe target TypeForm.target_mem_types canonical encoder tag? hcanonical htag
      | tagged tag method inner =>
          cases method with
          | implicit =>
              exact hsafe inner TypeForm.inner_mem_types canonical encoder _ hcanonical
                fun _ => hform
          | explicit =>
              exact isSafe_constructed _ (hsafe inner TypeForm.inner_mem_types canonical encoder
                none hcanonical (absurd rfl))
      | collection layout =>
          change (encoder.step info (.collection (layout.map (interpret encoder.step)))
            (canonical.value, tag?)).IsSafe
          exact isSafe_collection
            (fun component hmem => hsafe component.type (TypeForm.type_mem_types hmem)) htag
              hcanonical

end CompiledType

end Asn1

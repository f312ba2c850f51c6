import Asn1.Decoding
import Asn1.Proofs.LeafContent
import Asn1.Proofs.TypeReading

/-!
The basic encoding rules accept whatever the others accept, with the same result. Each operation
that reads under some rules is compared with the one under the basic rules, which leaves out checks
but does not look at other octets.
-/

namespace Asn1

open Results

namespace Time

/-- Whether a check also succeeds, in the same way, wherever a stricter one does. -/
def Relaxes {α : Type} (strict lenient : Check α) : Prop :=
  ∀ chars result, strict chars = .ok result → lenient chars = .ok result

namespace Relaxes

variable {α β : Type} {strict lenient : Check α} {next other : α → Check β}

theorem refl (check : Check α) : Relaxes check check := by
  intro _ _
  exact id

theorem throw (error : TimeError) : Relaxes (throw error) lenient := by
  rintro chars result ⟨⟩

theorem bind (h : Relaxes strict lenient) (hnext : ∀ a, Relaxes (next a) (other a)) :
    Relaxes (strict >>= next) (lenient >>= other) := by
  intro chars result hok
  change (strict chars >>= fun pair => next pair.1 pair.2) = .ok result at hok
  change (lenient chars >>= fun pair => other pair.1 pair.2) = .ok result
  cases hstrict : strict chars with
  | error error => simp [hstrict, Bind.bind, Except.bind] at hok
  | ok pair =>
      rw [hstrict] at hok
      rw [h chars pair hstrict]
      exact hnext pair.1 pair.2 result hok

theorem ite {condition : Prop} [Decidable condition] {more less : Check α}
    (h : Relaxes strict lenient) (hother : Relaxes more less) :
    Relaxes (if condition then strict else more) (if condition then lenient else less) := by
  split
  · exact h
  · exact hother

theorem ite_throw {condition : Prop} [Decidable condition] {error : TimeError}
    {after : β → Check α} (h : Relaxes strict lenient) :
    Relaxes (if condition then MonadExcept.throw error >>= after else strict) lenient := by
  split
  · rintro chars result ⟨⟩
  · exact h

end Relaxes

variable (restricted required : Bool)

theorem relaxes_zone : Relaxes (zone restricted required) (zone false required) := by
  refine (Relaxes.refl _).bind fun chars => ?_
  simp only [Bool.false_eq_true, if_false, Bool.false_or]
  split
  · exact .refl _
  · exact .ite_throw (.refl _)
  · exact .ite_throw (.refl _)
  · cases required with
    | false =>
        rw [if_neg Bool.false_ne_true]
        split
        · exact .throw _
        · exact .refl _
    | true => simpa using Relaxes.refl _
  · exact .refl _

theorem relaxes_fraction : Relaxes (fraction restricted) (fraction false) := by
  refine (Relaxes.refl _).bind fun chars => (Relaxes.refl _).bind fun _ => ?_
  simp only [Bool.false_and, Bool.false_eq_true, if_false]
  split
  · rintro chars result ⟨⟩
  · split
    · exact .throw _
    · exact .refl _

theorem relaxes_fraction? : Relaxes (fraction? restricted) (fraction? false) := by
  refine (Relaxes.refl _).bind fun chars => ?_
  simp only [Bool.false_eq_true, if_false]
  split
  · exact (Relaxes.refl _).bind fun _ => relaxes_fraction restricted
  · exact .ite_throw ((Relaxes.refl _).bind fun _ => relaxes_fraction restricted)
  · exact .refl _

theorem relaxes_utc : Relaxes (utc restricted) (utc false) := by
  have hend : Relaxes (zone restricted true >>= fun _ => finish)
      (zone false true >>= fun _ => finish) :=
    (relaxes_zone restricted true).bind fun _ => .refl _
  rw [utc, utc]
  simp only [Bool.false_eq_true, if_false]
  iterate 5 refine (Relaxes.refl _).bind fun _ => ?_
  exact ((Relaxes.refl _).bind fun _ => hend).ite (.ite_throw hend)

theorem relaxes_generalized : Relaxes (generalized restricted) (generalized false) := by
  have hend : Relaxes (fraction? restricted >>= fun _ => zone restricted false >>= fun _ => finish)
      (fraction? false >>= fun _ => zone false false >>= fun _ => finish) :=
    (relaxes_fraction? restricted).bind fun _ =>
      (relaxes_zone restricted false).bind fun _ => .refl _
  rw [generalized, generalized]
  simp only [Bool.false_eq_true, if_false]
  iterate 4 refine (Relaxes.refl _).bind fun _ => ?_
  refine Relaxes.ite ?_ (.ite_throw hend)
  iterate 2 refine (Relaxes.refl _).bind fun _ => ?_
  exact ((Relaxes.refl _).bind fun _ => hend).ite (.ite_throw hend)

theorem check_of_restricted {check : Bool → Check Unit}
    (h : Relaxes (check restricted) (check false)) {text : String}
    (hok : (check restricted).run' text.toList = .ok ()) :
    (check false).run' text.toList = .ok () := by
  obtain ⟨pair, hpair, -⟩ := map_eq_ok_iff.mp hok
  exact map_eq_ok_iff.mpr ⟨pair, h _ _ hpair, rfl⟩

end Time

namespace Builtin

variable {builtin : Builtin} {rules : EncodingRules}

theorem checkText_of_restricted {text : String} {restricted : Bool}
    (h : builtin.checkText text restricted = .ok ()) : builtin.checkText text false = .ok () := by
  unfold checkText at h ⊢
  split at h
  · next hallows =>
    rw [if_pos hallows]
    split at h
    · rw [mapError_eq_ok_iff] at h ⊢
      exact Time.check_of_restricted _ (Time.relaxes_utc restricted) h
    · rw [mapError_eq_ok_iff] at h ⊢
      exact Time.check_of_restricted _ (Time.relaxes_generalized restricted) h
    · rfl
  · contradiction

theorem decodeBoolean_ber {content : Octets} {b : Bool} (h : decodeBoolean rules content = .ok b) :
    decodeBoolean .ber content = .ok b := by
  unfold decodeBoolean at h ⊢
  split at h
  · split at h
    · next hzero => rw [if_pos hzero, h]
    · next hzero =>
      split at h
      · rw [if_neg hzero, if_pos (by simp [EncodingRules.isRestricted]), h]
      · contradiction
  · contradiction

theorem decodeText_ber {content : Octets} {text : String}
    (h : builtin.decodeText rules content = .ok text) :
    builtin.decodeText .ber content = .ok text := by
  obtain ⟨hcontent, hcheck⟩ := decodeText_eq_ok_iff.mp h
  exact decodeText_eq_ok_iff.mpr ⟨hcontent, checkText_of_restricted hcheck⟩

theorem decodeContent_ber {content : Octets} {value : Value}
    (h : builtin.decodeContent rules content = .ok value) :
    builtin.decodeContent .ber content = .ok value := by
  cases htext : builtin.isText with
  | true =>
      rw [decodeContent_text htext, mapError_eq_ok_iff, map_eq_ok_iff] at h ⊢
      obtain ⟨text, hdecode, heq⟩ := h
      exact ⟨text, decodeText_ber hdecode, heq⟩
  | false =>
      cases builtin with
      | boolean =>
          change (Value.boolean <$> decodeBoolean rules content).mapError _ = _ at h
          change (Value.boolean <$> decodeBoolean .ber content).mapError _ = _
          rw [mapError_eq_ok_iff, map_eq_ok_iff] at h ⊢
          obtain ⟨b, hdecode, heq⟩ := h
          exact ⟨b, decodeBoolean_ber hdecode, heq⟩
      | integer => exact h
      | null => exact h
      | octetString => exact h
      | objectIdentifier => exact h
      | _ => simp [isText] at htext

end Builtin

namespace Read

/-- Whether an operation also succeeds wherever a stricter one does. It then moves to the same
place, and its result is related to that of the other. -/
def Relaxes {α β : Type} (relation : α → β → Prop) (strict : Read α) (lenient : Read β) : Prop :=
  ∀ source a rest, strict.outcome source = (.ok a, rest) →
    ∃ b, relation a b ∧ lenient.outcome source = (.ok b, rest)

namespace Relaxes

variable {α β γ δ : Type} {relation : α → β → Prop} {last : γ → δ → Prop} {strict : Read α}
  {lenient : Read β} {next : α → Read γ} {other : β → Read δ}

theorem refl (operation : Read α) : Relaxes Eq operation operation := by
  intro _ a _ h
  exact ⟨a, rfl, h⟩

theorem pure {a : α} {b : β} (h : relation a b) :
    Relaxes relation (Pure.pure a) (Pure.pure b) := by
  intro source found rest heq
  rw [outcome_pure, Prod.mk.injEq, Except.ok.injEq] at heq
  obtain ⟨rfl, rfl⟩ := heq
  exact ⟨b, h, rfl⟩

theorem failAt (error : FormatError) (position : Nat) :
    Relaxes relation (failAt error position) lenient := by
  rintro source a rest ⟨⟩

theorem imp {weaker : α → β → Prop} (h : Relaxes relation strict lenient)
    (himp : ∀ a b, relation a b → weaker a b) : Relaxes weaker strict lenient := by
  intro source a rest hok
  obtain ⟨b, hrelated, hlenient⟩ := h source a rest hok
  exact ⟨b, himp a b hrelated, hlenient⟩

theorem bind (h : Relaxes relation strict lenient)
    (hnext : ∀ a b, relation a b → Relaxes last (next a) (other b)) :
    Relaxes last (strict >>= next) (lenient >>= other) := by
  intro source c rest hok
  obtain ⟨a, middle, hstrict, hrest⟩ := exists_of_outcome_bind hok
  obtain ⟨b, hrelated, hlenient⟩ := h source a middle hstrict
  rw [outcome_bind_of_ok hlenient]
  exact hnext a b hrelated middle c rest hrest

theorem bind_eq {lenient : Read α} {other : α → Read δ} (h : Relaxes Eq strict lenient)
    (hnext : ∀ a, Relaxes last (next a) (other a)) :
    Relaxes last (strict >>= next) (lenient >>= other) := by
  refine h.bind ?_
  rintro a _ rfl
  exact hnext a

theorem bind_same (operation : Read α) {other : α → Read δ}
    (hnext : ∀ a, Relaxes last (next a) (other a)) :
    Relaxes last (operation >>= next) (operation >>= other) :=
  (refl operation).bind_eq hnext

theorem ite_failAt {condition : Prop} [Decidable condition] {error : FormatError} {position : Nat}
    (h : Relaxes relation strict lenient) :
    Relaxes relation (if condition then Read.failAt error position else strict) lenient := by
  split
  · exact failAt error position
  · exact h

theorem ite {condition : Prop} [Decidable condition] {strict' : Read α} {lenient' : Read β}
    (h : condition → Relaxes relation strict lenient)
    (hnot : ¬condition → Relaxes relation strict' lenient') :
    Relaxes relation (if condition then strict else strict')
      (if condition then lenient else lenient') := by
  split
  · next htrue => exact h htrue
  · next hfalse => exact hnot hfalse

theorem checked {result result' : Except FormatError α}
    (h : ∀ a, result = .ok a → result' = .ok a) (position : Nat) :
    Relaxes Eq (checked result position) (checked result' position) := by
  cases result with
  | error error => exact failAt error position
  | ok a =>
      rw [h a rfl]
      exact refl _

theorem within (h : Relaxes relation strict lenient) (octets : Octets) (position : Nat) :
    Relaxes relation (within octets position strict) (within octets position lenient) := by
  intro source a rest hok
  rw [outcome_within, Prod.mk.injEq] at hok
  obtain ⟨hok, rfl⟩ := hok
  obtain ⟨b, hrelated, hlenient⟩ := h _ _ _ (Prod.ext hok (Eq.refl (Prod.snd _)))
  exact ⟨b, hrelated, by rw [outcome_within, hlenient]⟩

end Relaxes

end Read

open Read

variable {rules : EncodingRules}

theorem Length.relaxes_read (rules : EncodingRules) : Relaxes Eq (read rules) (read .ber) := by
  refine .bind_same _ fun start => .bind_same _ fun octet => ?_
  simp only [failAt_bind, EncodingRules.isRestricted, Bool.false_eq_true, false_and, if_false]
  refine .ite (fun _ => .refl _) fun _ => .ite (fun _ => .refl _) fun _ =>
    .ite (fun _ => .refl _) fun _ => .bind_same _ fun first => .ite_failAt ?_
  exact .bind_same _ fun size => .ite_failAt (.refl _)

namespace Header

theorem fault?_ber {header : Header} (h : header.fault? rules = none) :
    header.fault? .ber = none := by
  rw [fault?] at h ⊢
  split
  · next hmarker => simpa [hmarker] using h
  · next hmarker =>
    rw [if_neg hmarker] at h
    cases hconstructed : header.isConstructed <;>
      cases hindefinite : header.length.isIndefinite <;>
        simp_all [EncodingRules.allowsIndefiniteConstructed,
          EncodingRules.allowsDefiniteConstructed]

theorem relaxes_read? (rules : EncodingRules) : Relaxes Eq (read? rules) (read? .ber) := by
  refine .bind_same _ fun start => .bind_same _ fun identifier? => ?_
  cases identifier? with
  | none => exact .refl _
  | some identifier =>
      refine (Length.relaxes_read rules).bind_eq fun length => ?_
      simp only
      split
      · exact .failAt _ _
      · next hfault =>
        rw [fault?_ber hfault]
        exact .refl _

theorem relaxes_read (rules : EncodingRules) : Relaxes Eq (read rules) (read .ber) := by
  apply (relaxes_read? rules).bind_eq
  intro _
  exact .refl _

end Header

end Asn1

import Asn1.Proofs.SchemaSteps

/-!
What steps fail with. Whether or not a step succeeds, it keeps an invariant of consistent schemas,
and it fails with none but certain errors. Nothing is said about errors that rule each other out:
a step that is not allowed to fail with any succeeds.
-/

namespace Asn1

open Results Schema

namespace Compile

variable {α β : Type}

/-- Whether a step keeps an invariant of consistent schemas, and fails with allowed errors only. -/
def FailsOnly (invariant pre : Schema → Prop) (allowed : SchemaError → Prop)
    (step : Compile α) : Prop :=
  ∀ before, before.Consistent → invariant before → pre before →
    invariant (step.outcome before).2 ∧
      ∀ error, (step.outcome before).1 = .error error → allowed error

namespace FailsOnly

variable {invariant pre pre' : Schema → Prop} {allowed : SchemaError → Prop} {step : Compile α}
  {post : α → Schema → Prop} {next : α → Compile β}

theorem pure (a : α) : FailsOnly invariant pre allowed (pure a) := by
  refine fun _ _ hinvariant _ => ⟨hinvariant, ?_⟩
  rintro error ⟨⟩

theorem throw {error : SchemaError} (h : ∀ schema, schema.Consistent → invariant schema →
    pre schema → allowed error) : FailsOnly invariant pre allowed (throw error : Compile α) := by
  refine fun before hconsistent hinvariant hpre => ⟨hinvariant, ?_⟩
  rintro _ ⟨⟩
  exact h before hconsistent hinvariant hpre

theorem get : FailsOnly invariant pre allowed get := by
  refine fun _ _ hinvariant _ => ⟨hinvariant, ?_⟩
  rintro error ⟨⟩

theorem ask {question : Schema → Except SchemaError α}
    (h : ∀ schema, schema.Consistent → invariant schema → pre schema →
      ∀ error, question schema = .error error → allowed error) :
    FailsOnly invariant pre allowed (ask question) := by
  intro before hconsistent hinvariant hpre
  rw [outcome_ask]
  exact ⟨hinvariant, h before hconsistent hinvariant hpre⟩

theorem refuse {fault? : Option SchemaError} (h : ∀ error, fault? = some error → allowed error) :
    FailsOnly invariant pre allowed (refuse fault?) := by
  cases fault? with
  | none => exact pure ()
  | some error => exact throw fun _ _ _ _ => h error rfl

theorem imp (h : FailsOnly invariant pre allowed step)
    (hpre : ∀ schema, schema.Consistent → invariant schema → pre' schema → pre schema) :
    FailsOnly invariant pre' allowed step := by
  intro before hconsistent hinvariant hbefore
  exact h before hconsistent hinvariant (hpre before hconsistent hinvariant hbefore)

/-- What follows from the properties of the schema can be assumed. -/
theorem assume (fact : Prop)
    (hfact : ∀ schema, schema.Consistent → invariant schema → pre schema → fact)
    (h : fact → FailsOnly invariant pre allowed step) : FailsOnly invariant pre allowed step := by
  intro before hconsistent hinvariant hpre
  exact h (hfact before hconsistent hinvariant hpre) before hconsistent hinvariant hpre

theorem bind (hkeeps : Keeps pre step post) (h : FailsOnly invariant pre allowed step)
    (hnext : ∀ a, FailsOnly invariant (post a) allowed (next a)) :
    FailsOnly invariant pre allowed (step >>= next) := by
  intro before hconsistent hinvariant hpre
  obtain ⟨-, hafter, hresult⟩ := hkeeps before hconsistent hpre
  obtain ⟨hkept, herrors⟩ := h before hconsistent hinvariant hpre
  rw [outcome_bind]
  rcases hstep : step.outcome before with ⟨error | a, after⟩
  · rw [hstep] at hkept herrors
    refine ⟨hkept, ?_⟩
    rintro _ ⟨⟩
    exact herrors error rfl
  · rw [hstep] at hafter hresult hkept
    exact hnext a after hafter hkept (hresult a rfl)

theorem discard (h : FailsOnly invariant pre allowed step) :
    FailsOnly invariant pre allowed (discard step) := by
  intro before hconsistent hinvariant hpre
  obtain ⟨hkept, herrors⟩ := h before hconsistent hinvariant hpre
  rw [discard_eq_bind, outcome_bind]
  rcases hstep : step.outcome before with ⟨error | a, after⟩
  · rw [hstep] at hkept herrors
    refine ⟨hkept, ?_⟩
    rintro _ ⟨⟩
    exact herrors error rfl
  · rw [hstep] at hkept
    refine ⟨hkept, ?_⟩
    rintro _ ⟨⟩

theorem mapM {f : α → Compile β} {relation : α → β → Prop} {as : List α} (hpre : Persists pre)
    (hkeeps : ∀ a ∈ as, Keeps pre (f a) fun b _ => relation a b)
    (h : ∀ a ∈ as, FailsOnly invariant pre allowed (f a)) :
    FailsOnly invariant pre allowed (as.mapM f) := by
  induction as with
  | nil => exact pure []
  | cons a rest ih =>
      obtain ⟨hkeep, hkeeps⟩ := List.forall_mem_cons.mp hkeeps
      obtain ⟨hfirst, hrest⟩ := List.forall_mem_cons.mp h
      rw [List.mapM_cons]
      have hframed := (hkeep.frame hpre).imp (fun _ hbefore => ⟨hbefore, hbefore⟩) fun _ _ _ => id
      refine bind hframed hfirst fun b => ?_
      refine bind ((Keeps.mapM hpre hkeeps).imp (fun _ hbefore => hbefore.2) fun _ _ _ => id)
        ((ih hkeeps hrest).imp fun _ _ _ hbefore => hbefore.2) fun _ => pure _

end FailsOnly

/-- Whether a step keeps an invariant of consistent schemas, and succeeds if the condition holds. -/
def Runs (invariant pre : Schema → Prop) (condition : Prop) (step : Compile α) : Prop :=
  ∀ before, before.Consistent → invariant before → pre before →
    invariant (step.outcome before).2 ∧ (condition → ∃ a, (step.outcome before).1 = .ok a)

theorem runs_iff_failsOnly {invariant pre : Schema → Prop} {condition : Prop} {step : Compile α} :
    Runs invariant pre condition step ↔ FailsOnly invariant pre (fun _ => ¬condition) step := by
  have hsame (result : Except SchemaError α) :
      (condition → ∃ a, result = .ok a) ↔ ∀ error, result = .error error → ¬condition := by
    cases result <;> simp
  simp only [Runs, FailsOnly, hsame]

namespace Runs

variable {invariant pre pre' : Schema → Prop} {condition : Prop} {step : Compile α}
  {post : α → Schema → Prop} {next : α → Compile β}

theorem failsOnly {allowed : SchemaError → Prop} (h : Runs invariant pre True step) :
    FailsOnly invariant pre allowed step := by
  rw [runs_iff_failsOnly] at h
  intro before hconsistent hinvariant hpre
  obtain ⟨hkept, herrors⟩ := h before hconsistent hinvariant hpre
  exact ⟨hkept, fun error herror => absurd trivial (herrors error herror)⟩

theorem pure (a : α) : Runs invariant pre condition (pure a) := by
  rw [runs_iff_failsOnly]
  exact .pure a

theorem throw (error : SchemaError) (h : ∀ schema, schema.Consistent → invariant schema →
    pre schema → ¬condition) : Runs invariant pre condition (throw error : Compile α) := by
  rw [runs_iff_failsOnly]
  exact .throw h

theorem get : Runs invariant pre condition get := by
  rw [runs_iff_failsOnly]
  exact .get

theorem ask {question : Schema → Except SchemaError α}
    (h : ∀ schema, schema.Consistent → invariant schema → pre schema → condition →
      ∃ a, question schema = .ok a) : Runs invariant pre condition (ask question) := by
  rw [runs_iff_failsOnly]
  refine .ask fun schema hconsistent hinvariant hpre error herror hholds => ?_
  obtain ⟨a, ha⟩ := h schema hconsistent hinvariant hpre hholds
  cases ha.symm.trans herror

theorem refuse {fault? : Option SchemaError} (h : condition → fault? = none) :
    Runs invariant pre condition (refuse fault?) := by
  rw [runs_iff_failsOnly]
  refine .refuse fun error herror hholds => ?_
  cases (h hholds).symm.trans herror

theorem imp (h : Runs invariant pre condition step)
    (hpre : ∀ schema, schema.Consistent → invariant schema → pre' schema → pre schema) :
    Runs invariant pre' condition step := by
  rw [runs_iff_failsOnly] at h ⊢
  exact h.imp hpre

theorem assume (fact : Prop)
    (hfact : ∀ schema, schema.Consistent → invariant schema → pre schema → fact)
    (h : fact → Runs invariant pre condition step) : Runs invariant pre condition step := by
  simp only [runs_iff_failsOnly] at h ⊢
  exact .assume fact hfact h

theorem bind (hkeeps : Keeps pre step post) (h : Runs invariant pre condition step)
    (hnext : ∀ a, Runs invariant (post a) condition (next a)) :
    Runs invariant pre condition (step >>= next) := by
  simp only [runs_iff_failsOnly] at h hnext ⊢
  exact .bind hkeeps h hnext

theorem discard (h : Runs invariant pre condition step) :
    Runs invariant pre condition (discard step) := by
  rw [runs_iff_failsOnly] at h ⊢
  exact h.discard

theorem mapM {f : α → Compile β} {relation : α → β → Prop} {as : List α} (hpre : Persists pre)
    (hkeeps : ∀ a ∈ as, Keeps pre (f a) fun b _ => relation a b)
    (h : ∀ a ∈ as, Runs invariant pre condition (f a)) :
    Runs invariant pre condition (as.mapM f) := by
  simp only [runs_iff_failsOnly] at h ⊢
  exact .mapM hpre hkeeps h

end Runs

end Compile

end Asn1

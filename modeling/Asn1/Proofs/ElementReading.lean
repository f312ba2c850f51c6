import Asn1.Decoding
import Asn1.Proofs.HeaderForms

namespace Asn1

open Read Source

namespace Read

variable {α β : Type} {definite : Bool}

/-- Reading gives `a` and consumes exactly these octets. If the length is definite, nothing may
follow them. -/
def ReadsTo (definite : Bool) (operation : Read α) (position : Nat) (octets : Octets) (a : α) :
    Prop :=
  ∀ rest, (definite = true → rest = []) → operation.outcome (ofOctets (octets ++ rest) position) =
    (.ok a, ofOctets rest (position + octets.length))

/-- An operation that is local and, if the length is definite, consumes all octets. -/
def IsLocalTo (definite : Bool) (operation : Read α) : Prop :=
  ∀ octets position a source, operation.outcome (ofOctets octets position) = (.ok a, source) →
    ∃ consumed rest, octets = consumed ++ rest ∧
      source = ofOctets rest (position + consumed.length) ∧ (definite = true → rest = []) ∧
        operation.ReadsTo definite position consumed a

theorem ReadsTo.outcome_nil {operation : Read α} {position : Nat} {octets : Octets} {a : α}
    (h : operation.ReadsTo definite position octets a) :
    operation.outcome (ofOctets octets position) =
      (.ok a, ofOctets [] (position + octets.length)) := by
  simpa using h [] fun _ => rfl

theorem readsTo_false_iff {operation : Read α} {position : Nat} {octets : Octets} {a : α} :
    operation.ReadsTo false position octets a ↔ operation.Reads position octets a := by
  constructor
  · intro h rest
    exact h rest (by simp)
  · intro h rest _
    exact h rest

theorem isLocalTo_false_iff {operation : Read α} :
    operation.IsLocalTo false ↔ operation.IsLocal := by
  simp [IsLocalTo, IsLocal, readsTo_false_iff]

/-- What an operation reads, said by what comes of it on all sources. -/
theorem readsTo_iff_of_outcome {operation : Read α} {p : Nat → Octets → α → Prop}
    (h : ∀ octets position a source,
      operation.outcome (ofOctets octets position) = (.ok a, source) ↔
        ∃ consumed rest, octets = consumed ++ rest ∧
          source = ofOctets rest (position + consumed.length) ∧ (definite = true → rest = []) ∧
            p position consumed a) {position : Nat} {octets : Octets} {a : α} :
    operation.ReadsTo definite position octets a ↔ p position octets a := by
  constructor
  · intro hreads
    obtain ⟨consumed, rest, rfl, hsource, -, hproperty⟩ := (h _ _ _ _).mp hreads.outcome_nil
    obtain ⟨rfl, -⟩ := ofOctets_inj.mp hsource
    simpa using hproperty
  · intro hproperty rest hrest
    exact (h _ _ _ _).mpr ⟨octets, rest, rfl, rfl, hrest, hproperty⟩

theorem isLocalTo_of_outcome {operation : Read α} {p : Nat → Octets → α → Prop}
    (h : ∀ octets position a source,
      operation.outcome (ofOctets octets position) = (.ok a, source) ↔
        ∃ consumed rest, octets = consumed ++ rest ∧
          source = ofOctets rest (position + consumed.length) ∧ (definite = true → rest = []) ∧
            p position consumed a) : operation.IsLocalTo definite := by
  intro octets position a source hok
  obtain ⟨consumed, rest, hoctets, hsource, hrest, hproperty⟩ := (h _ _ _ _).mp hok
  exact ⟨consumed, rest, hoctets, hsource, hrest, (readsTo_iff_of_outcome h).mpr hproperty⟩

theorem IsLocal.bind_to {operation : Read α} {next : α → Read β} (h : operation.IsLocal)
    (hnext : ∀ a, (next a).IsLocalTo definite) : (operation >>= next).IsLocalTo definite := by
  intro octets position b source hok
  obtain ⟨a, middle, hfirst, hsecond⟩ := exists_of_outcome_bind hok
  obtain ⟨c, _, rfl, rfl, hc⟩ := h _ _ _ _ hfirst
  obtain ⟨d, rest, rfl, rfl, hrest, hd⟩ := hnext a _ _ _ _ hsecond
  refine ⟨c ++ d, rest, by simp, by simp [Nat.add_assoc], hrest, ?_⟩
  intro after hafter
  rw [List.append_assoc, outcome_bind_of_ok (hc (d ++ after)), hd after hafter]
  simp [Nat.add_assoc]

theorem IsLocalTo.bind {operation : Read α} {next : α → Read β} (h : operation.IsLocalTo definite)
    (hnext : ∀ a, (next a).IsLocal) : (operation >>= next).IsLocalTo definite := by
  intro octets position b source hok
  obtain ⟨a, middle, hfirst, hsecond⟩ := exists_of_outcome_bind hok
  obtain ⟨c, left, rfl, rfl, hleft, hc⟩ := h _ _ _ _ hfirst
  obtain ⟨d, rest, rfl, rfl, hd⟩ := hnext a _ _ _ _ hsecond
  have hnil (hdefinite : definite = true) : d = [] ∧ rest = [] :=
    List.append_eq_nil_iff.mp (hleft hdefinite)
  refine ⟨c ++ d, rest, by simp, by simp [Nat.add_assoc], fun hdefinite => (hnil hdefinite).2, ?_⟩
  intro after hafter
  have hmiddle (hdefinite : definite = true) : d ++ after = [] := by
    rw [(hnil hdefinite).1, hafter hdefinite, List.append_nil]
  rw [List.append_assoc, outcome_bind_of_ok (hc (d ++ after) hmiddle), hd after]
  simp [Nat.add_assoc]

theorem ReadsTo.bind {operation : Read α} {next : α → Read β} {position : Nat} {octets : Octets}
    {a : α} {b : β} (h : operation.ReadsTo definite position octets a)
    (hnext : (next a).Reads (position + octets.length) [] b) :
    (operation >>= next).ReadsTo definite position octets b := by
  intro rest hrest
  rw [outcome_bind_of_ok (h rest hrest)]
  exact hnext rest

theorem readsTo_map_iff {operation : Read α} (hlocal : operation.IsLocalTo definite) {f : α → β}
    {position : Nat} {octets : Octets} {b : β} :
    (operation >>= fun a => pure (f a)).ReadsTo definite position octets b ↔
      ∃ a, operation.ReadsTo definite position octets a ∧ b = f a := by
  constructor
  · intro h
    obtain ⟨a, middle, hfirst, hsecond⟩ := exists_of_outcome_bind h.outcome_nil
    obtain ⟨c, rest, rfl, rfl, -, hc⟩ := hlocal _ _ _ _ hfirst
    rw [outcome_pure] at hsecond
    obtain ⟨hb, hsource⟩ := Prod.mk.injEq .. ▸ hsecond
    obtain ⟨rfl, -⟩ := ofOctets_inj.mp hsource
    exact ⟨a, by simpa using hc, by simpa using hb.symm⟩
  · rintro ⟨a, h, rfl⟩
    exact h.bind (reads_pure_iff.mpr ⟨rfl, rfl⟩)

end Read

/-- Whether the octets end constructed content: none if the length is definite, and otherwise the
end-of-contents marker. -/
def IsEnd (rules : EncodingRules) (definite : Bool) (position : Nat) (octets : Octets) : Prop :=
  if definite = true then octets = []
  else ∃ header, Header.IsForm rules position octets header ∧ header.isEndOfContents = true

variable {rules : EncodingRules} {definite : Bool}

theorem outcome_nextHeader?_eq_some_iff {octets : Octets} {position : Nat} {header : Header}
    {source : Source} :
    (nextHeader? rules definite).outcome (ofOctets octets position) = (.ok (some header), source) ↔
      ∃ c rest, octets = c ++ rest ∧ source = ofOctets rest (position + c.length) ∧
        Header.IsForm rules position c header ∧ header.isEndOfContents = false := by
  rw [nextHeader?, outcome_bind_of_ok (outcome_position _)]
  constructor
  · intro h
    obtain ⟨found, middle, hfound, hlast⟩ := exists_of_outcome_bind h
    rcases found with _ | found
    · cases definite <;> simp at hlast
    · obtain ⟨c, rest, rfl, rfl, hform⟩ := Header.outcome_read?_eq_some_iff.mp hfound
      cases hend : found.isEndOfContents with
      | true => cases definite <;> simp [hend] at hlast
      | false =>
          simp only [hend, Bool.false_eq_true, if_false, outcome_pure, Prod.mk.injEq,
            Except.ok.injEq, Option.some.injEq] at hlast
          obtain ⟨rfl, rfl⟩ := hlast
          exact ⟨c, rest, rfl, rfl, hform, hend⟩
  · rintro ⟨c, rest, rfl, rfl, hform, hend⟩
    rw [outcome_bind_of_ok (Header.outcome_read?_eq_some_iff.mpr ⟨c, rest, rfl, rfl, hform⟩)]
    simp [hend]

theorem outcome_nextHeader?_eq_none_iff {octets : Octets} {position : Nat} {source : Source} :
    (nextHeader? rules definite).outcome (ofOctets octets position) = (.ok none, source) ↔
      ∃ c rest, octets = c ++ rest ∧ source = ofOctets rest (position + c.length) ∧
        (definite = true → rest = []) ∧ IsEnd rules definite position c := by
  rw [nextHeader?, outcome_bind_of_ok (outcome_position _)]
  constructor
  · intro h
    obtain ⟨found, middle, hfound, hlast⟩ := exists_of_outcome_bind h
    rcases found with _ | found
    · obtain ⟨rfl, rfl⟩ := Header.outcome_read?_eq_none_iff.mp hfound
      cases definite with
      | false => simp at hlast
      | true => exact ⟨[], [], rfl, by simpa using hlast.symm, fun _ => rfl, rfl⟩
    · obtain ⟨c, rest, rfl, rfl, hform⟩ := Header.outcome_read?_eq_some_iff.mp hfound
      cases hend : found.isEndOfContents with
      | false => simp [hend] at hlast
      | true =>
          cases definite with
          | true => simp [hend] at hlast
          | false =>
              exact ⟨c, rest, rfl, by simpa [hend] using hlast.symm, by simp, found, hform, hend⟩
  · rintro ⟨c, rest, rfl, rfl, hrest, hend⟩
    cases definite with
    | true =>
        obtain rfl : c = [] := hend
        obtain rfl := hrest rfl
        rw [List.append_nil, outcome_bind_of_ok (Header.outcome_read?_eq_none_iff.mpr ⟨rfl, rfl⟩)]
        rfl
    | false =>
        obtain ⟨header, hform, hheader⟩ := hend
        rw [outcome_bind_of_ok
          (Header.outcome_read?_eq_some_iff.mpr ⟨c, rest, rfl, rfl, hform⟩)]
        simp [hheader]

section Elements

variable {σ α : Type} {readElement : σ → Header → Read (α × σ)}

/-- The elements that constructed content consists of, each with the octets of its header and those
that are read by means of the state left by the element before. -/
inductive ReadsElements (rules : EncodingRules) (definite : Bool)
    (readElement : σ → Header → Read (α × σ)) : Nat → σ → Octets → List α → Prop
  | nil {position : Nat} {state : σ} {mark : Octets} (hend : IsEnd rules definite position mark) :
    ReadsElements rules definite readElement position state mark []
  | cons {position : Nat} {state next : σ} {form content octets : Octets} {header : Header} {a : α}
    {results : List α} (hform : Header.IsForm rules position form header)
    (hheader : header.isEndOfContents = false)
    (helement : (readElement state header).Reads (position + form.length) content (a, next))
    (hrest : ReadsElements rules definite readElement (position + form.length + content.length) next
      octets results) :
    ReadsElements rules definite readElement position state (form ++ (content ++ octets))
      (a :: results)

theorem ReadsElements.length_le {position : Nat} {state : σ} {octets : Octets} {results : List α}
    (h : ReadsElements rules definite readElement position state octets results) :
    results.length ≤ octets.length := by
  induction h with
  | nil => exact Nat.zero_le _
  | cons hform _ _ _ ih =>
      have := List.length_pos_iff.mpr hform.ne_nil
      simp only [List.length_append, List.length_cons]
      omega

theorem ReadsElements.exists_of_mem {position : Nat} {state : σ} {octets : Octets}
    {results : List α}
    (h : ReadsElements rules definite readElement position state octets results) {a : α}
    (ha : a ∈ results) : ∃ start form header content before after,
      Header.IsForm rules start form header ∧ header.isEndOfContents = false ∧
        (readElement before header).Reads (start + form.length) content (a, after) := by
  induction h with
  | nil => simp at ha
  | cons hform hheader helement _ ih =>
      rcases List.mem_cons.mp ha with rfl | ha
      · exact ⟨_, _, _, _, _, _, hform, hheader, helement⟩
      · exact ih ha

theorem outcome_readElementsWithin_iff (hlocal : ∀ state header, (readElement state header).IsLocal)
    {count : Nat} {state : σ} {octets : Octets} {position : Nat} {results : List α}
    {source : Source} :
    (readElementsWithin rules definite readElement count state).outcome
        (ofOctets octets position) = (.ok results, source) ↔
      ∃ c rest, octets = c ++ rest ∧ source = ofOctets rest (position + c.length) ∧
        (definite = true → rest = []) ∧
          (results.length < count ∧
            ReadsElements rules definite readElement position state c results) := by
  induction count generalizing state octets position results source with
  | zero =>
      rw [readElementsWithin, outcome_bind_of_ok (outcome_position _)]
      simp
  | succ count ih =>
      rw [readElementsWithin]
      constructor
      · intro h
        obtain ⟨found, middle, hfound, hlast⟩ := exists_of_outcome_bind h
        rcases found with _ | header
        · obtain ⟨c, rest, rfl, rfl, hrest, hend⟩ := outcome_nextHeader?_eq_none_iff.mp hfound
          simp only [outcome_pure, Prod.mk.injEq, Except.ok.injEq] at hlast
          obtain ⟨rfl, rfl⟩ := hlast
          exact ⟨c, rest, rfl, rfl, hrest, Nat.succ_pos _, .nil hend⟩
        · obtain ⟨c, rest, rfl, rfl, hform, hheader⟩ :=
            outcome_nextHeader?_eq_some_iff.mp hfound
          obtain ⟨⟨a, next⟩, middle, helement, hlast⟩ := exists_of_outcome_bind hlast
          obtain ⟨d, rest, rfl, rfl, hcontent⟩ := hlocal _ _ _ _ _ _ helement
          obtain ⟨others, middle, hothers, hlast⟩ := exists_of_outcome_bind hlast
          obtain ⟨e, rest, rfl, rfl, hrest, hcount, hothers⟩ := ih.mp hothers
          simp only [outcome_pure, Prod.mk.injEq, Except.ok.injEq] at hlast
          obtain ⟨rfl, rfl⟩ := hlast
          refine ⟨c ++ (d ++ e), rest, by simp, ?_, hrest, by simpa using hcount,
            .cons hform hheader hcontent hothers⟩
          simp [Nat.add_assoc]
      · rintro ⟨c, rest, rfl, rfl, hrest, hcount, helements⟩
        cases helements with
        | nil hend =>
            rw [outcome_bind_of_ok
              (outcome_nextHeader?_eq_none_iff.mpr ⟨c, rest, rfl, rfl, hrest, hend⟩)]
            rfl
        | @cons _ _ next form content octets header a results hform hheader helement hothers =>
            have hnext : (readElementsWithin rules definite readElement count next).outcome
                (ofOctets (octets ++ rest) (position + form.length + content.length)) =
                  (.ok results, ofOctets rest
                    (position + form.length + content.length + octets.length)) :=
              ih.mpr ⟨octets, rest, rfl, rfl, hrest, by simpa using hcount, hothers⟩
            rw [outcome_bind_of_ok (outcome_nextHeader?_eq_some_iff.mpr
              ⟨form, content ++ octets ++ rest, by simp, rfl, hform, hheader⟩)]
            simp only [List.append_assoc]
            rw [outcome_bind_of_ok (helement _)]
            simp only
            rw [outcome_bind_of_ok hnext]
            simp [Nat.add_assoc]

/-- The bound on the number of elements is never reached. -/
theorem outcome_readElements_iff (hlocal : ∀ state header, (readElement state header).IsLocal)
    {state : σ} {octets : Octets} {position : Nat} {results : List α} {source : Source} :
    (readElements rules definite readElement state).outcome (ofOctets octets position) =
        (.ok results, source) ↔
      ∃ c rest, octets = c ++ rest ∧ source = ofOctets rest (position + c.length) ∧
        (definite = true → rest = []) ∧
          ReadsElements rules definite readElement position state c results := by
  have hget : (readElements rules definite readElement state).outcome (ofOctets octets position) =
      (readElementsWithin rules definite readElement (octets.length + 1) state).outcome
        (ofOctets octets position) := by
    rw [← available_ofOctets octets position]
    rfl
  rw [hget, outcome_readElementsWithin_iff hlocal]
  constructor
  · rintro ⟨c, rest, hoctets, hsource, hrest, -, helements⟩
    exact ⟨c, rest, hoctets, hsource, hrest, helements⟩
  · rintro ⟨c, rest, rfl, hsource, hrest, helements⟩
    have hlength := helements.length_le
    exact ⟨c, rest, rfl, hsource, hrest, by rw [List.length_append]; omega, helements⟩

theorem isLocalTo_readElements (hlocal : ∀ state header, (readElement state header).IsLocal)
    (state : σ) : (readElements rules definite readElement state).IsLocalTo definite := by
  apply isLocalTo_of_outcome
  intro _ _ _ _
  exact outcome_readElements_iff hlocal

theorem readsTo_readElements_iff (hlocal : ∀ state header, (readElement state header).IsLocal)
    {state : σ} {octets : Octets} {position : Nat} {results : List α} :
    (readElements rules definite readElement state).ReadsTo definite position octets results ↔
      ReadsElements rules definite readElement position state octets results := by
  apply readsTo_iff_of_outcome
    (p := fun position => ReadsElements rules definite readElement position state)
  intro _ _ _ _
  exact outcome_readElements_iff hlocal

end Elements

section Constructed

variable {α : Type} {header : Header} {readContent : Bool → Read α}

theorem isLocal_readConstructed (hlocal : ∀ definite, (readContent definite).IsLocalTo definite) :
    (readConstructed header readContent).IsLocal := by
  rw [readConstructed]
  refine IsLocal.ite ?_ (isLocal_failAt _ _)
  cases header.length with
  | definite size =>
      exact isLocal_position.bind fun start => (isLocal_takeOctets _).bind fun octets =>
        isLocal_within octets start _
  | indefinite => exact isLocalTo_false_iff.mp (hlocal false)

theorem reads_readConstructed_iff
    (hlocal : ∀ definite, (readContent definite).IsLocalTo definite) {position : Nat}
    {octets : Octets} {a : α} :
    (readConstructed header readContent).Reads position octets a ↔
      header.isConstructed = true ∧
        (∀ size, header.length = .definite size → octets.length = size) ∧
        (readContent !header.length.isIndefinite).ReadsTo (!header.length.isIndefinite) position
          octets a := by
  rw [readConstructed]
  simp only [failAt_bind, reads_ite_else_failAt_iff]
  refine and_congr_right fun _ => ?_
  cases hlength : header.length with
  | indefinite => simp [Length.isIndefinite, readsTo_false_iff]
  | definite size =>
      have hcontent (inner : Octets) : (readContent true).ReadsTo true position inner a ↔
          ((readContent true).outcome (ofOctets inner position)).1 = .ok a := by
        constructor
        · intro h
          rw [h.outcome_nil]
        · intro h
          obtain ⟨c, rest, rfl, -, hrest, hc⟩ := hlocal true _ _ _ _ (Prod.ext h rfl)
          rw [hrest rfl, List.append_nil]
          exact hc
      simp only [reads_position_bind_iff]
      rw [reads_bind_iff (isLocal_takeOctets _) fun octets => isLocal_within octets _ _]
      simp only [reads_takeOctets_iff, reads_within_iff, ← hcontent]
      constructor
      · rintro ⟨c, d, found, rfl, ⟨rfl, rfl⟩, rfl, h⟩
        simpa [Length.isIndefinite] using h
      · rintro ⟨hsize, h⟩
        exact ⟨octets, [], octets, by simp, ⟨hsize size rfl, rfl⟩, rfl, h⟩

end Constructed

end Asn1

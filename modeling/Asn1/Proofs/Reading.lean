import Asn1.Source

/-!
Reading from octets in memory. An operation is local if what it does when it succeeds depends on
the octets that it consumes only. Local operations are described by what they read, and put
together by joining the octets that their parts read.
-/

namespace Asn1

open Source

namespace Read

variable {α β : Type}

/-- What an operation gives, together with the source that it leaves behind. -/
def outcome (operation : Read α) (source : Source) : Except DecodeError α × Source :=
  operation.run source

@[simp]
theorem outcome_pure (a : α) (source : Source) :
    (pure a : Read α).outcome source = (.ok a, source) :=
  rfl

theorem outcome_bind (operation : Read α) (next : α → Read β) (source : Source) :
    (operation >>= next).outcome source =
      match operation.outcome source with
      | (.ok a, rest) => (next a).outcome rest
      | (.error error, rest) => (.error error, rest) := by
  change (ExceptT.bindCont next (operation.outcome source).1).run (operation.outcome source).2 = _
  rcases operation.outcome source with ⟨_ | _, rest⟩ <;> rfl

theorem outcome_bind_of_ok {operation : Read α} {next : α → Read β} {source rest : Source} {a : α}
    (h : operation.outcome source = (.ok a, rest)) :
    (operation >>= next).outcome source = (next a).outcome rest := by
  rw [outcome_bind, h]

theorem exists_of_outcome_bind {operation : Read α} {next : α → Read β} {source last : Source}
    {b : β} (h : (operation >>= next).outcome source = (.ok b, last)) :
    ∃ a rest, operation.outcome source = (.ok a, rest) ∧
      (next a).outcome rest = (.ok b, last) := by
  rw [outcome_bind] at h
  rcases hop : operation.outcome source with ⟨error | a, rest⟩
  · simp [hop] at h
  · exact ⟨a, rest, rfl, by simpa [hop] using h⟩

theorem discard_eq_bind (operation : Read α) :
    discard operation = (operation >>= fun _ => pure ()) := by
  rw [← map_eq_pure_bind]
  rfl

theorem outcome_discard_of_ok {operation : Read α} {source rest : Source} {a : α}
    (h : operation.outcome source = (.ok a, rest)) :
    (discard operation).outcome source = (.ok (), rest) := by
  rw [discard_eq_bind, outcome_bind_of_ok h]
  rfl

theorem exists_of_outcome_discard {operation : Read α} {source rest : Source}
    (h : (discard operation).outcome source = (.ok (), rest)) :
    ∃ a, operation.outcome source = (.ok a, rest) := by
  rw [discard_eq_bind] at h
  obtain ⟨a, last, ha, hlast⟩ := exists_of_outcome_bind h
  obtain rfl : last = rest := congrArg Prod.snd hlast
  exact ⟨a, ha⟩

@[simp]
theorem outcome_failAt (error : FormatError) (position : Nat) (source : Source) :
    (failAt error position : Read α).outcome source = (.error (.format error position), source) :=
  rfl

@[simp]
theorem outcome_position (source : Source) :
    position.outcome source = (.ok source.position, source) :=
  rfl

end Read

namespace Source

@[simp]
theorem position_ofOctets (octets : Octets) (position : Nat) :
    (ofOctets octets position).position = position :=
  rfl

@[simp]
theorem available_ofOctets (octets : Octets) (position : Nat) :
    (ofOctets octets position).available = octets.length := by
  simp [ofOctets, available]

theorem ofOctets_inj {a b : Octets} {p q : Nat} : ofOctets a p = ofOctets b q ↔ a = b ∧ p = q := by
  constructor
  · intro h
    exact ⟨congrArg buffered h, congrArg Source.position h⟩
  · rintro ⟨rfl, rfl⟩
    rfl

@[simp]
theorem fill_ofOctets (count : Nat) (octets : Octets) (position : Nat) :
    (ofOctets octets position).fill count = ofOctets octets position := by
  rw [fill]
  split
  · rfl
  · cases hmissing : count - ((ofOctets octets position).buffered.take count).length with
    | zero => contradiction
    | succ missing => simp [ofOctets, Reader.pull]

theorem skip_ofOctets {octets : Octets} {count : Nat} (h : count ≤ octets.length) (position : Nat) :
    (ofOctets octets position).skip count = ofOctets (octets.drop count) (position + count) := by
  simp only [ofOctets, skip, List.length_drop, Source.mk.injEq, true_and]
  omega

end Source

namespace Read

variable {α β : Type}

theorem outcome_request (count : Nat) (octets : Octets) (position : Nat) :
    (request count).outcome (ofOctets octets position) =
      (.ok (octets.take count), ofOctets octets position) := by
  have hget : (get : Read Source).outcome (ofOctets octets position) =
      (.ok (ofOctets octets position), ofOctets octets position) := rfl
  rw [request, outcome_bind_of_ok hget, fill_ofOctets]
  rfl

theorem outcome_consume (count : Nat) (source : Source) :
    (consume count).outcome source = (.ok (), source.skip count) :=
  rfl

theorem outcome_takeOctet?_nil (position : Nat) :
    takeOctet?.outcome (ofOctets [] position) = (.ok none, ofOctets [] position) := by
  rw [takeOctet?, outcome_bind_of_ok (outcome_request 1 [] position)]
  rfl

theorem outcome_takeOctet?_cons (octet : UInt8) (rest : Octets) (position : Nat) :
    takeOctet?.outcome (ofOctets (octet :: rest) position) =
      (.ok (some octet), ofOctets rest (position + 1)) := by
  rw [takeOctet?, outcome_bind_of_ok (outcome_request 1 _ position)]
  change (consume 1 >>= fun _ => pure (some octet)).outcome _ = _
  rw [outcome_bind_of_ok (outcome_consume 1 _), skip_ofOctets (by simp)]
  rfl

theorem outcome_takeOctet_nil (position : Nat) :
    takeOctet.outcome (ofOctets [] position) =
      (.error (.format .truncated position), ofOctets [] position) := by
  rw [takeOctet, outcome_bind_of_ok (outcome_takeOctet?_nil position)]
  rfl

theorem outcome_takeOctet_cons (octet : UInt8) (rest : Octets) (position : Nat) :
    takeOctet.outcome (ofOctets (octet :: rest) position) =
      (.ok octet, ofOctets rest (position + 1)) := by
  rw [takeOctet, outcome_bind_of_ok (outcome_takeOctet?_cons octet rest position)]
  rfl

theorem outcome_isExhausted (octets : Octets) (position : Nat) :
    isExhausted.outcome (ofOctets octets position) =
      (.ok octets.isEmpty, ofOctets octets position) := by
  rw [isExhausted, outcome_bind_of_ok (outcome_request 1 octets position)]
  cases octets <;> rfl

theorem outcome_takeOctets {count : Nat} {octets : Octets} (h : count ≤ octets.length)
    (position : Nat) :
    (takeOctets count).outcome (ofOctets octets position) =
      (.ok (octets.take count), ofOctets (octets.drop count) (position + count)) := by
  have hexact : (requestExactly count).outcome (ofOctets octets position) =
      (.ok (octets.take count), ofOctets octets position) := by
    rw [requestExactly, outcome_bind_of_ok (outcome_request count octets position),
      if_neg (by simp [h])]
    rfl
  rw [takeOctets, outcome_bind_of_ok hexact, outcome_bind_of_ok (outcome_consume count _),
    skip_ofOctets h]
  rfl

theorem outcome_takeOctets_of_lt {count : Nat} {octets : Octets} (h : octets.length < count)
    (position : Nat) :
    (takeOctets count).outcome (ofOctets octets position) =
      (.error (.format .truncated position), ofOctets octets position) := by
  have hexact : (requestExactly count).outcome (ofOctets octets position) =
      (.error (.format .truncated position), ofOctets octets position) := by
    rw [requestExactly, outcome_bind_of_ok (outcome_request count octets position),
      if_pos (by rw [List.length_take]; omega)]
    rfl
  rw [takeOctets, outcome_bind, hexact]

/-- Reading gives `a` and consumes exactly these octets, whatever follows them. -/
def Reads (operation : Read α) (position : Nat) (octets : Octets) (a : α) : Prop :=
  ∀ rest, operation.outcome (ofOctets (octets ++ rest) position) =
    (.ok a, ofOctets rest (position + octets.length))

/-- What an operation does when it succeeds depends on the octets that it consumes only. -/
def IsLocal (operation : Read α) : Prop :=
  ∀ octets position a source, operation.outcome (ofOctets octets position) = (.ok a, source) →
    ∃ consumed rest, octets = consumed ++ rest ∧
      source = ofOctets rest (position + consumed.length) ∧ operation.Reads position consumed a

theorem Reads.outcome_nil {operation : Read α} {position : Nat} {octets : Octets} {a : α}
    (h : operation.Reads position octets a) :
    operation.outcome (ofOctets octets position) =
      (.ok a, ofOctets [] (position + octets.length)) := by
  simpa using h []

theorem IsLocal.reads_iff {operation : Read α} (h : operation.IsLocal) {position : Nat}
    {octets : Octets} {a : α} :
    operation.Reads position octets a ↔ operation.outcome (ofOctets octets position) =
      (.ok a, ofOctets [] (position + octets.length)) := by
  constructor
  · exact Reads.outcome_nil
  · intro houtcome
    obtain ⟨consumed, rest, rfl, hsource, hreads⟩ := h _ _ _ _ houtcome
    obtain ⟨rfl, -⟩ := ofOctets_inj.mp hsource
    simpa using hreads

theorem Reads.unique {operation : Read α} {position : Nat} {c d restc restd : Octets} {a b : α}
    (hc : operation.Reads position c a) (hd : operation.Reads position d b)
    (h : c ++ restc = d ++ restd) : c = d ∧ restc = restd ∧ a = b := by
  have heq := (hc restc).symm.trans (h ▸ hd restd)
  obtain ⟨ha, hsource⟩ := Prod.mk.injEq .. ▸ heq
  obtain ⟨rfl, -⟩ := ofOctets_inj.mp hsource
  exact ⟨List.append_cancel_right h, rfl, by simpa using ha⟩

@[simp]
theorem reads_pure_iff {a b : α} {position : Nat} {octets : Octets} :
    (pure a : Read α).Reads position octets b ↔ octets = [] ∧ b = a := by
  constructor
  · intro h
    have heq := h.outcome_nil
    rw [outcome_pure] at heq
    obtain ⟨ha, hsource⟩ := Prod.mk.injEq .. ▸ heq
    exact ⟨(ofOctets_inj.mp hsource).1, by simpa using ha.symm⟩
  · rintro ⟨rfl, rfl⟩ rest
    rfl

theorem isLocal_pure (a : α) : (pure a : Read α).IsLocal := by
  intro octets position b source h
  rw [outcome_pure] at h
  obtain ⟨ha, hsource⟩ := Prod.mk.injEq .. ▸ h
  obtain rfl : a = b := by simpa using ha
  exact ⟨[], octets, rfl, hsource.symm, by simp⟩

theorem isLocal_failAt (error : FormatError) (at' : Nat) :
    (failAt error at' : Read α).IsLocal := by
  intro octets position a source h
  simp at h

@[simp]
theorem not_reads_failAt {error : FormatError} {at' position : Nat} {octets : Octets} {a : α} :
    ¬(failAt error at' : Read α).Reads position octets a := by
  intro h
  simpa using h []

theorem isLocal_position : position.IsLocal := by
  intro octets p a source h
  rw [outcome_position] at h
  obtain ⟨ha, rfl⟩ := Prod.mk.injEq .. ▸ h
  obtain rfl : p = a := by simpa using ha
  exact ⟨[], octets, rfl, rfl, fun rest => rfl⟩

theorem isLocal_checked (result : Except FormatError α) (at' : Nat) :
    (checked result at').IsLocal := by
  cases result with
  | error error => exact isLocal_failAt error at'
  | ok a => exact isLocal_pure a

@[simp]
theorem reads_checked_iff {result : Except FormatError α} {at' position : Nat} {octets : Octets}
    {a : α} : (checked result at').Reads position octets a ↔ octets = [] ∧ result = .ok a := by
  cases result with
  | error error => simp [checked]
  | ok b => simp [checked, eq_comm]

@[simp]
theorem failAt_bind (error : FormatError) (at' : Nat) (next : α → Read β) :
    failAt error at' >>= next = failAt error at' :=
  rfl

theorem IsLocal.ite {condition : Prop} [Decidable condition] {operation other : Read α}
    (h : operation.IsLocal) (hother : other.IsLocal) :
    (if condition then operation else other).IsLocal := by
  split
  · exact h
  · exact hother

@[simp]
theorem reads_ite_failAt_iff {condition : Prop} [Decidable condition] {error : FormatError}
    {at' position : Nat} {operation : Read α} {octets : Octets} {a : α} :
    (if condition then failAt error at' else operation).Reads position octets a ↔
      ¬condition ∧ operation.Reads position octets a := by
  split
  · next h => simp [h]
  · next h => simp [h]

@[simp]
theorem reads_ite_else_failAt_iff {condition : Prop} [Decidable condition] {error : FormatError}
    {at' position : Nat} {operation : Read α} {octets : Octets} {a : α} :
    (if condition then operation else failAt error at').Reads position octets a ↔
      condition ∧ operation.Reads position octets a := by
  split
  · next h => simp [h]
  · next h => simp [h]

theorem IsLocal.bind {operation : Read α} {next : α → Read β} (h : operation.IsLocal)
    (hnext : ∀ a, (next a).IsLocal) : (operation >>= next).IsLocal := by
  intro octets position b source hok
  obtain ⟨a, middle, hfirst, hsecond⟩ := exists_of_outcome_bind hok
  obtain ⟨c, _, rfl, rfl, hc⟩ := h _ _ _ _ hfirst
  obtain ⟨d, rest, rfl, rfl, hd⟩ := hnext a _ _ _ _ hsecond
  refine ⟨c ++ d, rest, by simp, by simp [Nat.add_assoc], ?_⟩
  intro after
  rw [List.append_assoc, outcome_bind_of_ok (hc (d ++ after)), hd after]
  simp [Nat.add_assoc]

theorem Reads.bind {operation : Read α} {next : α → Read β} {position : Nat} {c d : Octets} {a : α}
    {b : β} (h : operation.Reads position c a) (hnext : (next a).Reads (position + c.length) d b) :
    (operation >>= next).Reads position (c ++ d) b := by
  intro rest
  rw [List.append_assoc, outcome_bind_of_ok (h (d ++ rest)), hnext rest]
  simp [Nat.add_assoc]

theorem reads_bind_iff {operation : Read α} {next : α → Read β} (h : operation.IsLocal)
    (hnext : ∀ a, (next a).IsLocal) {position : Nat} {octets : Octets} {b : β} :
    (operation >>= next).Reads position octets b ↔
      ∃ c d a, octets = c ++ d ∧ operation.Reads position c a ∧
        (next a).Reads (position + c.length) d b := by
  constructor
  · intro hreads
    obtain ⟨a, middle, hfirst, hsecond⟩ := exists_of_outcome_bind hreads.outcome_nil
    obtain ⟨c, d, rfl, rfl, hc⟩ := h _ _ _ _ hfirst
    refine ⟨c, d, a, rfl, hc, ?_⟩
    rw [(hnext a).reads_iff, hsecond]
    simp [Nat.add_assoc]
  · rintro ⟨c, d, a, rfl, hc, hd⟩
    exact hc.bind hd

theorem isLocal_takeOctet : takeOctet.IsLocal := by
  intro octets position a source h
  rcases octets with _ | ⟨octet, rest⟩
  · simp [outcome_takeOctet_nil] at h
  · rw [outcome_takeOctet_cons] at h
    obtain ⟨ha, rfl⟩ := Prod.mk.injEq .. ▸ h
    obtain rfl : octet = a := by simpa using ha
    exact ⟨[octet], rest, rfl, rfl, fun after => outcome_takeOctet_cons octet after position⟩

@[simp]
theorem reads_takeOctet_iff {position : Nat} {octets : Octets} {octet : UInt8} :
    takeOctet.Reads position octets octet ↔ octets = [octet] := by
  constructor
  · intro h
    have hok := h.outcome_nil
    rcases octets with _ | ⟨first, rest⟩
    · simp [outcome_takeOctet_nil] at hok
    · rw [outcome_takeOctet_cons] at hok
      obtain ⟨ha, hsource⟩ := Prod.mk.injEq .. ▸ hok
      obtain ⟨rfl, -⟩ := ofOctets_inj.mp hsource
      simpa using ha
  · rintro rfl rest
    exact outcome_takeOctet_cons octet rest position

theorem reads_position_bind_iff {next : Nat → Read β} {p : Nat} {octets : Octets} {b : β} :
    (position >>= next).Reads p octets b ↔ (next p).Reads p octets b :=
  Iff.rfl

theorem reads_takeOctet_bind_iff {next : UInt8 → Read β} (hnext : ∀ octet, (next octet).IsLocal)
    {position : Nat} {octets : Octets} {b : β} :
    (takeOctet >>= next).Reads position octets b ↔
      ∃ octet rest, octets = octet :: rest ∧ (next octet).Reads (position + 1) rest b := by
  rw [reads_bind_iff isLocal_takeOctet hnext]
  constructor
  · rintro ⟨c, d, octet, rfl, hc, hd⟩
    obtain rfl := reads_takeOctet_iff.mp hc
    exact ⟨octet, d, rfl, hd⟩
  · rintro ⟨octet, rest, rfl, hrest⟩
    exact ⟨[octet], rest, octet, rfl, reads_takeOctet_iff.mpr rfl, hrest⟩

theorem isLocal_takeOctets (count : Nat) : (takeOctets count).IsLocal := by
  intro octets position a source h
  rcases Nat.lt_or_ge octets.length count with hlt | hle
  · simp [outcome_takeOctets_of_lt hlt] at h
  · rw [outcome_takeOctets hle] at h
    obtain ⟨ha, rfl⟩ := Prod.mk.injEq .. ▸ h
    obtain rfl : octets.take count = a := by simpa using ha
    refine ⟨octets.take count, octets.drop count, (List.take_append_drop ..).symm, by simp [hle],
      ?_⟩
    intro after
    have hlen : (octets.take count).length = count := by simp [hle]
    rw [outcome_takeOctets (by simp [hlen])]
    simp [hlen]

@[simp]
theorem reads_takeOctets_iff {count position : Nat} {octets a : Octets} :
    (takeOctets count).Reads position octets a ↔ octets.length = count ∧ a = octets := by
  constructor
  · intro h
    have hok := h.outcome_nil
    rcases Nat.lt_or_ge octets.length count with hlt | hle
    · simp [outcome_takeOctets_of_lt hlt] at hok
    · rw [outcome_takeOctets hle] at hok
      obtain ⟨ha, hsource⟩ := Prod.mk.injEq .. ▸ hok
      obtain ⟨hdrop, hlen⟩ := ofOctets_inj.mp hsource
      have hcount : octets.length = count := by omega
      refine ⟨hcount, ?_⟩
      rw [← hcount, List.take_length] at ha
      simpa using ha.symm
  · rintro ⟨rfl, rfl⟩ rest
    rw [outcome_takeOctets (by simp)]
    simp

/-- What an operation does on octets of its own does not touch the source. -/
theorem outcome_within (octets : Octets) (at' : Nat) (operation : Read α) (source : Source) :
    (within octets at' operation).outcome source =
      ((operation.outcome (ofOctets octets at')).1, source) := by
  rw [within]
  change _ = ((operation.run (ofOctets octets at')).1, source)
  generalize (operation.run (ofOctets octets at')).1 = result
  cases result <;> rfl

theorem isLocal_within (octets : Octets) (at' : Nat) (operation : Read α) :
    (within octets at' operation).IsLocal := by
  rw [within]
  split
  · exact isLocal_pure _
  · intro _ _ _ _ h
    exact absurd (congrArg Prod.fst h) (by rintro ⟨⟩)

theorem reads_within_iff {inner octets : Octets} {at' position : Nat} {operation : Read α} {a : α} :
    (within inner at' operation).Reads position octets a ↔
      octets = [] ∧ (operation.outcome (ofOctets inner at')).1 = .ok a := by
  simp only [(isLocal_within inner at' operation).reads_iff, outcome_within, Prod.mk.injEq,
    ofOctets_inj]
  constructor
  · rintro ⟨hok, rfl, -⟩
    exact ⟨rfl, hok⟩
  · rintro ⟨rfl, hok⟩
    exact ⟨hok, rfl, rfl⟩

end Read

end Asn1

import Asn1.Proofs.Reading

namespace Asn1

namespace Reader

theorem pull_fst (count : Nat) (pieces : List Octets) :
    (pull count pieces).1 = pieces.flatten.take count := by
  induction pieces generalizing count with
  | nil => cases count <;> simp [pull]
  | cons piece pieces ih =>
      cases count with
      | zero => simp [pull]
      | succ count =>
          rw [pull, List.flatten_cons, List.take_append]
          split
          · next h => simp [ih, List.take_of_length_le h]
          · next h => simp [Nat.sub_eq_zero_of_le (Nat.le_of_lt (Nat.lt_of_not_le h))]

theorem flatten_pull_snd (count : Nat) (pieces : List Octets) :
    (pull count pieces).2.flatten = pieces.flatten.drop count := by
  induction pieces generalizing count with
  | nil => cases count <;> simp [pull]
  | cons piece pieces ih =>
      cases count with
      | zero => simp [pull]
      | succ count =>
          rw [pull, List.flatten_cons, List.drop_append]
          split
          · next h => simp [ih, List.drop_of_length_le h]
          · next h => simp [Nat.sub_eq_zero_of_le (Nat.le_of_lt (Nat.lt_of_not_le h))]

end Reader

namespace Source

/-- The octets that have not been consumed: those that are buffered and those still to be read. -/
def octets (source : Source) : Octets :=
  source.buffered ++ source.reader.pieces.flatten

/-- Whether a source knows where its octets end. -/
def IsBounded (source : Source) : Prop :=
  source.stop = source.position + source.octets.length

/-- What comes of asking for more octets than there are, given the answer of a source that does not
fail. -/
def beyond {α : Type} (source : Source) (answer : Except DecodeError α) : Except DecodeError α :=
  match source.reader.failure? with
  | some reason => .error (.source reason)
  | none => answer

/-- The source after octets have been taken from it. -/
def advance (count : Nat) (source : Source) : Source :=
  (source.fill count).skip count

@[simp]
theorem octets_ofOctets (octets : Octets) (position : Nat) :
    (ofOctets octets position).octets = octets := by
  simp [ofOctets, Source.octets]

@[simp]
theorem octets_ofReader (reader : Reader) : (ofReader reader).octets = reader.pieces.flatten :=
  rfl

theorem isBounded_ofOctets (octets : Octets) (position : Nat) :
    (ofOctets octets position).IsBounded := by
  rw [IsBounded, octets_ofOctets]
  rfl

theorem isBounded_ofReader (reader : Reader) : (ofReader reader).IsBounded :=
  (Nat.zero_add _).symm

variable (count : Nat) (source : Source)

theorem fill_eq : source.fill count =
    { source with
      buffered := source.buffered ++ source.reader.pieces.flatten.take
        (count - source.buffered.length)
      reader := ⟨(Reader.pull (count - source.buffered.length) source.reader.pieces).2,
        source.reader.failure?⟩ } := by
  have hmissing : count - (source.buffered.take count).length = count - source.buffered.length := by
    rw [List.length_take]
    omega
  rw [fill, hmissing]
  split
  · next h => simp [h, Reader.pull]
  · rw [← Reader.pull_fst]

@[simp]
theorem position_fill : (source.fill count).position = source.position := by
  rw [fill_eq]

@[simp]
theorem stop_fill : (source.fill count).stop = source.stop := by
  rw [fill_eq]

@[simp]
theorem failure?_fill : (source.fill count).reader.failure? = source.reader.failure? := by
  rw [fill_eq]

@[simp]
theorem octets_fill : (source.fill count).octets = source.octets := by
  rw [fill_eq, octets, octets]
  simp only [Reader.flatten_pull_snd, List.append_assoc, List.take_append_drop]

theorem length_buffered_fill : (source.fill count).buffered.length =
    max source.buffered.length (min count source.octets.length) := by
  rw [fill_eq, octets]
  simp only [List.length_append, List.length_take]
  omega

theorem take_buffered_fill :
    (source.fill count).buffered.take count = source.octets.take count := by
  rw [fill_eq, octets, List.take_append, List.take_append, List.take_take, Nat.min_self]

/-- Nothing is read if enough is buffered, and otherwise no more than what was asked for. -/
theorem buffered_fill : (source.fill count).buffered =
    source.octets.take (max source.buffered.length count) := by
  rw [fill_eq, octets, List.take_append]
  simp only [List.take_of_length_le (Nat.le_max_left source.buffered.length count)]
  congr 2
  omega

@[simp]
theorem position_skip : (source.skip count).position = source.position + count :=
  rfl

@[simp]
theorem position_advance : (source.advance count).position = source.position + count := by
  rw [advance, position_skip, position_fill]

theorem length_buffered_le : source.buffered.length ≤ source.octets.length := by
  rw [octets, List.length_append]
  exact Nat.le_add_right _ _

variable {count source} {size : Nat}

theorem octets_skip (h : count ≤ source.buffered.length) :
    (source.skip count).octets = source.octets.drop count := by
  rw [octets, octets, List.drop_append_of_le_length h]
  rfl

theorem le_length_buffered_fill (hcount : size ≤ count) (h : size ≤ source.octets.length) :
    size ≤ (source.fill count).buffered.length := by
  rw [length_buffered_fill]
  omega

theorem buffered_advance : (source.advance count).buffered = source.buffered.drop count := by
  rw [advance, skip]
  simp only [buffered_fill, octets]
  rcases Nat.le_total source.buffered.length count with hle | hle
  · rw [Nat.max_eq_right hle, List.drop_take, Nat.sub_self, List.take_zero,
      List.drop_of_length_le hle]
  · rw [Nat.max_eq_left hle, List.take_left]

theorem IsBounded.fill (h : source.IsBounded) : (source.fill count).IsBounded := by
  simpa [IsBounded] using h

theorem IsBounded.skip (h : source.IsBounded) (hcount : count ≤ source.buffered.length) :
    (source.skip count).IsBounded := by
  have hlength := source.length_buffered_le
  rw [IsBounded] at h ⊢
  rw [octets_skip hcount, position_skip, List.length_drop]
  exact h.trans (by omega)

theorem available_of_isBounded (h : source.IsBounded) :
    source.available = source.octets.length := by
  rw [available, h]
  omega

end Source

namespace Read

open Source

variable {count : Nat} {source : Source}

theorem outcome_get (source : Source) : (get : Read Source).outcome source = (.ok source, source) :=
  rfl

theorem outcome_set (source other : Source) :
    (set other : Read PUnit).outcome source = (.ok ⟨⟩, other) :=
  rfl

theorem outcome_request_of_le (h : count ≤ source.octets.length) :
    (request count).outcome source = (.ok (source.octets.take count), source.fill count) := by
  rw [request, outcome_bind_of_ok (outcome_get source)]
  simp only
  rw [outcome_bind_of_ok (outcome_set _ _), failure?_fill, take_buffered_fill]
  cases source.reader.failure? with
  | none => rfl
  | some reason =>
      simp only [List.length_take]
      rw [if_neg (by omega)]
      rfl

theorem outcome_request_of_lt (h : source.octets.length < count) :
    (request count).outcome source = (source.beyond (.ok source.octets), source.fill count) := by
  rw [request, outcome_bind_of_ok (outcome_get source), beyond]
  simp only
  rw [outcome_bind_of_ok (outcome_set _ _), failure?_fill, take_buffered_fill,
    List.take_of_length_le (Nat.le_of_lt h)]
  cases source.reader.failure? with
  | none => rfl
  | some reason =>
      simp only
      rw [if_pos h]
      rfl

theorem outcome_request_snd (count : Nat) (source : Source) :
    ((request count).outcome source).2 = source.fill count := by
  rcases Nat.lt_or_ge source.octets.length count with hlt | hle
  · rw [outcome_request_of_lt hlt]
  · rw [outcome_request_of_le hle]

theorem octets_of_isExhausted {exhausted : Bool} {rest : Source}
    (h : isExhausted.outcome source = (.ok exhausted, rest)) : rest.octets = source.octets := by
  obtain ⟨_, middle, hrequest, hlast⟩ := exists_of_outcome_bind h
  obtain rfl : middle = rest := congrArg Prod.snd hlast
  obtain rfl : source.fill 1 = middle := by rw [← outcome_request_snd, hrequest]
  exact octets_fill 1 source

theorem outcome_requestExactly_of_le (h : count ≤ source.octets.length) :
    (requestExactly count).outcome source =
      (.ok (source.octets.take count), source.fill count) := by
  rw [requestExactly, outcome_bind_of_ok (outcome_request_of_le h),
    if_neg (by rw [List.length_take]; omega)]
  rfl

theorem outcome_requestExactly_of_lt (h : source.octets.length < count) :
    (requestExactly count).outcome source =
      (source.beyond (.error (.format .truncated source.position)), source.fill count) := by
  rw [requestExactly, outcome_bind, outcome_request_of_lt h, beyond, beyond]
  cases source.reader.failure? with
  | none =>
      simp only
      rw [if_pos h, outcome_bind_of_ok (outcome_position _), position_fill]
      rfl
  | some reason => rfl

theorem outcome_takeOctets_of_le (h : count ≤ source.octets.length) :
    (takeOctets count).outcome source = (.ok (source.octets.take count), source.advance count) := by
  rw [takeOctets, outcome_bind_of_ok (outcome_requestExactly_of_le h),
    outcome_bind_of_ok (outcome_consume count _)]
  rfl

theorem outcome_takeOctets_of_length_lt (h : source.octets.length < count) :
    (takeOctets count).outcome source =
      (source.beyond (.error (.format .truncated source.position)), source.fill count) := by
  rw [takeOctets, outcome_bind, outcome_requestExactly_of_lt h, beyond]
  cases source.reader.failure? <;> rfl

theorem outcome_takeOctet?_of_cons {octet : UInt8} {rest : Octets}
    (h : source.octets = octet :: rest) :
    takeOctet?.outcome source = (.ok (some octet), source.advance 1) := by
  rw [takeOctet?, outcome_bind_of_ok (outcome_request_of_le (by simp [h])), h]
  rfl

theorem outcome_takeOctet?_of_nil (h : source.octets = []) :
    takeOctet?.outcome source = (source.beyond (.ok none), source.fill 1) := by
  rw [takeOctet?, outcome_bind, outcome_request_of_lt (by simp [h]), h, beyond, beyond]
  cases source.reader.failure? <;> rfl

end Read

end Asn1

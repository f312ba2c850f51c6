import Asn1.Captured.Read
import Asn1.Decoding
import Asn1.Proofs.SourceOctets

/-!
Operations on two sources that hand out the same octets. Whether one octet or many are taken, what
is done on the first source is done in the same way on its image, save for the positions that are
reported and for failures of the first source.
-/

namespace Asn1

open Read

/-- The same error, so many octets further on. -/
def DecodeError.moved (shift : Nat) : DecodeError → DecodeError
  | .format error position => .format error (position + shift)
  | .source reason => .source reason

/-- The same header, so many octets further on. -/
def Header.moved (shift : Nat) (header : Header) : Header :=
  { header with position := header.position + shift }

/-- What sources with their images have in common: `related` before an operation and after one that
succeeds, `remains` after one that fails. -/
structure Comparison where
  /-- How many more octets there are before the source than before its image. -/
  shift : Nat
  /-- What has to be consumed of the image where the source alone fails, if it may. -/
  limit? : Option Nat
  related : Source → Source → Prop
  remains : Source → Source → Prop

/-- What becomes of a source and of its image. The results are the same up to a change. -/
inductive Comparison.Matches (c : Comparison) {α : Type} (change : α → α) (source image : Source) :
    Except DecodeError α × Source → Except DecodeError α × Source → Prop
  | ok (count : Nat) {a : α} {rest last : Source} (hrelated : c.related rest last)
    (hposition : last.position = image.position + count)
    (hsource : source.available = rest.available + count)
    (himage : image.available = last.available + count) :
    Matches c change source image (.ok (change a), rest) (.ok a, last)
  | error (error : DecodeError) {rest last : Source} (hremains : c.remains rest last) :
    Matches c change source image (.error (error.moved c.shift), rest) (.error error, last)
  | failed {limit : Nat} {reason : String} {result : Except DecodeError α} {rest last : Source}
    (hlimit : c.limit? = some limit) (hlast : ∀ a, result = .ok a → limit ≤ last.position) :
    Matches c change source image (.error (.source reason), rest) (result, last)

/-- A comparison that no operation leaves which takes octets. -/
structure Correspondence extends Comparison where
  position_eq {source image : Source} : related source image →
    source.position = image.position + shift
  remains_of_related {source image : Source} : related source image → remains source image
  matches_takeOctet? {source image : Source} : related source image →
    toComparison.Matches id source image (takeOctet?.outcome source) (takeOctet?.outcome image)
  matches_takeOctets {source image : Source} (count : Nat) : related source image →
    toComparison.Matches id source image ((takeOctets count).outcome source)
      ((takeOctets count).outcome image)

namespace Read

open Source

variable {α β : Type}

/-- Whether an operation that succeeds does not move back. -/
def Advances (operation : Read α) : Prop :=
  ∀ source a rest, operation.outcome source = (.ok a, rest) → source.position ≤ rest.position

theorem advances_pure (a : α) : (pure a : Read α).Advances := by
  rintro source b rest h
  obtain ⟨-, rfl⟩ := Prod.mk.injEq .. ▸ h
  exact Nat.le_refl _

theorem advances_failAt (error : FormatError) (position : Nat) :
    (failAt error position : Read α).Advances := by
  rintro source a rest ⟨⟩

theorem Advances.bind {operation : Read α} {next : α → Read β} (h : operation.Advances)
    (hnext : ∀ a, (next a).Advances) : (operation >>= next).Advances := by
  intro source b last hok
  obtain ⟨a, rest, hfirst, hsecond⟩ := exists_of_outcome_bind hok
  exact Nat.le_trans (h _ _ _ hfirst) (hnext a _ _ _ hsecond)

theorem outcome_takeOctet?_eq_some {source rest : Source} {octet : UInt8}
    (h : takeOctet?.outcome source = (.ok (some octet), rest)) : rest = source.advance 1 := by
  cases hoctets : source.octets with
  | nil =>
      rw [outcome_takeOctet?_of_nil hoctets, beyond] at h
      cases hfailure : source.reader.failure? <;> simp [hfailure] at h
  | cons first others =>
      rw [outcome_takeOctet?_of_cons hoctets] at h
      exact (congrArg Prod.snd h).symm

theorem outcome_takeOctet?_eq_none {source rest : Source}
    (h : takeOctet?.outcome source = (.ok none, rest)) :
    source.octets = [] ∧ rest = source.fill 1 := by
  cases hoctets : source.octets with
  | nil =>
      rw [outcome_takeOctet?_of_nil hoctets] at h
      exact ⟨rfl, (congrArg Prod.snd h).symm⟩
  | cons first others =>
      rw [outcome_takeOctet?_of_cons hoctets] at h
      cases h

theorem advances_takeOctet? : takeOctet?.Advances := by
  intro source octet? rest h
  cases hoctets : source.octets with
  | nil =>
      rw [outcome_takeOctet?_of_nil hoctets] at h
      obtain rfl : source.fill 1 = rest := congrArg Prod.snd h
      exact Nat.le_of_eq (position_fill 1 source).symm
  | cons first others =>
      rw [outcome_takeOctet?_of_cons hoctets] at h
      obtain rfl : source.advance 1 = rest := congrArg Prod.snd h
      rw [position_advance]
      exact Nat.le_add_right _ _

theorem outcome_takeOctets_eq_ok {source rest : Source} {count : Nat} {octets : Octets}
    (h : (takeOctets count).outcome source = (.ok octets, rest)) : rest = source.advance count := by
  rcases Nat.lt_or_ge source.octets.length count with hlt | hle
  · rw [outcome_takeOctets_of_length_lt hlt, beyond] at h
    cases hfailure : source.reader.failure? <;> simp [hfailure] at h
  · rw [outcome_takeOctets_of_le hle] at h
    exact (congrArg Prod.snd h).symm

theorem advances_takeOctets (count : Nat) : (takeOctets count).Advances := by
  intro source octets rest h
  rw [outcome_takeOctets_eq_ok h, position_advance]
  exact Nat.le_add_right _ _

end Read

namespace Correspondence

open Source

variable {α β : Type}

/-- Whether an operation on a source gives, up to a change, what another gives on its image. -/
structure Carries (c : Correspondence) (change : α → α) (operation other : Read α) : Prop where
  advances : other.Advances
  matched : ∀ source image, c.related source image →
    c.Matches change source image (operation.outcome source) (other.outcome image)

/-- Whether an operation on a source gives just what another gives on its image. -/
abbrev Agrees (c : Correspondence) (operation other : Read α) : Prop :=
  c.Carries id operation other

variable {c : Correspondence} {operation other : Read α} {change : α → α} {last : β → β}

theorem carries_pure {a b : α} (h : a = change b) : c.Carries change (pure a) (pure b) := by
  subst h
  exact ⟨advances_pure b, fun _ _ hrelated => .ok 0 hrelated rfl rfl rfl⟩

theorem agrees_pure (a : α) : c.Agrees (pure a) (pure a) :=
  carries_pure rfl

theorem carries_failAt {error : FormatError} {position start : Nat}
    (h : position = start + c.shift) :
    c.Carries change (failAt error position) (failAt error start) := by
  subst h
  exact ⟨advances_failAt error start, fun _ _ hrelated =>
    .error (.format error start) (c.remains_of_related hrelated)⟩

theorem carries_position : c.Carries (· + c.shift) position position := by
  refine ⟨fun source a rest h => ?_, fun source image hrelated => ?_⟩
  · obtain ⟨-, rfl⟩ := Prod.mk.injEq .. ▸ h
    exact Nat.le_refl _
  · rw [outcome_position, outcome_position, c.position_eq hrelated]
    exact .ok 0 hrelated rfl rfl rfl

theorem agrees_takeOctet? : c.Agrees takeOctet? takeOctet? := by
  refine ⟨advances_takeOctet?, ?_⟩
  intro _ _
  exact c.matches_takeOctet?

theorem agrees_takeOctets (count : Nat) : c.Agrees (takeOctets count) (takeOctets count) := by
  refine ⟨advances_takeOctets count, ?_⟩
  intro _ _
  exact c.matches_takeOctets count

/-- One thing after the other, where it may matter what the first leaves behind. -/
theorem matches_bind {source image : Source} {next other' : α → Read β}
    (h : c.Matches change source image (operation.outcome source) (other.outcome image))
    (hadvances : ∀ a, (other' a).Advances)
    (hnext : ∀ a count rest middle, c.related rest middle →
      operation.outcome source = (.ok (change a), rest) → other.outcome image = (.ok a, middle) →
      middle.position = image.position + count →
      source.available = rest.available + count → image.available = middle.available + count →
      c.Matches last rest middle ((next (change a)).outcome rest) ((other' a).outcome middle)) :
    c.Matches last source image ((operation >>= next).outcome source)
      ((other >>= other').outcome image) := by
  rw [outcome_bind, outcome_bind]
  generalize hfirst : operation.outcome source = first at h
  generalize hsecond : other.outcome image = second at h
  cases h with
  | @ok count a rest middle hrest hposition hsource himage =>
      have hmatched := hnext a count rest middle hrest hfirst hsecond hposition hsource himage
      simp only
      generalize (next (change a)).outcome rest = first at hmatched
      generalize (other' a).outcome middle = second at hmatched
      cases hmatched with
      | ok more hlast => exact .ok (count + more) hlast (by omega) (by omega) (by omega)
      | error error hremains => exact .error error hremains
      | failed hlimit hlast => exact .failed hlimit hlast
  | error error hremains => exact .error error hremains
  | @failed limit reason result rest middle hlimit hlast =>
      refine .failed hlimit ?_
      intro b hb
      cases result with
      | error error => simp at hb
      | ok a =>
          simp only at hb ⊢
          exact Nat.le_trans (hlast a rfl) (hadvances a _ _ _ (Prod.ext hb rfl))

theorem Carries.bind {next other' : α → Read β} (h : c.Carries change operation other)
    (hnext : ∀ a, c.Carries last (next (change a)) (other' a)) :
    c.Carries last (operation >>= next) (other >>= other') := by
  have hadvances (a : α) : (other' a).Advances := (hnext a).advances
  exact ⟨h.advances.bind hadvances, fun _ _ hrelated => matches_bind (h.matched _ _ hrelated)
    hadvances fun a _ _ _ hrest _ _ _ _ _ => (hnext a).matched _ _ hrest⟩

theorem Agrees.map (h : c.Agrees operation other) (f : α → β) :
    c.Agrees (operation >>= fun a => pure (f a)) (other >>= fun a => pure (f a)) := by
  apply h.bind
  intro a
  exact agrees_pure (f a)

theorem Carries.ite {condition : Prop} [Decidable condition] {more less : Read α}
    (h : c.Carries change operation other) (hother : c.Carries change more less) :
    c.Carries change (if condition then operation else more)
      (if condition then other else less) := by
  split
  · exact h
  · exact hother

theorem carries_checked {result : Except FormatError α} {position start : Nat}
    (h : position = start + c.shift) :
    c.Agrees (checked result position) (checked result start) := by
  cases result with
  | error error => exact carries_failAt h
  | ok a => exact agrees_pure a

/-- Sources over the same octets, one of which starts further on. -/
def shifted (shift : Nat) : Correspondence where
  shift := shift
  limit? := none
  related source image := ∃ octets position,
    source = ofOctets octets (position + shift) ∧ image = ofOctets octets position
  remains source image := ∃ octets position,
    source = ofOctets octets (position + shift) ∧ image = ofOctets octets position
  position_eq := by
    rintro _ _ ⟨octets, position, rfl, rfl⟩
    rfl
  remains_of_related := id
  matches_takeOctet? := by
    rintro _ _ ⟨octets, position, rfl, rfl⟩
    cases octets with
    | nil =>
        rw [outcome_takeOctet?_nil, outcome_takeOctet?_nil]
        exact .ok 0 ⟨[], position, rfl, rfl⟩ rfl rfl rfl
    | cons octet rest =>
        rw [outcome_takeOctet?_cons, outcome_takeOctet?_cons]
        refine .ok 1 ⟨rest, position + 1, ?_, rfl⟩ rfl (by simp) (by simp)
        rw [Nat.add_right_comm]
  matches_takeOctets := by
    rintro _ _ count ⟨octets, position, rfl, rfl⟩
    rcases Nat.lt_or_ge octets.length count with hlt | hle
    · rw [outcome_takeOctets_of_lt hlt, outcome_takeOctets_of_lt hlt]
      exact .error (.format .truncated position) ⟨octets, position, rfl, rfl⟩
    · rw [outcome_takeOctets hle, outcome_takeOctets hle]
      refine .ok count ⟨octets.drop count, position + count, ?_, rfl⟩ rfl ?_ ?_
      · rw [Nat.add_right_comm]
      · simp only [available_ofOctets, List.length_drop]
        omega
      · simp only [available_ofOctets, List.length_drop]
        omega

theorem agrees_within {octets : Octets} {position start : Nat} (h : position = start + c.shift)
    (hwithin : (shifted c.shift).Agrees operation other) :
    c.Agrees (within octets position operation) (within octets start other) := by
  have hmatched := hwithin.matched (ofOctets octets position) (ofOctets octets start)
    ⟨octets, start, by rw [h], rfl⟩
  rw [outcome, outcome] at hmatched
  rw [Read.within, Read.within]
  generalize operation.run (ofOctets octets position) = first at hmatched
  generalize other.run (ofOctets octets start) = second at hmatched
  cases hmatched with
  | ok => exact agrees_pure _
  | error =>
      refine ⟨fun source a rest hok => ?_, fun _ _ hrelated =>
        .error _ (c.remains_of_related hrelated)⟩
      cases hok
  | failed hlimit => cases hlimit

theorem agrees_takeOctet : c.Agrees takeOctet takeOctet := by
  refine agrees_takeOctet?.bind fun octet? => ?_
  cases octet? with
  | none => exact carries_position.bind fun start => carries_failAt rfl
  | some octet => exact agrees_pure octet

end Correspondence

end Asn1

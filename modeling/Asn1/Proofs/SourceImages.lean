import Asn1.Proofs.Correspondence

/-!
Sources with images that hand out the same octets. A source that reads is compared with one over
octets in memory, and a source whose reader fails with one that has what would have come next.
-/

namespace Asn1

open Read

@[simp]
theorem DecodeError.moved_zero (error : DecodeError) : error.moved 0 = error := by
  cases error <;> rfl

namespace Source

variable {origin : Source} {ahead? : Option Octets} {source image : Source} {count : Nat}

/-- Whether a source, which ends as its origin does, has an image that hands out the same octets
from the same position on. If octets ahead are given, the source fails in the end while its image
goes on with them and does not fail. Otherwise both end in the same way. -/
structure IsImage (origin : Source) (ahead? : Option Octets) (source image : Source) : Prop where
  position : source.position = image.position
  stop : source.stop = origin.stop
  failure? : source.reader.failure? = origin.reader.failure?
  isBounded : source.IsBounded
  image_isBounded : image.IsBounded
  octets : image.octets = source.octets ++ ahead?.getD []
  same : ahead? = none → image.reader.failure? = source.reader.failure?
  ahead : ahead? ≠ none → source.reader.failure? ≠ none ∧ image.reader.failure? = none

theorem IsImage.length_le (h : IsImage origin ahead? source image) :
    source.octets.length ≤ image.octets.length := by
  rw [h.octets, List.length_append]
  exact Nat.le_add_right _ _

theorem IsImage.take_octets (h : IsImage origin ahead? source image)
    (hcount : count ≤ source.octets.length) :
    image.octets.take count = source.octets.take count := by
  rw [h.octets, List.take_append_of_le_length hcount]

theorem IsImage.stop_eq (h : IsImage origin ahead? source image) :
    origin.stop = source.position + source.octets.length :=
  h.stop.symm.trans h.isBounded

theorem IsImage.fill (h : IsImage origin ahead? source image) (count : Nat) :
    IsImage origin ahead? (source.fill count) (image.fill count) where
  position := by rw [position_fill, position_fill, h.position]
  stop := by rw [stop_fill, h.stop]
  failure? := by rw [failure?_fill, h.failure?]
  isBounded := h.isBounded.fill
  image_isBounded := h.image_isBounded.fill
  octets := by rw [octets_fill, octets_fill, h.octets]
  same := by simpa using h.same
  ahead := by simpa using h.ahead

theorem IsImage.skip (h : IsImage origin ahead? source image)
    (hsource : count ≤ source.buffered.length) (himage : count ≤ image.buffered.length) :
    IsImage origin ahead? (source.skip count) (image.skip count) where
  position := by rw [position_skip, position_skip, h.position]
  stop := h.stop
  failure? := h.failure?
  isBounded := h.isBounded.skip hsource
  image_isBounded := h.image_isBounded.skip himage
  octets := by
    rw [octets_skip hsource, octets_skip himage, h.octets,
      List.drop_append_of_le_length (Nat.le_trans hsource source.length_buffered_le)]
  same := h.same
  ahead := h.ahead

theorem isImage_of_octets (hsource : source.IsBounded) (himage : image.IsBounded)
    (hposition : source.position = image.position) (hoctets : image.octets = source.octets)
    (hfailure : image.reader.failure? = source.reader.failure?) :
    IsImage source none source image := by
  refine ⟨hposition, rfl, rfl, hsource, himage, ?_, ?_, absurd rfl⟩
  · simpa using hoctets
  · intro _
    exact hfailure

theorem isImage_of_ahead (hsource : source.IsBounded) (hfails : source.reader.failure? ≠ none)
    (ahead : Octets) : IsImage source (some ahead) source
      (ofOctets (source.octets ++ ahead) source.position) := by
  refine ⟨rfl, rfl, rfl, hsource, isBounded_ofOctets _ _, octets_ofOctets _ _, ?_, ?_⟩
  · intro hnone
    exact (by cases hnone)
  · intro _
    exact ⟨hfails, rfl⟩

end Source

namespace Comparison

open Source

variable {α : Type} {origin : Source} {limit : Nat} {ahead? : Option Octets}
  {source image : Source} {count : Nat}

/-- Sources that end as their origin does, with their images. Where the source alone fails, a
certain position is to be reached on its image. -/
def ofImages (origin : Source) (ahead? : Option Octets) (limit : Nat) : Comparison :=
  ⟨0, ahead?.map fun _ => limit, IsImage origin ahead?, IsImage origin ahead?⟩

theorem matches_fill (h : IsImage origin ahead? source image) (count : Nat) (a : α) :
    (ofImages origin ahead? limit).Matches id source image (.ok a, source.fill count)
      (.ok a, image.fill count) := by
  refine .ok 0 (h.fill count) (by simp) ?_ ?_
  · rw [available, available, stop_fill, position_fill, Nat.add_zero]
  · rw [available, available, stop_fill, position_fill, Nat.add_zero]

theorem matches_skip (h : IsImage origin ahead? source image)
    (hsource : count ≤ source.buffered.length) (himage : count ≤ image.buffered.length) (a : α) :
    (ofImages origin ahead? limit).Matches id source image (.ok a, source.skip count)
      (.ok a, image.skip count) := by
  have hrest := h.skip hsource himage
  have hlength := Nat.le_trans hsource source.length_buffered_le
  have hlast := Nat.le_trans himage image.length_buffered_le
  refine .ok count hrest (position_skip _ _) ?_ ?_
  · rw [available_of_isBounded h.isBounded, available_of_isBounded hrest.isBounded,
      octets_skip hsource, List.length_drop]
    omega
  · rw [available_of_isBounded h.image_isBounded, available_of_isBounded hrest.image_isBounded,
      octets_skip himage, List.length_drop]
    omega

theorem matches_advance (h : IsImage origin ahead? source image)
    (hcount : count ≤ source.octets.length) (a : α) :
    (ofImages origin ahead? limit).Matches id source image (.ok a, source.advance count)
      (.ok a, image.advance count) := by
  have hfill : (ofImages origin ahead? limit).Matches id source image (.ok a, source.fill count)
      (.ok a, image.fill count) := matches_fill h count a
  have hskip : (ofImages origin ahead? limit).Matches id (source.fill count) (image.fill count)
      (.ok a, source.advance count) (.ok a, image.advance count) :=
    matches_skip (h.fill count) (le_length_buffered_fill (Nat.le_refl _) hcount)
      (le_length_buffered_fill (Nat.le_refl _) (Nat.le_trans hcount h.length_le)) a
  cases hfill with
  | ok size _ hposition hsource himage =>
      cases hskip with
      | ok more hrest hposition' hsource' himage' =>
          exact .ok (size + more) hrest (by omega) (by omega) (by omega)

theorem matches_error {rest last : Source} (h : IsImage origin ahead? rest last)
    (error : DecodeError) : (ofImages origin ahead? limit).Matches (α := α) id source image
      (.error error, rest) (.error error, last) := by
  have hmatches : (ofImages origin ahead? limit).Matches (α := α) id source image
      (.error (error.moved 0), rest) (.error error, last) := .error error h
  rwa [DecodeError.moved_zero] at hmatches

/-- What comes of asking for more than there is. If the image ends there too it is the same, and
otherwise the source fails. -/
theorem matches_beyond (h : IsImage origin ahead? source image) {answer : Except DecodeError α}
    {result : Except DecodeError α × Source}
    (hend : ahead? = none → result = (image.beyond answer, image.fill count))
    (hlast : ahead? ≠ none → ∀ a last, result = (.ok a, last) → limit ≤ last.position) :
    (ofImages origin ahead? limit).Matches id source image
      (source.beyond answer, source.fill count) result := by
  cases ahead? with
  | none =>
      have hfill := h.fill count
      rw [hend rfl, beyond, beyond, h.same rfl]
      cases source.reader.failure? with
      | some reason => exact matches_error hfill (.source reason)
      | none =>
          cases answer with
          | ok a => exact matches_fill h count a
          | error error => exact matches_error hfill error
  | some ahead =>
      obtain ⟨hfails, -⟩ := h.ahead (by simp)
      obtain ⟨reason, hreason⟩ := Option.ne_none_iff_exists'.mp hfails
      rw [beyond, hreason]
      exact .failed rfl fun a ha => hlast (by simp) a _ (Prod.ext ha rfl)

variable (h : IsImage origin ahead? source image)
  (hlimit : ∀ ahead, ahead? = some ahead → limit ≤ origin.stop + min 1 ahead.length)

include h hlimit

theorem matches_takeOctets (count : Nat) :
    (ofImages origin ahead? limit).Matches id source image ((takeOctets count).outcome source)
      ((takeOctets count).outcome image) := by
  have hstop := h.stop_eq
  have hposition := h.position
  rcases Nat.lt_or_ge source.octets.length count with hlt | hle
  · rw [outcome_takeOctets_of_length_lt hlt, hposition]
    refine matches_beyond h (fun hnone => ?_) fun hahead octets last hok => ?_
    · have hoctets := h.octets
      rw [hnone, Option.getD_none, List.append_nil] at hoctets
      rw [outcome_takeOctets_of_length_lt (by rwa [hoctets])]
    · obtain ⟨ahead, rfl⟩ := Option.ne_none_iff_exists'.mp hahead
      obtain rfl := outcome_takeOctets_eq_ok hok
      have hle := hlimit ahead rfl
      rw [position_advance]
      omega
  · rw [outcome_takeOctets_of_le hle, outcome_takeOctets_of_le (Nat.le_trans hle h.length_le),
      h.take_octets hle]
    exact matches_advance h hle _

theorem matches_takeOctet? :
    (ofImages origin ahead? limit).Matches id source image (takeOctet?.outcome source)
      (takeOctet?.outcome image) := by
  have hstop := h.stop_eq
  have hposition := h.position
  have himage := h.octets
  cases hoctets : source.octets with
  | nil =>
      rw [hoctets, List.length_nil] at hstop
      rw [hoctets, List.nil_append] at himage
      rw [outcome_takeOctet?_of_nil hoctets]
      refine matches_beyond h (fun hnone => ?_) fun hahead octet? last hok => ?_
      · rw [outcome_takeOctet?_of_nil (by rw [himage, hnone, Option.getD_none])]
      · obtain ⟨ahead, rfl⟩ := Option.ne_none_iff_exists'.mp hahead
        have hle := hlimit ahead rfl
        rw [Option.getD_some] at himage
        cases ahead with
        | nil =>
            obtain rfl : image.fill 1 = last :=
              congrArg Prod.snd ((outcome_takeOctet?_of_nil himage).symm.trans hok)
            rw [position_fill]
            simp only [List.length_nil] at hle
            omega
        | cons octet others =>
            obtain rfl : image.advance 1 = last :=
              congrArg Prod.snd ((outcome_takeOctet?_of_cons himage).symm.trans hok)
            rw [position_advance]
            simp only [List.length_cons] at hle
            omega
  | cons octet others =>
      rw [hoctets] at himage
      rw [outcome_takeOctet?_of_cons hoctets, outcome_takeOctet?_of_cons himage]
      exact matches_advance h (by simp [hoctets]) _

end Comparison

namespace Correspondence

open Source

/-- What is taken from a source is taken from its image. -/
def ofImages (origin : Source) (ahead? : Option Octets) (limit : Nat)
    (hlimit : ∀ ahead, ahead? = some ahead → limit ≤ origin.stop + min 1 ahead.length) :
    Correspondence where
  toComparison := Comparison.ofImages origin ahead? limit
  position_eq h := h.position
  remains_of_related := id
  matches_takeOctet? h := Comparison.matches_takeOctet? h hlimit
  matches_takeOctets count h := Comparison.matches_takeOctets h hlimit count

/-- The same sources as long as nothing has been read since `start` but what has been consumed. -/
def frugal (c : Correspondence) (start : Source) : Correspondence where
  shift := c.shift
  limit? := c.limit?
  related source image := c.related source image ∧
    ∃ count, source.position = start.position + count ∧
      source.buffered = start.buffered.drop count
  remains _ _ := True
  position_eq h := c.position_eq h.1
  remains_of_related _ := trivial
  matches_takeOctet? := by
    rintro source image ⟨hrelated, count, hposition, hbuffered⟩
    have hmatches := c.matches_takeOctet? hrelated
    generalize hfirst : takeOctet?.outcome source = first at hmatches
    generalize takeOctet?.outcome image = second at hmatches
    cases hmatches with
    | @ok size octet? rest last hrest himage hsource hlast =>
        refine .ok size ⟨hrest, ?_⟩ himage hsource hlast
        cases octet? with
        | none =>
            obtain ⟨hoctets, rfl⟩ := outcome_takeOctet?_eq_none hfirst
            obtain ⟨hnil, -⟩ := List.append_eq_nil_iff.mp hoctets
            refine ⟨count, by rw [position_fill, hposition], ?_⟩
            rw [buffered_fill, hoctets, List.take_nil, ← hbuffered, hnil]
        | some octet =>
            obtain rfl := outcome_takeOctet?_eq_some hfirst
            refine ⟨count + 1, ?_, ?_⟩
            · rw [position_advance, hposition, Nat.add_assoc]
            · rw [buffered_advance, hbuffered, List.drop_drop]
    | error error _ => exact .error error trivial
    | failed hlimit hlast => exact .failed hlimit hlast
  matches_takeOctets := by
    rintro source image size ⟨hrelated, count, hposition, hbuffered⟩
    have hmatches := c.matches_takeOctets size hrelated
    generalize hfirst : (takeOctets size).outcome source = first at hmatches
    generalize (takeOctets size).outcome image = second at hmatches
    cases hmatches with
    | ok more hrest himage hsource hlast =>
        refine .ok more ⟨hrest, ?_⟩ himage hsource hlast
        obtain rfl := outcome_takeOctets_eq_ok hfirst
        refine ⟨count + size, ?_, ?_⟩
        · rw [position_advance, hposition, Nat.add_assoc]
        · rw [buffered_advance, hbuffered, List.drop_drop]
    | error error _ => exact .error error trivial
    | failed hlimit hlast => exact .failed hlimit hlast

end Correspondence

end Asn1

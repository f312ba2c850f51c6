import Asn1.Proofs.DecodingErrors
import Asn1.Proofs.ElementExtents
import Asn1.Proofs.FoundElements
import Asn1.Proofs.NestingLimit

/-!
The levels at which elements lie in octets, and what they have to do with the limit of nesting. Each
type that is gone through costs one unit of depth, while aliases, implicit tags and untagged CHOICEs
add no level to the octets. If reading stops as too deep although the limit leaves room for these
types, some element lies deeper than the rest of the limit.
-/

namespace Asn1

open Read Source

/-- Whether an element lies at a level in octets in front of which that many contents of indefinite
length have begun. The outermost level is the first. Elements are the headers that are found from
front to back and inside constructed elements. An end-of-contents marker is none where it ends
content. -/
inductive ElementAt : Nat → Octets → Nat → Prop
  | here {opened : Nat} {form rest : Octets} {identifier : Identifier} {length : Length}
    (hform : IsHeaderForm form identifier length)
    (hmark : opened = 0 ∨ identifier ≠ .endOfContents ∨ length ≠ .definite 0) :
    ElementAt opened (form ++ rest) (opened + 1)
  | inside {opened level : Nat} {form content rest : Octets} {identifier : Identifier}
    (hform : IsHeaderForm form identifier (.definite content.length))
    (hconstructed : identifier.constructed = true) (hinside : ElementAt 0 content level) :
    ElementAt opened (form ++ (content ++ rest)) (opened + 1 + level)
  | after {opened level : Nat} {form content rest : Octets} {identifier : Identifier}
    (hform : IsHeaderForm form identifier (.definite content.length))
    (hmark : opened = 0 ∨ identifier ≠ .endOfContents ∨ content ≠ [])
    (hafter : ElementAt opened rest level) :
    ElementAt opened (form ++ (content ++ rest)) level
  | behind {opened level : Nat} {form rest : Octets} {identifier : Identifier}
    (hform : IsHeaderForm form identifier .indefinite)
    (hbehind : ElementAt (opened + 1) rest level) : ElementAt opened (form ++ rest) level
  | closed {opened level : Nat} {form rest : Octets}
    (hform : IsHeaderForm form .endOfContents (.definite 0))
    (hafter : ElementAt opened rest level) : ElementAt (opened + 1) (form ++ rest) level

theorem not_elementAt_nil {opened level : Nat} : ¬ElementAt opened [] level := by
  intro h
  generalize hoctets : ([] : Octets) = octets at h
  cases h with
  | here hform | inside hform | after hform | behind hform | closed hform =>
      exact hform.ne_nil (List.append_eq_nil_iff.mp hoctets.symm).1

/-- Where no content of indefinite length has begun, an element of definite length is followed by
others on its level, and those inside it lie below it. -/
theorem elementAt_definite_iff {level : Nat} {form content rest : Octets} {identifier : Identifier}
    (hform : IsHeaderForm form identifier (.definite content.length)) :
    ElementAt 0 (form ++ (content ++ rest)) level ↔
      level = 1 ∨
        (identifier.constructed = true ∧ ∃ inner, level = 1 + inner ∧ ElementAt 0 content inner) ∨
          ElementAt 0 rest level := by
  constructor
  · intro h
    generalize hoctets : form ++ (content ++ rest) = octets at h
    generalize hopened : 0 = opened at h
    cases h with
    | here hform' =>
        subst hopened
        exact .inl rfl
    | inside hform' hconstructed hinside =>
        subst hopened
        obtain ⟨rfl, hrest, rfl, hlength⟩ := hform.unique hform' hoctets
        obtain ⟨rfl, rfl⟩ := List.append_inj hrest (Length.definite.inj hlength)
        exact .inr (.inl ⟨hconstructed, _, rfl, hinside⟩)
    | after hform' _ hafter =>
        subst hopened
        obtain ⟨rfl, hrest, rfl, hlength⟩ := hform.unique hform' hoctets
        obtain ⟨rfl, rfl⟩ := List.append_inj hrest (Length.definite.inj hlength)
        exact .inr (.inr hafter)
    | behind hform' =>
        obtain ⟨-, -, -, hlength⟩ := hform.unique hform' hoctets
        contradiction
    | closed => contradiction
  · rintro (rfl | ⟨hconstructed, inner, rfl, hinside⟩ | hafter)
    · exact .here hform (.inl rfl)
    · exact .inside hform hconstructed hinside
    · exact .after hform (.inl rfl) hafter

/-- A primitive element that stands alone lies on the first level, and there is no other. -/
theorem elementAt_primitive_iff {level : Nat} {form content : Octets} {tag : Tag}
    (hform : IsHeaderForm form ⟨tag, false⟩ (.definite content.length)) :
    ElementAt 0 (form ++ content) level ↔ level = 1 := by
  have h : ElementAt 0 (form ++ (content ++ [])) level ↔ _ := elementAt_definite_iff hform
  simpa [not_elementAt_nil] using h

/-- Whether an element lies more than `limit` levels below the contents that have begun. -/
def Exceeds (opened : Nat) (octets : Octets) (limit : Nat) : Prop :=
  ∃ level, ElementAt opened octets level ∧ opened + limit < level

theorem Header.IsForm.isHeaderForm {rules : EncodingRules} {position : Nat} {form : Octets}
    {header : Header} (h : Header.IsForm rules position form header) :
    IsHeaderForm form header.identifier header.length := by
  obtain ⟨-, hfault, lengthOctets, rfl, hlength⟩ := h
  refine ⟨⟨_, _, rfl, header.identifier.isForm_octets, ?_⟩,
    fun hindefinite => (Header.constructed_of_indefinite hfault hindefinite).1⟩
  cases hdefinite : header.length with
  | indefinite => rwa [hdefinite] at hlength
  | definite size =>
      rw [hdefinite] at hlength
      rcases hlength with hshort | ⟨digits, hform, hne, hcount, hvalue, hbound, -⟩
      · exact .inl hshort
      · exact .inr ⟨digits, hform, hne, hcount, hvalue, hbound, nofun⟩

namespace Exceeds

variable {opened limit : Nat} {form content rest : Octets} {header : Header}

theorem mono {lower : Nat} (h : Exceeds opened rest limit) (hle : lower ≤ limit) :
    Exceeds opened rest lower := by
  obtain ⟨level, helement, hlevel⟩ := h
  exact ⟨level, helement, by omega⟩

theorem here (hform : IsHeaderForm form header.identifier header.length)
    (hmark : opened = 0 ∨ header.isEndOfContents = false) :
    Exceeds opened (form ++ rest) 0 := by
  refine ⟨opened + 1, .here hform (hmark.imp_right fun hmark => .inl ?_), by omega⟩
  exact of_decide_eq_false hmark

theorem inside (hform : IsHeaderForm form header.identifier header.length)
    (hconstructed : header.isConstructed = true)
    (hlength : header.length = .definite content.length) (h : Exceeds 0 content limit) :
    Exceeds opened (form ++ (content ++ rest)) (limit + 1) := by
  obtain ⟨level, helement, hlevel⟩ := h
  exact ⟨opened + 1 + level, .inside (hlength ▸ hform) hconstructed helement, by omega⟩

theorem behind (hform : IsHeaderForm form header.identifier header.length)
    (hlength : header.length = .indefinite) (h : Exceeds (opened + 1) rest limit) :
    Exceeds opened (form ++ rest) (limit + 1) := by
  obtain ⟨level, helement, hlevel⟩ := h
  exact ⟨level, .behind (hlength ▸ hform) helement, by omega⟩

end Exceeds

section Skipping

variable {rules : EncodingRules} {position level : Nat} {octets rest : Octets}

/-- Behind elements and the marker that ends them, the level is one less than before. -/
theorem Elements.skip {definite : Bool} {elements : List PlacedElement}
    (h : Elements rules definite position octets elements) (hdefinite : definite = false)
    {opened : Nat} (hrest : ElementAt opened rest level) :
    ElementAt (opened + 1) (octets ++ rest) level := by
  induction h generalizing opened rest with
  | nil hend =>
      subst hdefinite
      obtain ⟨header, hform, hmark⟩ := hend
      obtain ⟨hidentifier, hlength⟩ := Header.eq_endOfContents hform.2.1 hmark
      have hheader := hform.isHeaderForm
      rw [hidentifier, hlength] at hheader
      exact .closed hheader hrest
  | definite hform hheader hlength _ ih =>
      simp only [List.append_assoc]
      have hmark := of_decide_eq_false hheader
      exact .after (hlength ▸ hform.isHeaderForm) (.inr (.inl hmark)) (ih hdefinite hrest)
  | indefinite hform _ hlength _ _ ihcontent ih =>
      simp only [List.append_assoc]
      exact .behind (hlength ▸ hform.isHeaderForm) (ihcontent rfl (ih hdefinite hrest))

/-- What lies behind an element lies behind its header and content. -/
theorem IsContent.skip {form content : Octets} {header : Header} {opened : Nat}
    (hcontent : IsContent rules header position content)
    (hform : IsHeaderForm form header.identifier header.length)
    (hheader : header.isEndOfContents = false) (h : ElementAt opened rest level) :
    ElementAt opened (form ++ (content ++ rest)) level := by
  cases hlength : header.length with
  | definite size =>
      obtain rfl := hcontent.1 size hlength
      exact .after (hlength ▸ hform) (.inr (.inl (of_decide_eq_false hheader))) h
  | indefinite =>
      obtain ⟨inner, helements⟩ := hcontent.2 hlength
      exact .behind (hlength ▸ hform) (helements.skip rfl h)

theorem IsContent.exceeds {form content : Octets} {header : Header} {opened limit : Nat}
    (hcontent : IsContent rules header position content)
    (hform : IsHeaderForm form header.identifier header.length)
    (hheader : header.isEndOfContents = false) (h : Exceeds opened rest limit) :
    Exceeds opened (form ++ (content ++ rest)) limit := by
  obtain ⟨level, helement, hlevel⟩ := h
  exact ⟨level, hcontent.skip hform hheader helement, hlevel⟩

end Skipping

namespace Read

variable {α β : Type}

theorem isTooDeep_bind {operation : Read α} {next : α → Read β} {source : Source}
    (h : IsTooDeep ((operation >>= next).outcome source).1) :
    IsTooDeep (operation.outcome source).1 ∨
      ∃ a rest, operation.outcome source = (.ok a, rest) ∧ IsTooDeep ((next a).outcome rest).1 := by
  rw [outcome_bind] at h
  rcases houtcome : operation.outcome source with ⟨error | a, rest⟩
  · rw [houtcome] at h
    obtain ⟨position, herror⟩ := h
    exact .inl ⟨position, congrArg Except.error (Except.error.inj herror)⟩
  · rw [houtcome] at h
    exact .inr ⟨a, rest, rfl, h⟩

theorem IsPlain.not_isTooDeep {operation : Read α} (h : operation.IsPlain) (source : Source) :
    ¬IsTooDeep (operation.outcome source).1 := by
  rintro ⟨position, herror⟩
  exact absurd (h source _ herror) (by simp [DecodeError.isPlain, FormatError.isPlain])

theorem IsPlain.isTooDeep_bind {operation : Read α} {next : α → Read β} {source : Source}
    (hplain : operation.IsPlain) (h : IsTooDeep ((operation >>= next).outcome source).1) :
    ∃ a rest, operation.outcome source = (.ok a, rest) ∧ IsTooDeep ((next a).outcome rest).1 := by
  rcases Read.isTooDeep_bind h with hfirst | hnext
  · exact absurd hfirst (hplain.not_isTooDeep source)
  · exact hnext

end Read

/-- Whether reading an element with this header stops as too deep only if the element or one inside
it or behind it lies below the limit, its own level being the first. -/
def StopsBelow {α : Type} (limit : Nat) (header : Header) (operation : Read α) : Prop :=
  ∀ octets position, IsTooDeep (operation.outcome (ofOctets octets position)).1 →
    ∀ opened form, IsHeaderForm form header.identifier header.length →
      opened = 0 ∨ header.isEndOfContents = false → Exceeds opened (form ++ octets) limit

/-- Whether reading constructed content stops as too deep only if an element in it or behind it lies
below the limit. -/
def ContentStopsBelow {α : Type} (limit : Nat) (readContent : Bool → Read α) : Prop :=
  ∀ definite octets position,
    IsTooDeep ((readContent definite).outcome (ofOctets octets position)).1 →
      ∀ opened, Exceeds opened octets limit

section Constructed

variable {α β : Type} {limit : Nat} {header : Header} {rules : EncodingRules}

namespace StopsBelow

variable {operation : Read α} {next : α → Read β}

theorem zero (header : Header) (operation : Read α) : StopsBelow 0 header operation := by
  intro _ _ _ _ _ hform hmark
  exact .here hform hmark

theorem of_plain (limit : Nat) (header : Header) (h : operation.IsPlain) :
    StopsBelow limit header operation := by
  intro _ _ hdeep
  exact absurd hdeep (h.not_isTooDeep _)

theorem mono {higher : Nat} (h : StopsBelow higher header operation) (hle : limit ≤ higher) :
    StopsBelow limit header operation := by
  intro octets position hdeep opened form hform hmark
  exact (h octets position hdeep opened form hform hmark).mono hle

theorem bind (h : StopsBelow limit header operation)
    (hnext : ∀ a source, ¬IsTooDeep ((next a).outcome source).1) :
    StopsBelow limit header (operation >>= next) := by
  intro octets position hdeep
  rcases isTooDeep_bind hdeep with hfirst | ⟨a, rest, -, hsecond⟩
  · exact h octets position hfirst
  · exact absurd hsecond (hnext a rest)

theorem bind_pure (h : StopsBelow limit header operation) (f : α → β) :
    StopsBelow limit header (operation >>= fun a => pure (f a)) := by
  apply h.bind
  intro a
  exact (isPlain_pure (f a)).not_isTooDeep

/-- What comes before takes no octets and depends on no depth. -/
theorem checkTag_bind {expected : Tag} {next : Unit → Read β}
    (h : StopsBelow limit header (next ())) :
    StopsBelow limit header (checkTag header expected >>= next) := by
  rw [checkTag]
  split
  · rw [failAt_bind]
    exact of_plain limit header (isPlain_failAt rfl _)
  · exact h

theorem ite {condition : Prop} [Decidable condition] {alternative : Read α}
    (h : StopsBelow limit header operation) (halternative : StopsBelow limit header alternative) :
    StopsBelow limit header (if condition then operation else alternative) := by
  split
  · exact h
  · exact halternative

end StopsBelow

namespace ContentStopsBelow

variable {readContent : Bool → Read α}

theorem bind {next : Bool → α → Read β} (h : ContentStopsBelow limit readContent)
    (hnext : ∀ definite a, (next definite a).IsPlain) :
    ContentStopsBelow limit fun definite => readContent definite >>= next definite := by
  intro definite octets position hdeep
  rcases isTooDeep_bind hdeep with hfirst | ⟨a, rest, -, hsecond⟩
  · exact h definite octets position hfirst
  · exact absurd hsecond ((hnext definite a).not_isTooDeep rest)

theorem bind_pure (h : ContentStopsBelow limit readContent) (f : α → β) :
    ContentStopsBelow limit fun definite => readContent definite >>= fun a => pure (f a) := by
  apply h.bind
  intro _ a
  exact isPlain_pure (f a)

theorem position_bind {next : Bool → Nat → Read α}
    (h : ∀ start, ContentStopsBelow limit fun definite => next definite start) :
    ContentStopsBelow limit fun definite => Read.position >>= next definite := by
  intro definite octets position hdeep
  rw [outcome_bind_of_ok (outcome_position _)] at hdeep
  exact h _ definite octets position hdeep

end ContentStopsBelow

theorem ContentStopsBelow.readConstructed {readContent : Bool → Read α}
    (h : ContentStopsBelow limit readContent) :
    StopsBelow (limit + 1) header (readConstructed header readContent) := by
  intro octets position hdeep opened form hform hmark
  rw [Asn1.readConstructed] at hdeep
  cases hconstructed : header.isConstructed with
  | false =>
      simp only [hconstructed, Bool.false_eq_true, if_false, failAt_bind] at hdeep
      exact absurd hdeep ((isPlain_failAt rfl _).not_isTooDeep _)
  | true =>
      simp only [hconstructed, if_true] at hdeep
      cases hlength : header.length with
      | indefinite =>
          simp only [hlength] at hdeep
          exact .behind hform hlength (h false octets position hdeep _)
      | definite size =>
          simp only [hlength] at hdeep
          rw [outcome_bind_of_ok (outcome_position _)] at hdeep
          obtain ⟨content, rest, htaken, hwithin⟩ := (isPlain_takeOctets size).isTooDeep_bind hdeep
          obtain ⟨c, behind, rfl, -, hreads⟩ := isLocal_takeOctets size _ _ _ _ htaken
          obtain ⟨rfl, rfl⟩ := reads_takeOctets_iff.mp hreads
          rw [outcome_within] at hwithin
          exact .inside hform hconstructed hlength (h true _ _ hwithin 0)

theorem contentStopsBelow_readElements {σ : Type} {readElement : σ → Header → Read (α × σ)}
    (hlocal : ∀ state header, (readElement state header).IsLocal)
    (hcontent : ∀ {state header position content a next},
      (readElement state header).Reads position content (a, next) →
        IsContent rules header position content)
    (h : ∀ state header, StopsBelow limit header (readElement state header)) (state : σ) :
    ContentStopsBelow limit fun definite => readElements rules definite readElement state := by
  intro definite octets position hdeep opened
  have hwithin (count : Nat) (state : σ) (octets : Octets) (position : Nat)
      (hdeep : IsTooDeep ((readElementsWithin rules definite readElement count state).outcome
        (ofOctets octets position)).1) : Exceeds opened octets limit := by
    induction count generalizing state octets position with
    | zero =>
        refine absurd hdeep (IsPlain.not_isTooDeep ?_ _)
        exact isPlain_position.bind fun _ => isPlain_failAt rfl _
    | succ count ih =>
        obtain ⟨header?, middle, hfound, helements⟩ :=
          (isPlain_nextHeader? rules definite).isTooDeep_bind hdeep
        cases header? with
        | none => exact absurd helements ((isPlain_pure _).not_isTooDeep _)
        | some header =>
            obtain ⟨form, behind, rfl, rfl, hform, hmark⟩ :=
              outcome_nextHeader?_eq_some_iff.mp hfound
            have hheader := hform.isHeaderForm
            rcases isTooDeep_bind helements with hfirst | ⟨⟨a, next⟩, middle, helement, hothers⟩
            · exact h state header _ _ hfirst _ _ hheader (.inr hmark)
            · obtain ⟨content, rest, rfl, rfl, hreads⟩ := hlocal _ _ _ _ _ _ helement
              rcases isTooDeep_bind hothers with hrest | ⟨_, _, -, hlast⟩
              · exact (hcontent hreads).exceeds hheader hmark (ih _ _ _ hrest)
              · exact absurd hlast ((isPlain_pure _).not_isTooDeep _)
  exact hwithin _ _ _ _ hdeep

end Constructed

section Leaves

variable {rules : EncodingRules} {limit : Nat}

theorem stopsBelow_readSegment {readNested : Header → Read Value}
    (h : ∀ header, StopsBelow limit header (readNested header)) (short : Bool) (header : Header) :
    StopsBelow limit header (readSegment rules readNested short header) := by
  refine .checkTag_bind ?_
  simp only [failAt_bind]
  refine .ite (.of_plain _ _ (isPlain_failAt rfl _)) (.ite (.ite ?_ ?_) ?_)
  · exact .of_plain _ _ (isPlain_failAt rfl _)
  · refine (h header).bind fun value source => ?_
    cases value <;> rintro ⟨_, ⟨⟩⟩
  · refine .of_plain _ _ ((isPlain_primitiveSize header).bind fun size => ?_)
    refine isPlain_ite (isPlain_failAt rfl _) ?_
    exact (isPlain_takeOctets size).bind fun _ => isPlain_pure _

theorem contentStopsBelow_joinSegments {readNested : Header → Read Value}
    (hlocal : ∀ header, (readNested header).IsLocal)
    (hcontent : ∀ {header position content value},
      (readNested header).Reads position content value → IsContent rules header position content)
    (h : ∀ header, StopsBelow limit header (readNested header)) :
    ContentStopsBelow limit (joinSegments rules readNested) := by
  refine .position_bind fun start => .bind ?_ fun definite parts => ?_
  · exact contentStopsBelow_readElements (isLocal_readSegment hlocal)
      (isContent_of_readSegment hlocal hcontent) (stopsBelow_readSegment h) false
  · simp only [failAt_bind]
    exact isPlain_ite (isPlain_failAt rfl _) (isPlain_pure _)

theorem contentStopsBelow_readSegmented {readJoined : Bool → Read Octets}
    (h : ContentStopsBelow limit readJoined) (builtin : Builtin) :
    ContentStopsBelow limit (readSegmented rules builtin readJoined) := by
  refine .position_bind ?_
  intro start
  apply h.bind
  intro _ octets
  exact isPlain_decodeContent builtin octets start

/-- Each level of nested segments costs one unit of depth. -/
theorem contentStopsBelow_readSegments (rules : EncodingRules) (depth : Nat) :
    ContentStopsBelow depth (readSegments rules depth) := by
  induction depth with
  | zero =>
      exact contentStopsBelow_joinSegments (fun _ => isLocal_failAt _ _)
        (fun hreads => absurd hreads not_reads_failAt) fun header => .zero header _
  | succ depth ih =>
      refine contentStopsBelow_joinSegments (fun _ => ?_) (fun hreads => ?_) fun header => ?_
      · exact isLocal_readConstructed
          (isLocalTo_readSegmented (isLocalTo_readSegments rules depth) .octetString)
      · exact isContent_of_readSegmented (isLocalTo_readSegments rules depth)
          exists_elements_of_readSegments hreads
      · exact (contentStopsBelow_readSegmented ih .octetString).readConstructed

theorem stopsBelow_readBuiltin (builtin : Builtin) (header : Header) (tag? : Option Tag)
    (depth : Nat) :
    StopsBelow (depth + 1) header (Decoder.readBuiltin rules builtin ⟨header, tag?, depth⟩) := by
  refine .checkTag_bind ?_
  simp only [failAt_bind]
  refine .ite (.ite (.ite (.of_plain _ _ (isPlain_failAt rfl _)) ?_) ?_) ?_
  · exact (contentStopsBelow_readSegmented
      (contentStopsBelow_readSegments rules depth) builtin).readConstructed
  · exact .of_plain _ _ (isPlain_failAt rfl _)
  · refine .of_plain _ _ ((isPlain_primitiveSize header).bind fun size => ?_)
    refine isPlain_ite (isPlain_failAt rfl _) (isPlain_position.bind fun start => ?_)
    exact (isPlain_takeOctets size).bind fun octets => isPlain_decodeContent builtin octets start

end Leaves

section Captured

variable {rules : EncodingRules} {limit : Nat}

/-- The elements that are captured up to a marker lie on one level, on which the marker does not
count. -/
theorem exceeds_of_copyElements {copy : Header → Read Octets}
    (hlocal : ∀ header, (copy header).IsLocal)
    (hcontent : ∀ {header position content copied}, (copy header).Reads position content copied →
      IsContent rules header position content)
    (hplain : ∀ header size, header.length = .definite size → (copy header).IsPlain)
    (h : ∀ header, StopsBelow limit header (copy header)) {count : Nat} {octets : Octets}
    {position : Nat} (hdeep : IsTooDeep
      ((Captured.copyElements rules copy count).outcome (ofOctets octets position)).1)
    (opened : Nat) : Exceeds opened octets limit := by
  induction count generalizing octets position with
  | zero =>
      refine absurd hdeep (IsPlain.not_isTooDeep ?_ _)
      exact isPlain_position.bind fun _ => isPlain_failAt rfl _
  | succ count ih =>
      rw [Captured.copyElements, outcome_bind_of_ok (outcome_position _)] at hdeep
      obtain ⟨header?, middle, hfound, helements⟩ :=
        (Header.isPlain_read? rules).isTooDeep_bind hdeep
      cases header? with
      | none => exact absurd helements ((isPlain_failAt rfl _).not_isTooDeep _)
      | some header =>
          obtain ⟨form, behind, rfl, rfl, hform⟩ := Header.outcome_read?_eq_some_iff.mp hfound
          have hheader := hform.isHeaderForm
          cases hmark : header.isEndOfContents with
          | true =>
              refine absurd helements (IsPlain.not_isTooDeep ?_ _)
              obtain ⟨-, hlength⟩ := Header.eq_endOfContents hform.2.1 hmark
              simp only [hmark, if_true]
              exact (hplain header 0 hlength).bind fun _ => isPlain_pure _
          | false =>
              simp only [hmark, Bool.false_eq_true, if_false] at helements
              rcases isTooDeep_bind helements with hfirst | ⟨copied, middle, helement, hothers⟩
              · exact h header _ _ hfirst _ _ hheader (.inr hmark)
              · obtain ⟨content, rest, rfl, rfl, hreads⟩ := hlocal _ _ _ _ _ helement
                rcases isTooDeep_bind hothers with hrest | ⟨_, _, -, hlast⟩
                · exact (hcontent hreads).exceeds hheader hmark (ih hrest)
                · exact absurd hlast ((isPlain_pure _).not_isTooDeep _)

theorem isPlain_copyElement_of_definite {depth size : Nat} {header : Header}
    (hlength : header.length = .definite size) :
    (Captured.copyElement rules depth header).IsPlain := by
  rw [Captured.copyElement_definite hlength]
  exact (isPlain_takeOctets size).bind fun _ => isPlain_pure _

/-- Capturing costs one unit of depth for each level of indefinite length. -/
theorem stopsBelow_copyElement (depth : Nat) (header : Header) :
    StopsBelow depth header (Captured.copyElement rules depth header) := by
  induction depth generalizing header with
  | zero => exact .zero header _
  | succ depth ih =>
      cases hlength : header.length with
      | definite size => exact .of_plain _ _ (isPlain_copyElement_of_definite hlength)
      | indefinite =>
          intro octets position hdeep opened form hform hmark
          unfold Captured.copyElement at hdeep
          simp only [hlength] at hdeep
          obtain ⟨_, _, hsource, hcopied⟩ := isPlain_get.isTooDeep_bind hdeep
          obtain ⟨-, rfl⟩ := Prod.mk.injEq .. ▸ hsource
          rcases isTooDeep_bind hcopied with hinner | ⟨_, _, -, hlast⟩
          · exact .behind hform hlength <| exceeds_of_copyElements
              (Captured.isLocal_copyElement rules depth) isContent_of_copyElement
              (fun _ _ => isPlain_copyElement_of_definite) ih hinner _
          · exact absurd hlast ((isPlain_pure _).not_isTooDeep _)

theorem stopsBelow_readUnknown (depth : Nat) (header : Header) :
    StopsBelow depth header (Decoder.readUnknown rules header depth) := by
  apply StopsBelow.bind_pure
  apply StopsBelow.bind_pure
  exact stopsBelow_copyElement depth header

end Captured

namespace CompiledType

/-- The overhead of a form of type from that of the types in it. -/
def overheadStep (_ : TypeInfo) : TypeForm (Unit → Nat) → Unit → Nat
  | .builtin _, _ => 0
  | .alias target, _ => target () + 1
  | .tagged _ .implicit inner, _ => inner () + 1
  | .tagged _ .explicit inner, _ => inner ()
  | .collection layout, _ =>
    ((layout.components.map fun component => component.type ()).foldr max 0) +
      if layout.kind.tag? = none then 1 else 0

/-- The most types on a way from a type through the types in it that add no level to encoded
octets: aliases, implicit tags and untagged CHOICEs. -/
def overhead (type : CompiledType) : Nat :=
  type.interpret overheadStep ()

/-- Whether a type adds a level to encoded octets. -/
def addsLevel (type : CompiledType) : Bool :=
  match type.form with
  | .builtin _ | .tagged _ .explicit _ => true
  | .alias _ | .tagged _ .implicit _ => false
  | .collection layout => layout.kind.tag?.isSome

section Overhead

variable {info : TypeInfo}

theorem overhead_builtin (builtin : Builtin) : overhead ⟨info, .builtin builtin⟩ = 0 := by
  rw [overhead, interpret_mk]
  rfl

theorem overhead_alias (target : CompiledType) :
    overhead ⟨info, .alias target⟩ = target.overhead + 1 := by
  rw [overhead, interpret_mk]
  rfl

theorem overhead_implicit (tag : Tag) (inner : CompiledType) :
    overhead ⟨info, .tagged tag .implicit inner⟩ = inner.overhead + 1 := by
  rw [overhead, interpret_mk]
  rfl

theorem overhead_explicit (tag : Tag) (inner : CompiledType) :
    overhead ⟨info, .tagged tag .explicit inner⟩ = inner.overhead := by
  rw [overhead, interpret_mk]
  rfl

theorem overhead_collection_le_iff {layout : Layout CompiledType} {bound : Nat} :
    overhead ⟨info, .collection layout⟩ ≤ bound ↔
      (layout.kind.tag? = none → 1 ≤ bound) ∧ ∀ component ∈ layout.components,
        component.type.overhead + (if layout.kind.tag? = none then 1 else 0) ≤ bound := by
  have hmax (components : List (Component CompiledType)) (bound : Nat) :
      ((components.map (Component.map (interpret overheadStep))).map
          fun component => component.type ()).foldr max 0 ≤ bound ↔
        ∀ component ∈ components, component.type.overhead ≤ bound := by
    induction components with
    | nil => simp
    | cons component rest ih =>
        simp only [List.map_cons, List.foldr_cons, Nat.max_le, ih, List.forall_mem_cons]
        rfl
  rw [overhead, interpret_mk]
  show (((layout.components.map (Component.map (interpret overheadStep))).map
    fun component => component.type ()).foldr max 0) +
      (if layout.kind.tag? = none then 1 else 0) ≤ bound ↔ _
  split
  · next hkind =>
    cases bound with
    | zero => simp [hkind]
    | succ bound =>
        rw [Nat.add_le_add_iff_right, hmax]
        simp
  · next hkind =>
    rw [Nat.add_zero, hmax]
    simp [hkind]

/-- Only a type through which there is no way to an alias, implicit tag or untagged CHOICE adds
levels alone. -/
theorem overhead_eq_zero_iff {type : CompiledType} :
    type.overhead = 0 ↔ ∀ inner, type.Reaches inner → inner.addsLevel = true := by
  induction type using formInduct with
  | builtin info builtin =>
      rw [forall_reaches_mk_iff]
      simp [overhead_builtin, addsLevel, CompiledType.form, TypeForm.types]
  | «alias» info target ih =>
      rw [forall_reaches_mk_iff]
      simp [overhead_alias, addsLevel, CompiledType.form]
  | tagged info tag method inner ih =>
      rw [forall_reaches_mk_iff]
      cases method with
      | implicit => simp [overhead_implicit, addsLevel, CompiledType.form]
      | explicit =>
          rw [overhead_explicit, ih]
          simp [addsLevel, CompiledType.form, TypeForm.types]
  | collection info layout ih =>
      rw [forall_reaches_mk_iff, ← Nat.le_zero, overhead_collection_le_iff]
      cases htag : layout.kind.tag? with
      | none => simp [addsLevel, CompiledType.form, htag]
      | some tag =>
          simp only [addsLevel, CompiledType.form, htag, TypeForm.types, List.mem_map,
            reduceCtorEq, false_implies, if_false, Nat.add_zero, Nat.le_zero, true_and,
            Option.isSome_some, forall_exists_index, and_imp, forall_apply_eq_imp_iff₂]
          exact forall₂_congr ih

end Overhead

section Types

variable {rules : EncodingRules} {info : TypeInfo} {limit depth : Nat}

theorem contentStopsBelow_readExplicit {inner : CompiledType}
    (h : ∀ header, StopsBelow limit header (inner.read rules ⟨header, none, depth⟩)) :
    ContentStopsBelow limit (Decoder.readExplicit rules (inner.read rules) depth) := by
  refine .position_bind fun start definite octets position hdeep opened => ?_
  obtain ⟨header?, middle, hfound, hinner⟩ :=
    (isPlain_nextHeader? rules definite).isTooDeep_bind hdeep
  cases header? with
  | none => exact absurd hinner ((isPlain_failAt rfl _).not_isTooDeep _)
  | some header =>
      obtain ⟨form, behind, rfl, rfl, hform, hmark⟩ := outcome_nextHeader?_eq_some_iff.mp hfound
      refine (h header).bind (fun value source => ?_) _ _ hinner _ _ hform.isHeaderForm (.inr hmark)
      refine IsPlain.not_isTooDeep (isPlain_position.bind fun stop => ?_) source
      refine (isPlain_nextHeader? rules definite).bind fun last? => ?_
      cases last? with
      | none => exact isPlain_pure _
      | some last => exact isPlain_failAt rfl _

theorem stopsBelow_readComponent {layout : Layout CompiledType} (hlimit : limit ≤ depth)
    (h : ∀ component ∈ layout.components, ∀ header,
      StopsBelow limit header (component.type.read rules ⟨header, none, depth⟩))
    (previous? : Option Nat) (header : Header) :
    StopsBelow limit header (Decoder.readComponent rules (layout.map fun type => type.read rules)
      depth previous? header) := by
  rw [Decoder.readComponent_eq, Layout.match?_map]
  cases hmatch : layout.match? previous? header.tag with
  | some component =>
      refine (h component (Layout.mem_components_of_match? hmatch) header).bind
        fun value source => ?_
      simp only [failAt_bind]
      exact (isPlain_ite (isPlain_failAt rfl _) (isPlain_pure _)).not_isTooDeep source
  | none =>
      refine .ite ?_ (.of_plain _ _ (isPlain_failAt rfl _))
      exact ((stopsBelow_readUnknown depth header).mono hlimit).bind_pure _

theorem contentStopsBelow_readCollection {layout : Layout CompiledType} (hlimit : limit ≤ depth)
    (h : ∀ component ∈ layout.components, ∀ header,
      StopsBelow limit header (component.type.read rules ⟨header, none, depth⟩)) :
    ContentStopsBelow limit
      (Decoder.readCollection rules (layout.map fun type => type.read rules) depth) := by
  intro definite
  cases hlist : layout.kind.isList with
  | false =>
      have hentries : ContentStopsBelow limit fun definite => readElements rules definite
          (Decoder.readComponent rules (layout.map fun type => type.read rules) depth) none :=
        contentStopsBelow_readElements
          (Decoder.isLocal_readComponent (isLocal_component layout rules))
          (isContent_of_readComponent fun _ _ => isContent_of_reads)
          (stopsBelow_readComponent hlimit h) none
      rw [Decoder.readCollection_of_not_list hlist]
      exact hentries.bind_pure _ definite
  | true =>
      cases helement : layout.element? with
      | none =>
          rw [Decoder.readCollection, Layout.kind_map, if_pos hlist, Layout.element?_map, helement]
          exact fun _ _ hdeep => absurd hdeep (by rintro ⟨_, ⟨⟩⟩)
      | some element =>
          have hlocal : ∀ header, ((element.map fun type => type.read rules).type header).IsLocal :=
            isLocal_read element.type rules
          have hitems : ContentStopsBelow limit fun definite => readElements rules definite
              (Decoder.readItem (element.map fun type => type.read rules) depth) () := by
            refine contentStopsBelow_readElements (Decoder.isLocal_readItem hlocal) ?_ ?_ ()
            · exact fun hreads => isContent_of_reads ((Decoder.reads_readItem_iff hlocal).mp hreads)
            · exact fun state header =>
                (h element (Layout.mem_components_of_element? helement) header).bind_pure _
          rw [Decoder.readCollection_of_list hlist (Layout.element?_map_of_some _ helement)]
          exact hitems.bind_pure _ definite

theorem stopsBelow_readChoice {layout : Layout CompiledType} (hlimit : limit ≤ depth)
    (h : ∀ component ∈ layout.components, ∀ header,
      StopsBelow limit header (component.type.read rules ⟨header, none, depth⟩))
    (header : Header) :
    StopsBelow limit header
      (Decoder.readChoice rules (layout.map fun type => type.read rules) header depth) := by
  rw [Decoder.readChoice, Layout.componentByTag?_map]
  cases hmatch : layout.componentByTag? header.tag with
  | some component =>
      exact (h component (List.mem_of_find?_eq_some hmatch) header).bind_pure _
  | none =>
      refine .ite ?_ (.of_plain _ _ (isPlain_failAt rfl _))
      exact ((stopsBelow_readUnknown depth header).mono hlimit).bind_pure _

/-- A type reads elements down to the limit if the depth leaves room for the types on the way that
add no level. -/
theorem stopsBelow_read {type : CompiledType} {tag? : Option Tag} {header : Header}
    (hdepth : limit + type.overhead ≤ depth) :
    StopsBelow limit header (type.read rules ⟨header, tag?, depth⟩) := by
  induction type, tag?, depth using readInduct generalizing header limit with
  | zero type tag? =>
      obtain rfl : limit = 0 := by omega
      exact .zero header _
  | builtin info builtin tag? depth =>
      rw [read_builtin]
      rw [overhead_builtin] at hdepth
      exact (stopsBelow_readBuiltin builtin header tag? depth).mono hdepth
  | «alias» info target tag? depth ih =>
      rw [read_alias]
      rw [overhead_alias] at hdepth
      exact ih (by omega)
  | implicit info tag inner tag? depth ih =>
      rw [read_implicit]
      rw [overhead_implicit] at hdepth
      exact ih (by omega)
  | explicit info tag inner tag? depth ih =>
      rw [read_explicit]
      rw [overhead_explicit] at hdepth
      refine .checkTag_bind ?_
      cases limit with
      | zero => exact .zero header _
      | succ limit =>
          exact (contentStopsBelow_readExplicit fun header =>
            ih none depth (by omega)).readConstructed
  | constructed info layout tag tag? depth htag ih =>
      have hcomponents := (overhead_collection_le_iff.mp
        (show overhead ⟨info, .collection layout⟩ ≤ depth + 1 - limit by omega)).2
      rw [read_collection htag]
      refine .checkTag_bind ?_
      cases limit with
      | zero => exact .zero header _
      | succ limit =>
          refine (contentStopsBelow_readCollection (by omega) ?_).readConstructed
          intro component hmem header
          have hcomponent := hcomponents component hmem
          rw [htag, if_neg (by simp)] at hcomponent
          exact ih component hmem none depth (by omega)
  | choice info layout depth hkind ih =>
      obtain ⟨hchoice, hcomponents⟩ := overhead_collection_le_iff.mp
        (show overhead ⟨info, .collection layout⟩ ≤ depth + 1 - limit by omega)
      have htag := CollectionKind.tag?_eq_none_iff.mpr hkind
      have hroom := hchoice htag
      rw [read_choice hkind]
      refine stopsBelow_readChoice (by omega) ?_ header
      intro component hmem header
      have hcomponent := hcomponents component hmem
      rw [if_pos htag] at hcomponent
      exact ih component hmem none depth (by omega)
  | taggedChoice info layout tag depth hkind =>
      rw [read_tagged_choice hkind]
      exact fun _ _ hdeep => absurd hdeep (by rintro ⟨_, ⟨⟩⟩)

end Types

end CompiledType

namespace Schema

variable {schema : Schema} {handle : Handle} {type : CompiledType} {rules : EncodingRules}
  {limit maxDepth : Nat} {octets : Octets}

/-- Decoding stops as too deep only if some element lies deeper than what the maximum leaves after
the types that add no level. -/
theorem not_isTooDeep_decode (hcompiled : schema.compiled handle = .ok type)
    (hlevels : ∀ level, ElementAt 0 octets level → level ≤ limit)
    (hdepth : limit + type.overhead ≤ maxDepth) :
    ¬IsTooDeep (schema.decode handle ⟨rules, maxDepth⟩ octets) := by
  intro hdeep
  change IsTooDeep ((decodeAll schema handle ⟨rules, maxDepth⟩).outcome (ofOctets octets 0)).1
    at hdeep
  rcases isTooDeep_bind hdeep with hone | ⟨value, source, -, hlast⟩
  · rw [decodeOne, outcome_bind_of_ok (outcome_position _), hcompiled] at hone
    change IsTooDeep ((Header.read rules >>= fun header =>
      type.read rules ⟨header, none, maxDepth⟩ >>= fun value =>
        checked ((schema.accept handle value).mapError .value) 0 >>= fun _ =>
          (pure value : Read Value)).outcome (ofOctets octets 0)).1 at hone
    obtain ⟨header, middle, hheader, hvalue⟩ := (Header.isPlain_read rules).isTooDeep_bind hone
    obtain ⟨form, behind, rfl, rfl, hform⟩ := Header.isLocal_read rules _ _ _ _ hheader
    have haccept (value : Value) (source : Source) :
        ¬IsTooDeep ((checked ((schema.accept handle value).mapError .value) 0 >>= fun _ =>
          (pure value : Read Value)).outcome source).1 := by
      cases schema.accept handle value <;> rintro ⟨_, ⟨⟩⟩
    obtain ⟨level, helement, hlevel⟩ := (CompiledType.stopsBelow_read hdepth).bind haccept _ _
      hvalue 0 form (Header.reads_read_iff.mp hform).isHeaderForm (.inl rfl)
    have hle := hlevels level helement
    omega
  · refine absurd hlast (IsPlain.not_isTooDeep (isPlain_position.bind fun stop => ?_) source)
    refine isPlain_isExhausted.bind fun exhausted => ?_
    simp only [failAt_bind]
    exact isPlain_ite (isPlain_pure _) (isPlain_failAt rfl _)

/-- If no element lies deeper than a limit, decoding does not stop as too deep as long as the
maximum leaves room for the types that add no level. The maximum counts levels of the encoded
octets, and nothing else, for types that are made up of types that each add a level. -/
theorem decode_of_levels_le (hcompiled : schema.compiled handle = .ok type)
    (hlevels : ∀ level, ElementAt 0 octets level → level ≤ limit) :
    (limit + type.overhead ≤ maxDepth →
      ¬IsTooDeep (schema.decode handle ⟨rules, maxDepth⟩ octets)) ∧
    ((∀ inner, type.Reaches inner → inner.addsLevel = true) → limit ≤ maxDepth →
      ¬IsTooDeep (schema.decode handle ⟨rules, maxDepth⟩ octets)) := by
  refine ⟨not_isTooDeep_decode hcompiled hlevels, fun hadds hle => ?_⟩
  refine not_isTooDeep_decode hcompiled hlevels ?_
  rwa [CompiledType.overhead_eq_zero_iff.mpr hadds]

/-- An element in a SEQUENCE lies on the second level. -/
theorem decode_of_levels_le_defaultedSequence :
    let octets : Octets := [0x30, 0x03, 0x02, 0x01, 0x05]
    (∀ level, ElementAt 0 octets level → level ≤ 2) ∧
      ¬IsTooDeep (defaultedSequence.decode ⟨2⟩ ⟨.der, 2⟩ octets) := by
  intro octets
  have hinteger : IsHeaderForm [0x02, 0x01] ⟨.integer, false⟩ (.definite 1) :=
    IsHeaderForm.definite ⟨.integer, false⟩ (show 1 < Length.sizeBound by decide)
  have hsequence : IsHeaderForm [0x30, 0x03] ⟨.sequence, true⟩ (.definite 3) :=
    IsHeaderForm.definite ⟨.sequence, true⟩ (show 3 < Length.sizeBound by decide)
  have hlevels : ∀ level, ElementAt 0 octets level → level ≤ 2 := by
    intro level helement
    have hinside (inner : Nat) : ElementAt 0 [0x02, 0x01, 0x05] inner ↔ inner = 1 :=
      elementAt_primitive_iff (show IsHeaderForm _ _ (.definite [0x05].length) from hinteger)
    have hcases : ElementAt 0 ([0x30, 0x03] ++ ([0x02, 0x01, 0x05] ++ [])) level ↔ _ :=
      elementAt_definite_iff hsequence
    rcases hcases.mp helement with rfl | ⟨-, inner, rfl, hinner⟩ | hafter
    · decide
    · rw [(hinside inner).mp hinner]
    · exact absurd hafter not_elementAt_nil
  have hadds : ∀ inner, CompiledType.Reaches ⟨⟨⟨2⟩, none, []⟩, .collection defaultedLayout⟩ inner →
      inner.addsLevel = true :=
    forall_reaches_defaultedLayout rfl rfl rfl
  exact ⟨hlevels, (decode_of_levels_le compiled_defaultedSequence hlevels).2 hadds le_rfl⟩

/-- An INTEGER, and an alias, an implicit tag and an untagged CHOICE that lead to it. -/
def levelledTypes : Schema :=
  let integer : TypeRef := .handle ⟨0⟩
  let choice : CollectionDeclaration :=
    ⟨.choice, false, false, [.components [⟨"i", integer, false, none⟩]], [], []⟩
  let schema := ((empty.add ⟨.builtin .integer, []⟩).2.add ⟨.alias integer, []⟩).2
  let schema := (schema.add ⟨.tagged (.context 0) .implicit integer, []⟩).2
  (compileAll.outcome (schema.add ⟨.collection choice, []⟩).2).2

/-- Types that add no level use up depth nevertheless, so that an element on the first level is too
deep for a maximum of one. -/
theorem exists_tooDeep_on_first_level :
    let untagged : Octets := [0x02, 0x01, 0x05]
    let tagged : Octets := [0x80, 0x01, 0x05]
    let value : Value := .integer ⟨5, by decide, by decide⟩
    levelledTypes.Reachable ∧
      (∀ level, ElementAt 0 untagged level → level ≤ 1) ∧
      (∀ level, ElementAt 0 tagged level → level ≤ 1) ∧
      levelledTypes.decode ⟨1⟩ ⟨.der, 1⟩ untagged = .error (.format .depthExceeded 0) ∧
      levelledTypes.decode ⟨2⟩ ⟨.der, 1⟩ tagged = .error (.format .depthExceeded 0) ∧
      levelledTypes.decode ⟨3⟩ ⟨.der, 1⟩ untagged = .error (.format .depthExceeded 0) ∧
      levelledTypes.decode ⟨1⟩ ⟨.der, 2⟩ untagged = .ok value ∧
      levelledTypes.decode ⟨2⟩ ⟨.der, 2⟩ tagged = .ok value ∧
      levelledTypes.decode ⟨3⟩ ⟨.der, 2⟩ untagged = .ok (.choice "i" value) := by
  intro untagged tagged value
  have hfirst (tag : Tag) (level : Nat)
      (h : ElementAt 0 ((Identifier.mk tag false).octets ++ (Length.definite 1).octets ++ [0x05])
        level) : level ≤ 1 :=
    ((elementAt_primitive_iff (show IsHeaderForm _ _ (.definite [0x05].length) from
      IsHeaderForm.definite ⟨tag, false⟩ (show 1 < Length.sizeBound by decide))).mp h).le
  refine ⟨.compileAll (.add (.add (.add (.add .empty _) _) _) _), hfirst .integer,
    hfirst (.context 0), ?_, ?_, ?_, ?_, ?_, ?_⟩
  all_goals decide +kernel

end Schema

end Asn1

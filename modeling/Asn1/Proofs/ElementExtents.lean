import Asn1.Proofs.Recognition

namespace Asn1

open Read Source

/-- An element in octets: its header, and its content, which starts at the position. -/
structure PlacedElement where
  header : Header
  position : Nat
  content : Octets
  deriving DecidableEq

/-- The elements that make up constructed content up to its end. The content of an element of
indefinite length is made up of elements in the same way. -/
inductive Elements (rules : EncodingRules) : Bool → Nat → Octets → List PlacedElement → Prop
  | nil {definite : Bool} {position : Nat} {mark : Octets}
    (hend : IsEnd rules definite position mark) : Elements rules definite position mark []
  | definite {definite : Bool} {position : Nat} {form content octets : Octets} {header : Header}
    {elements : List PlacedElement} (hform : Header.IsForm rules position form header)
    (hheader : header.isEndOfContents = false) (hlength : header.length = .definite content.length)
    (hrest : Elements rules definite (position + form.length + content.length) octets elements) :
    Elements rules definite position (form ++ (content ++ octets))
      (⟨header, position + form.length, content⟩ :: elements)
  | indefinite {definite : Bool} {position : Nat} {form content octets : Octets} {header : Header}
    {inner elements : List PlacedElement} (hform : Header.IsForm rules position form header)
    (hheader : header.isEndOfContents = false) (hlength : header.length = .indefinite)
    (hcontent : Elements rules false (position + form.length) content inner)
    (hrest : Elements rules definite (position + form.length + content.length) octets elements) :
    Elements rules definite position (form ++ (content ++ octets))
      (⟨header, position + form.length, content⟩ :: elements)

namespace PlacedElement

/-- Whether the elements in the content of an element are these ones. -/
def IsMadeOf (rules : EncodingRules) (element : PlacedElement) (parts : List PlacedElement) :
    Prop :=
  ∀ others, Elements rules (!element.header.length.isIndefinite) element.position element.content
    others ↔ others = parts

/-- Whether octets are the header of the element and its content, and nothing else. -/
def Fills (rules : EncodingRules) (octets : Octets) (element : PlacedElement) : Prop :=
  ∃ form, octets = form ++ element.content ∧ Header.IsForm rules 0 form element.header ∧
    element.position = form.length

end PlacedElement

/-- Octets that are the content of an element with the header, to be found at the position. -/
def IsContent (rules : EncodingRules) (header : Header) (position : Nat) (octets : Octets) : Prop :=
  (∀ size, header.length = .definite size → octets.length = size) ∧
    (header.length = .indefinite → ∃ inner, Elements rules false position octets inner)

section Extents

variable {rules : EncodingRules} {definite : Bool} {position : Nat} {octets : Octets}

theorem Elements.cons {form content : Octets} {header : Header} {elements : List PlacedElement}
    (hform : Header.IsForm rules position form header) (hheader : header.isEndOfContents = false)
    (hcontent : IsContent rules header (position + form.length) content)
    (hrest : Elements rules definite (position + form.length + content.length) octets elements) :
    Elements rules definite position (form ++ (content ++ octets))
      (⟨header, position + form.length, content⟩ :: elements) := by
  cases hlength : header.length with
  | definite size =>
      obtain rfl := hcontent.1 size hlength
      exact .definite hform hheader hlength hrest
  | indefinite =>
      obtain ⟨inner, hinner⟩ := hcontent.2 hlength
      exact .indefinite hform hheader hlength hinner hrest

theorem Header.IsForm.unique {form other rest after : Octets} {header header' : Header}
    (h : Header.IsForm rules position form header) (h' : Header.IsForm rules position other header')
    (heq : form ++ rest = other ++ after) : form = other ∧ rest = after ∧ header = header' := by
  rw [← Header.reads_read_iff] at h h'
  exact h.unique h' heq

theorem PlacedElement.Fills.unique {element other : PlacedElement}
    (h : element.Fills rules octets) (h' : other.Fills rules octets) : element = other := by
  obtain ⟨form, rfl, hform, hposition⟩ := h
  obtain ⟨form', heq, hform', hposition'⟩ := h'
  obtain ⟨rfl, hcontent, hheader⟩ := hform.unique hform' heq
  obtain ⟨header, position, content⟩ := element
  obtain ⟨header', position', content'⟩ := other
  exact PlacedElement.mk.injEq .. ▸ ⟨hheader, hposition.trans hposition'.symm, hcontent⟩

theorem IsEnd.append_ne {mark form rest after : Octets} {header : Header}
    (hend : IsEnd rules definite position mark) (hrest : definite = true → rest = [])
    (hform : Header.IsForm rules position form header) (hheader : header.isEndOfContents = false) :
    mark ++ rest ≠ form ++ after := by
  intro heq
  cases definite with
  | true =>
      obtain rfl : mark = [] := hend
      rw [hrest rfl] at heq
      exact hform.ne_nil (List.append_eq_nil_iff.mp heq.symm).1
  | false =>
      obtain ⟨marker, hmarker, hmark⟩ := hend
      obtain ⟨-, -, rfl⟩ := hmarker.unique hform heq
      simp [hmark] at hheader

theorem IsEnd.unique {mark other rest after : Octets} (h : IsEnd rules definite position mark)
    (h' : IsEnd rules definite position other) (heq : mark ++ rest = other ++ after) :
    mark = other := by
  cases definite with
  | true => exact Eq.trans h (Eq.symm h')
  | false =>
      obtain ⟨_, hmark, -⟩ := h
      obtain ⟨_, hother, -⟩ := h'
      exact (hmark.unique hother heq).1

/-- Where content starts and whether its length is definite determine which elements it has, and
how far it reaches. -/
theorem Elements.unique {c d rest after : Octets} {elements others : List PlacedElement}
    (h : Elements rules definite position c elements)
    (h' : Elements rules definite position d others) (heq : c ++ rest = d ++ after)
    (hrest : definite = true → rest = []) (hafter : definite = true → after = []) :
    c = d ∧ elements = others := by
  induction h generalizing d others rest after with
  | nil hend =>
      cases h' with
      | nil hend' => exact ⟨hend.unique hend' heq, rfl⟩
      | definite hform hheader | indefinite hform hheader =>
          rw [List.append_assoc] at heq
          exact absurd heq (hend.append_ne hrest hform hheader)
  | definite hform hheader hlength _ ih =>
      rw [List.append_assoc] at heq
      cases h' with
      | nil hend => exact absurd heq.symm (hend.append_ne hafter hform hheader)
      | definite hform' _ hlength' hrest' =>
          simp only [List.append_assoc] at heq
          obtain ⟨rfl, heq, rfl⟩ := hform.unique hform' heq
          obtain ⟨rfl, hoctets⟩ :=
            List.append_inj heq (Length.definite.inj (hlength.symm.trans hlength'))
          obtain ⟨rfl, rfl⟩ := ih hrest' hoctets hrest hafter
          exact ⟨rfl, rfl⟩
      | indefinite hform' _ hlength' =>
          simp only [List.append_assoc] at heq
          obtain ⟨rfl, -, rfl⟩ := hform.unique hform' heq
          simp [hlength'] at hlength
  | indefinite hform hheader hlength _ _ ihcontent ih =>
      rw [List.append_assoc] at heq
      cases h' with
      | nil hend => exact absurd heq.symm (hend.append_ne hafter hform hheader)
      | definite hform' _ hlength' =>
          simp only [List.append_assoc] at heq
          obtain ⟨rfl, -, rfl⟩ := hform.unique hform' heq
          simp [hlength'] at hlength
      | indefinite hform' _ _ hcontent' hrest' =>
          simp only [List.append_assoc] at heq
          obtain ⟨rfl, heq, rfl⟩ := hform.unique hform' heq
          obtain ⟨rfl, -⟩ := ihcontent hcontent' heq nofun nofun
          obtain ⟨rfl, rfl⟩ := ih hrest' (List.append_cancel_left heq) hrest hafter
          exact ⟨rfl, rfl⟩

theorem Elements.isMadeOf {element : PlacedElement} {parts : List PlacedElement}
    (h : Elements rules (!element.header.length.isIndefinite) element.position element.content
      parts) : element.IsMadeOf rules parts := by
  intro others
  constructor
  · intro hothers
    exact (hothers.unique h rfl (fun _ => rfl) (fun _ => rfl)).2
  · rintro rfl
    exact h

theorem ReadsElements.exists_elements_forall₂ {σ α : Type} {readElement : σ → Header → Read (α × σ)}
    {relation : PlacedElement → α → Prop} {state : σ} {results : List α}
    (helement : ∀ {state header position content a next},
      (readElement state header).Reads position content (a, next) →
        IsContent rules header position content ∧ relation ⟨header, position, content⟩ a)
    (h : ReadsElements rules definite readElement position state octets results) :
    ∃ elements, Elements rules definite position octets elements ∧
      List.Forall₂ relation elements results := by
  induction h with
  | nil hend => exact ⟨[], .nil hend, .nil⟩
  | cons hform hheader hreads _ ih =>
      obtain ⟨hcontent, hrelation⟩ := helement hreads
      obtain ⟨elements, helements, hrelations⟩ := ih
      exact ⟨_ :: elements, .cons hform hheader hcontent helements, .cons hrelation hrelations⟩

theorem ReadsElements.exists_elements {σ α : Type} {readElement : σ → Header → Read (α × σ)}
    {state : σ} {results : List α}
    (helement : ∀ {state header position content a next},
      (readElement state header).Reads position content (a, next) →
        IsContent rules header position content)
    (h : ReadsElements rules definite readElement position state octets results) :
    ∃ elements, Elements rules definite position octets elements := by
  have hboth : ∃ elements, Elements rules definite position octets elements ∧
      List.Forall₂ (fun _ _ => True) elements results :=
    h.exists_elements_forall₂ fun hreads => ⟨helement hreads, trivial⟩
  exact hboth.imp fun _ => And.left

theorem isContent_of_definite {header : Header} (h : header.length = .definite octets.length) :
    IsContent rules header position octets := by
  refine ⟨?_, ?_⟩
  · intro _ hsize
    exact Length.definite.inj (h.symm.trans hsize)
  · intro hindefinite
    exact nomatch h.symm.trans hindefinite

theorem isContent_of_readConstructed {α : Type} {header : Header} {readContent : Bool → Read α}
    {a : α} (hlocal : ∀ definite, (readContent definite).IsLocalTo definite)
    (h : (readConstructed header readContent).Reads position octets a)
    (hcontent : (readContent false).ReadsTo false position octets a →
      ∃ inner, Elements rules false position octets inner) :
    IsContent rules header position octets := by
  obtain ⟨-, hsize, hreads⟩ := (reads_readConstructed_iff hlocal).mp h
  refine ⟨hsize, fun hlength => ?_⟩
  rw [hlength] at hreads
  exact hcontent hreads

theorem isContent_of_readSegment {readNested : Header → Read Value}
    (hlocal : ∀ header, (readNested header).IsLocal)
    (hnested : ∀ {header position content value},
      (readNested header).Reads position content value → IsContent rules header position content)
    {header : Header} {short next : Bool} {segment : Octets}
    (h : (readSegment rules readNested short header).Reads position octets (segment, next)) :
    IsContent rules header position octets := by
  rw [readSegment, reads_checkTag_bind_iff] at h
  obtain ⟨-, h⟩ := h
  simp only [failAt_bind, reads_ite_failAt_iff] at h
  obtain ⟨-, h⟩ := h
  cases hconstructed : header.isConstructed with
  | true =>
      simp only [hconstructed, if_true, reads_ite_failAt_iff] at h
      obtain ⟨-, h⟩ := h
      rw [reads_bind_iff (hlocal header) fun value => by
        cases value <;> first | exact isLocal_pure _ | exact isLocal_failAt _ _] at h
      obtain ⟨c, d, value, rfl, hc, hd⟩ := h
      cases value with
      | octetString octets =>
          obtain ⟨rfl, -⟩ := reads_pure_iff.mp hd
          rw [List.append_nil]
          exact hnested hc
      | _ => exact absurd hd not_reads_failAt
  | false =>
      simp only [hconstructed, Bool.false_eq_true, if_false, reads_primitiveSize_bind_iff,
        reads_ite_failAt_iff] at h
      obtain ⟨size, hlength, -, h⟩ := h
      rw [reads_bind_iff (isLocal_takeOctets _) fun _ => isLocal_pure _] at h
      obtain ⟨c, d, _, rfl, hc, hd⟩ := h
      obtain ⟨rfl, rfl⟩ := reads_takeOctets_iff.mp hc
      obtain ⟨rfl, -⟩ := reads_pure_iff.mp hd
      rw [List.append_nil]
      exact isContent_of_definite hlength

theorem exists_elements_of_joinSegments {readNested : Header → Read Value}
    (hlocal : ∀ header, (readNested header).IsLocal)
    (hnested : ∀ {header position content value},
      (readNested header).Reads position content value → IsContent rules header position content)
    {joined : Octets}
    (h : (joinSegments rules readNested definite).ReadsTo definite position octets joined) :
    ∃ inner, Elements rules definite position octets inner := by
  have hok := h.outcome_nil
  rw [joinSegments, outcome_bind_of_ok (outcome_position _)] at hok
  obtain ⟨segments, middle, hsegments, hlast⟩ := exists_of_outcome_bind hok
  obtain ⟨c, rest, rfl, rfl, -, helements⟩ :=
    (outcome_readElements_iff (isLocal_readSegment hlocal)).mp hsegments
  simp only [failAt_bind] at hlast
  obtain ⟨d, last, rfl, hend, hd⟩ :=
    IsLocal.ite (isLocal_failAt _ _) (isLocal_pure _) _ _ _ _ hlast
  obtain ⟨rfl, -⟩ := reads_pure_iff.mp (reads_ite_failAt_iff.mp hd).2
  obtain ⟨rfl, -⟩ := ofOctets_inj.mp hend
  obtain ⟨inner, hinner⟩ :=
    helements.exists_elements fun hreads => isContent_of_readSegment hlocal hnested hreads
  exact ⟨inner, by simpa using hinner⟩

theorem isContent_of_readSegmented {builtin : Builtin} {readJoined : Bool → Read Octets}
    (hlocal : ∀ definite, (readJoined definite).IsLocalTo definite)
    (hjoined : ∀ {position octets joined}, (readJoined false).ReadsTo false position octets joined →
      ∃ inner, Elements rules false position octets inner) {header : Header} {value : Value}
    (h : (readConstructed header (readSegmented rules builtin readJoined)).Reads position octets
      value) : IsContent rules header position octets := by
  refine isContent_of_readConstructed (isLocalTo_readSegmented hlocal builtin) h fun hreads => ?_
  rw [readSegmented, readsTo_false_iff, reads_position_bind_iff,
    reads_bind_iff (isLocalTo_false_iff.mp (hlocal false)) fun _ => isLocal_checked _ _] at hreads
  obtain ⟨c, d, joined, rfl, hc, hd⟩ := hreads
  obtain ⟨rfl, -⟩ := reads_checked_iff.mp hd
  rw [List.append_nil]
  exact hjoined (readsTo_false_iff.mpr hc)

theorem exists_elements_of_readSegments {depth : Nat} {joined : Octets}
    (h : (readSegments rules depth definite).ReadsTo definite position octets joined) :
    ∃ inner, Elements rules definite position octets inner := by
  induction depth generalizing definite position octets joined with
  | zero =>
      exact exists_elements_of_joinSegments (fun _ => isLocal_failAt _ _)
        (fun hreads => absurd hreads not_reads_failAt) h
  | succ depth ih =>
      refine exists_elements_of_joinSegments (fun _ => ?_) (fun hreads => ?_) h
      · exact isLocal_readConstructed
          (isLocalTo_readSegmented (isLocalTo_readSegments rules depth) .octetString)
      · exact isContent_of_readSegmented (isLocalTo_readSegments rules depth) ih hreads

theorem isContent_of_readBuiltin {builtin : Builtin} {header : Header} {tag? : Option Tag}
    {depth : Nat} {value : Value}
    (h : (Decoder.readBuiltin rules builtin ⟨header, tag?, depth⟩).Reads position octets value) :
    IsContent rules header position octets := by
  cases hconstructed : header.isConstructed with
  | false =>
      obtain ⟨-, hlength, -, -⟩ := (reads_readBuiltin_primitive_iff hconstructed).mp h
      exact isContent_of_definite hlength
  | true =>
      rw [Decoder.readBuiltin, reads_checkTag_bind_iff] at h
      obtain ⟨-, h⟩ := h
      simp only [hconstructed, if_true, failAt_bind, reads_ite_failAt_iff,
        reads_ite_else_failAt_iff] at h
      exact isContent_of_readSegmented (isLocalTo_readSegments rules depth)
        exists_elements_of_readSegments h.2.2

theorem Captured.Copies.exists_elements {copy : Header → Read Octets} {copied : Octets}
    (hcopy : ∀ {header position content copied}, (copy header).Reads position content copied →
      IsContent rules header position content)
    (h : Copies rules copy position octets copied) :
    ∃ inner, Elements rules false position octets inner := by
  induction h with
  | last hform hheader hread =>
      obtain ⟨-, hlength⟩ := Header.eq_endOfContents hform.2.1 hheader
      obtain rfl := List.length_eq_zero_iff.mp ((hcopy hread).1 0 hlength)
      rw [List.append_nil]
      exact ⟨[], .nil ⟨_, hform, hheader⟩⟩
  | cons hform hheader hread _ ih =>
      obtain ⟨inner, helements⟩ := ih
      exact ⟨_ :: inner, .cons hform hheader (hcopy hread) helements⟩

theorem isContent_of_copyElement {depth : Nat} {header : Header} {copied : Octets}
    (h : (Captured.copyElement rules depth header).Reads position octets copied) :
    IsContent rules header position octets := by
  induction depth generalizing position header octets copied with
  | zero =>
      cases hlength : header.length with
      | definite size =>
          obtain ⟨rfl, -⟩ := (Captured.reads_copyElement_iff_of_definite hlength).mp h
          exact isContent_of_definite hlength
      | indefinite =>
          obtain ⟨_, _, hdepth, -⟩ := Captured.exists_copies_of_reads hlength h
          contradiction
  | succ depth ih =>
      cases hlength : header.length with
      | definite size =>
          obtain ⟨rfl, -⟩ := (Captured.reads_copyElement_iff_of_definite hlength).mp h
          exact isContent_of_definite hlength
      | indefinite =>
          obtain ⟨inner, others, hdepth, rfl, hcopies⟩ := Captured.exists_copies_of_reads hlength h
          obtain rfl := Nat.succ.inj hdepth
          exact ⟨by simp [hlength], fun _ => hcopies.exists_elements ih⟩

end Extents

namespace CompiledType

variable {rules : EncodingRules} {header : Header} {depth position : Nat} {octets : Octets}

theorem isContent_of_readUnknown {entry : String × Value}
    (h : (Decoder.readUnknown rules header depth).Reads position octets entry) :
    IsContent rules header position octets := by
  obtain ⟨copied, hcopied, -⟩ := Decoder.reads_readUnknown_iff.mp h
  exact isContent_of_copyElement hcopied

theorem isContent_of_readComponent {layout : Layout CompiledType}
    (hcomponents : ∀ component ∈ layout.components, ∀ {header position octets value},
      (component.type.read rules ⟨header, none, depth⟩).Reads position octets value →
        IsContent rules header position octets)
    {previous? next? : Option Nat} {entry : String × Value}
    (h : (Decoder.readComponent rules (layout.map fun type => type.read rules) depth previous?
      header).Reads position octets (entry, next?)) : IsContent rules header position octets := by
  cases hmatch : layout.match? previous? header.tag with
  | some component =>
      obtain ⟨-, -, hreads, -⟩ := (reads_component_iff hmatch).mp h
      exact hcomponents component (Layout.mem_components_of_match? hmatch) hreads
  | none =>
      obtain ⟨-, -, hunknown⟩ := (reads_unknown_iff hmatch).mp h
      exact isContent_of_readUnknown hunknown

theorem isContent_of_collection {info : TypeInfo} {layout : Layout CompiledType}
    (hcomponents : ∀ component ∈ layout.components, ∀ {header position octets value},
      (component.type.read rules ⟨header, none, depth⟩).Reads position octets value →
        IsContent rules header position octets) {tag? : Option Tag} {value : Value}
    (h : (read ⟨info, .collection layout⟩ rules ⟨header, tag?, depth + 1⟩).Reads position octets
      value) : IsContent rules header position octets := by
  have hsize (tag : Tag) (htag : layout.kind.tag? = some tag) :
      ∀ size, header.length = .definite size → octets.length = size := by
    rw [read_collection htag, reads_checkTag_bind_iff, reads_readConstructed_iff
      (Decoder.isLocalTo_readCollection (isLocal_component layout rules))] at h
    exact h.2.2.1
  cases readsCollection_of_reads h with
  | @list _ _ tag element items htag _ helement _ helements =>
      refine ⟨hsize tag htag, fun hlength => ?_⟩
      rw [hlength] at helements
      exact helements.exists_elements fun hreads =>
        hcomponents element (Layout.mem_components_of_element? helement)
          ((Decoder.reads_readItem_iff (isLocal_read element.type rules)).mp hreads)
  | @entries _ _ tag entries htag _ _ helements =>
      refine ⟨hsize tag htag, fun hlength => ?_⟩
      rw [hlength] at helements
      exact helements.exists_elements fun hreads => isContent_of_readComponent hcomponents hreads
  | alternative _ hmatch hvalue =>
      exact hcomponents _ (List.mem_of_find?_eq_some hmatch) hvalue
  | unknown _ _ _ hunknown => exact isContent_of_readUnknown hunknown

/-- Reading a value of a type takes all the content of an element. -/
theorem isContent_of_reads {type : CompiledType} {tag? : Option Tag} {value : Value}
    (h : (type.read rules ⟨header, tag?, depth⟩).Reads position octets value) :
    IsContent rules header position octets := by
  induction h using readsInduct with
  | builtin _ hreads => exact isContent_of_readBuiltin hreads
  | «alias» _ _ ih => exact ih
  | implicit _ _ _ ih => exact ih
  | @explicit _ _ _ _ outer _ _ position form content _ _ h _ hform houter hend ih =>
      refine ⟨(reads_explicit_iff.mp h).2.2.1, fun hlength =>
        ⟨[⟨outer, position + form.length, content⟩], ?_⟩⟩
      rw [hlength] at hend
      exact .cons hform houter ih (.nil hend)
  | collection _ h ih => exact isContent_of_collection ih h

end CompiledType

end Asn1

import Asn1.Proofs.CompilationSteps
import Asn1.Proofs.ValueReferences

namespace Asn1

open Read

namespace Read

variable {α β : Type}

/-- Whether reading stopped because elements are nested too deeply. -/
def IsTooDeep (result : Except DecodeError α) : Prop :=
  ∃ position, result = .error (.format .depthExceeded position)

/-- Whether an operation does the same as another, on any source, unless it stops because elements
are nested too deeply. -/
def CutsOff (limited full : Read α) : Prop :=
  ∀ source, IsTooDeep (limited.outcome source).1 ∨ full.outcome source = limited.outcome source

namespace CutsOff

variable {limited full : Read α} {next other : α → Read β}

theorem refl (operation : Read α) : CutsOff operation operation := by
  intro _
  exact .inr rfl

theorem tooDeep (position : Nat) (full : Read α) :
    CutsOff (failAt .depthExceeded position) full := by
  intro _
  exact .inl ⟨position, rfl⟩

theorem bind (h : CutsOff limited full) (hnext : ∀ a, CutsOff (next a) (other a)) :
    CutsOff (limited >>= next) (full >>= other) := by
  intro source
  rw [outcome_bind, outcome_bind]
  rcases houtcome : limited.outcome source with ⟨error | a, rest⟩
  · rcases h source with ⟨position, hdeep⟩ | hsame
    · obtain rfl : error = .format .depthExceeded position := by simpa [houtcome] using hdeep
      exact .inl ⟨position, rfl⟩
    · exact .inr (by rw [hsame, houtcome])
  · rcases h source with ⟨position, hdeep⟩ | hsame
    · simp [houtcome] at hdeep
    · rw [hsame, houtcome]
      exact hnext a rest

theorem bind_same (operation : Read α) (hnext : ∀ a, CutsOff (next a) (other a)) :
    CutsOff (operation >>= next) (operation >>= other) :=
  (refl operation).bind hnext

theorem ite {condition : Prop} [Decidable condition] {limited' full' : Read α}
    (h : CutsOff limited full) (hnot : CutsOff limited' full') :
    CutsOff (if condition then limited else limited') (if condition then full else full') := by
  split
  · exact h
  · exact hnot

theorem within (h : CutsOff limited full) (octets : Octets) (position : Nat) :
    CutsOff (within octets position limited) (within octets position full) := by
  intro source
  rw [outcome_within, outcome_within]
  exact (h _).imp_right fun hsame => by rw [hsame]

end CutsOff

end Read

variable {rules : EncodingRules} {depth deeper : Nat}

section Elements

variable {σ α : Type} {limited full : σ → Header → Read (α × σ)}

theorem cutsOff_readElementsWithin
    (h : ∀ state header, CutsOff (limited state header) (full state header)) (definite : Bool)
    (count : Nat) (state : σ) :
    CutsOff (readElementsWithin rules definite limited count state)
      (readElementsWithin rules definite full count state) := by
  induction count generalizing state with
  | zero => exact .refl _
  | succ count ih =>
      refine .bind_same _ fun header? => ?_
      cases header? with
      | none => exact .refl _
      | some header => exact (h state header).bind fun found => (ih found.2).bind fun _ => .refl _

theorem cutsOff_readElements
    (h : ∀ state header, CutsOff (limited state header) (full state header)) (definite : Bool)
    (state : σ) :
    CutsOff (readElements rules definite limited state)
      (readElements rules definite full state) := by
  refine .bind_same _ ?_
  intro _
  exact cutsOff_readElementsWithin h definite _ state

theorem cutsOff_readConstructed {limited full : Bool → Read α}
    (h : ∀ definite, CutsOff (limited definite) (full definite)) (header : Header) :
    CutsOff (readConstructed header limited) (readConstructed header full) := by
  rw [readConstructed, readConstructed]
  refine .ite ?_ (.refl _)
  cases header.length with
  | definite size =>
      exact .bind_same _ fun start => .bind_same _ fun octets => (h true).within octets start
  | indefinite => exact h false

end Elements

section Leaves

theorem cutsOff_readSegment {limited full : Header → Read Value}
    (h : ∀ header, CutsOff (limited header) (full header)) (short : Bool) (header : Header) :
    CutsOff (readSegment rules limited short header) (readSegment rules full short header) := by
  rw [readSegment, readSegment]
  refine .bind_same _ fun _ => .ite (.refl _) (.ite (.ite (.refl _) ?_) (.refl _))
  exact (h header).bind fun _ => .refl _

theorem cutsOff_joinSegments {limited full : Header → Read Value}
    (h : ∀ header, CutsOff (limited header) (full header)) (definite : Bool) :
    CutsOff (joinSegments rules limited definite) (joinSegments rules full definite) := by
  refine .bind_same _ ?_
  intro _
  apply (cutsOff_readElements (cutsOff_readSegment h) definite false).bind
  intro _
  exact .refl _

theorem cutsOff_readSegmented {limited full : Bool → Read Octets}
    (h : ∀ definite, CutsOff (limited definite) (full definite)) (builtin : Builtin)
    (definite : Bool) :
    CutsOff (readSegmented rules builtin limited definite)
      (readSegmented rules builtin full definite) := by
  refine .bind_same _ ?_
  intro _
  apply (h definite).bind
  intro _
  exact .refl _

theorem cutsOff_readSegments (hle : depth ≤ deeper) (definite : Bool) :
    CutsOff (readSegments rules depth definite) (readSegments rules deeper definite) := by
  induction depth generalizing deeper definite with
  | zero =>
      cases deeper with
      | zero => exact .refl _
      | succ deeper =>
          exact cutsOff_joinSegments (fun header => .tooDeep header.position _) definite
  | succ depth ih =>
      obtain ⟨deeper, rfl⟩ := Nat.exists_eq_add_one_of_ne_zero (n := deeper) (by omega)
      refine cutsOff_joinSegments (cutsOff_readConstructed ?_) definite
      exact cutsOff_readSegmented (ih (Nat.le_of_succ_le_succ hle)) .octetString

theorem cutsOff_readBuiltin (hle : depth ≤ deeper) (builtin : Builtin) (header : Header)
    (tag? : Option Tag) :
    CutsOff (Decoder.readBuiltin rules builtin ⟨header, tag?, depth⟩)
      (Decoder.readBuiltin rules builtin ⟨header, tag?, deeper⟩) := by
  simp only [Decoder.readBuiltin, failAt_bind]
  refine .bind_same _ fun _ => .ite (.ite (.ite (.refl _) ?_) (.refl _)) (.refl _)
  exact cutsOff_readConstructed
    (cutsOff_readSegmented (cutsOff_readSegments hle) builtin) header

end Leaves

section Captured

theorem cutsOff_copyElements {limited full : Header → Read Octets}
    (h : ∀ header, CutsOff (limited header) (full header)) (count : Nat) :
    CutsOff (Captured.copyElements rules limited count)
      (Captured.copyElements rules full count) := by
  induction count with
  | zero => exact .refl _
  | succ count ih =>
      refine .bind_same _ fun _ => .bind_same _ fun header? => ?_
      cases header? with
      | none => exact .refl _
      | some header =>
          exact (h header).bind fun _ => .ite (.refl _) (ih.bind fun _ => .refl _)

theorem cutsOff_copyElement (hle : depth ≤ deeper) (header : Header) :
    CutsOff (Captured.copyElement rules depth header)
      (Captured.copyElement rules deeper header) := by
  induction depth generalizing deeper header with
  | zero =>
      unfold Captured.copyElement
      cases header.length with
      | definite size => exact .refl _
      | indefinite => exact .tooDeep header.position _
  | succ depth ih =>
      obtain ⟨deeper, rfl⟩ := Nat.exists_eq_add_one_of_ne_zero (n := deeper) (by omega)
      unfold Captured.copyElement
      cases header.length with
      | definite size => exact .refl _
      | indefinite =>
          refine .bind_same _ fun source => ?_
          exact (cutsOff_copyElements (ih (Nat.le_of_succ_le_succ hle)) _).bind fun _ => .refl _

theorem cutsOff_readUnknown (hle : depth ≤ deeper) (header : Header) :
    CutsOff (Decoder.readUnknown rules header depth)
      (Decoder.readUnknown rules header deeper) := by
  apply CutsOff.bind ((cutsOff_copyElement hle header).bind fun _ => .refl _)
  intro _
  exact .refl _

end Captured

section Types

variable {layout : Layout CompiledType}

theorem cutsOff_readExplicit {inner : ValueReader}
    (h : ∀ header, CutsOff (inner ⟨header, none, depth⟩) (inner ⟨header, none, deeper⟩))
    (definite : Bool) :
    CutsOff (Decoder.readExplicit rules inner depth definite)
      (Decoder.readExplicit rules inner deeper definite) := by
  refine .bind_same _ fun _ => .bind_same _ fun header? => ?_
  cases header? with
  | none => exact .refl _
  | some header => exact (h header).bind fun _ => .refl _

theorem cutsOff_readComponent (hle : depth ≤ deeper)
    (h : ∀ component ∈ layout.components, ∀ header,
      CutsOff (component.type.read rules ⟨header, none, depth⟩)
        (component.type.read rules ⟨header, none, deeper⟩))
    (previous? : Option Nat) (header : Header) :
    CutsOff (Decoder.readComponent rules (layout.map fun type => type.read rules) depth previous?
        header)
      (Decoder.readComponent rules (layout.map fun type => type.read rules) deeper previous?
        header) := by
  rw [Decoder.readComponent_eq, Decoder.readComponent_eq, Layout.match?_map]
  cases hmatch : layout.match? previous? header.tag with
  | some component =>
      exact (h component (Layout.mem_components_of_match? hmatch) header).bind fun _ => .refl _
  | none => exact .ite ((cutsOff_readUnknown hle header).bind fun _ => .refl _) (.refl _)

theorem cutsOff_readCollection (hle : depth ≤ deeper)
    (h : ∀ component ∈ layout.components, ∀ header,
      CutsOff (component.type.read rules ⟨header, none, depth⟩)
        (component.type.read rules ⟨header, none, deeper⟩))
    (definite : Bool) :
    CutsOff (Decoder.readCollection rules (layout.map fun type => type.read rules) depth definite)
      (Decoder.readCollection rules (layout.map fun type => type.read rules) deeper definite) := by
  rw [Decoder.readCollection, Decoder.readCollection, Layout.element?_map]
  refine .ite ?_ ?_
  · cases helement : layout.element? with
    | none => exact .refl _
    | some element =>
        have hitem (state : Unit) (header : Header) :=
          (h element (Layout.mem_components_of_element? helement) header).bind
            fun value => CutsOff.refl (pure (value, state))
        exact (cutsOff_readElements hitem definite ()).bind fun _ => .refl _
  · exact (cutsOff_readElements (cutsOff_readComponent hle h) definite none).bind fun _ => .refl _

theorem cutsOff_readChoice (hle : depth ≤ deeper)
    (h : ∀ component ∈ layout.components, ∀ header,
      CutsOff (component.type.read rules ⟨header, none, depth⟩)
        (component.type.read rules ⟨header, none, deeper⟩))
    (header : Header) :
    CutsOff (Decoder.readChoice rules (layout.map fun type => type.read rules) header depth)
      (Decoder.readChoice rules (layout.map fun type => type.read rules) header deeper) := by
  rw [Decoder.readChoice, Decoder.readChoice, Layout.componentByTag?_map]
  cases hmatch : layout.componentByTag? header.tag with
  | some component =>
      exact (h component (List.mem_of_find?_eq_some hmatch) header).bind fun _ => .refl _
  | none => exact .ite ((cutsOff_readUnknown hle header).bind fun _ => .refl _) (.refl _)

namespace CompiledType

/-- Whatever the type, an element is read alike with more depth left. -/
theorem cutsOff_read (type : CompiledType) (hle : depth ≤ deeper) (header : Header)
    (tag? : Option Tag) :
    CutsOff (type.read rules ⟨header, tag?, depth⟩) (type.read rules ⟨header, tag?, deeper⟩) := by
  obtain ⟨extra, rfl⟩ := Nat.exists_eq_add_of_le' hle
  clear hle
  have hdeeper (depth : Nat) : depth ≤ extra + depth := Nat.le_add_left depth extra
  induction type, tag?, depth using readInduct generalizing header with
  | zero type tag? =>
      rw [read_zero]
      exact .tooDeep header.position _
  | builtin info builtin tag? depth =>
      rw [← Nat.add_assoc, read_builtin, read_builtin]
      exact cutsOff_readBuiltin (hdeeper depth) builtin header tag?
  | «alias» info target tag? depth ih =>
      rw [← Nat.add_assoc, read_alias, read_alias]
      exact ih header
  | implicit info tag inner tag? depth ih =>
      rw [← Nat.add_assoc, read_implicit, read_implicit]
      exact ih header
  | explicit info tag inner tag? depth ih =>
      rw [← Nat.add_assoc, read_explicit, read_explicit]
      refine .bind_same _ fun _ => cutsOff_readConstructed ?_ header
      exact cutsOff_readExplicit (ih none depth)
  | constructed info layout tag tag? depth htag ih =>
      have hcomponents (component) (hmem : component ∈ layout.components) :=
        ih component hmem none depth
      rw [← Nat.add_assoc, read_collection htag, read_collection htag]
      refine .bind_same _ fun _ => cutsOff_readConstructed ?_ header
      exact cutsOff_readCollection (hdeeper depth) hcomponents
  | choice info layout depth hkind ih =>
      have hcomponents (component) (hmem : component ∈ layout.components) :=
        ih component hmem none depth
      rw [← Nat.add_assoc, read_choice hkind, read_choice hkind]
      exact cutsOff_readChoice (hdeeper depth) hcomponents header
  | taggedChoice info layout tag depth hkind =>
      rw [← Nat.add_assoc, read_tagged_choice hkind, read_tagged_choice hkind]
      exact .refl _

end CompiledType

end Types

namespace Value

mutual

/-- The number of levels of collections and lists in a value. -/
def nesting : Value → Nat
  | collection entries => entryNesting entries + 1
  | list items => itemNesting items + 1
  | _ => 0

def entryNesting : List (String × Value) → Nat
  | [] => 0
  | (_, value) :: rest => max (nesting value) (entryNesting rest)

def itemNesting : List Value → Nat
  | [] => 0
  | value :: rest => max (nesting value) (itemNesting rest)

end

variable {limit : Nat}

theorem nesting_collection_le_iff {entries : Entries} :
    (collection entries).nesting ≤ limit + 1 ↔ ∀ entry ∈ entries, entry.2.nesting ≤ limit := by
  rw [nesting, Nat.add_le_add_iff_right]
  induction entries with
  | nil => simp [entryNesting]
  | cons entry rest ih => rw [entryNesting, Nat.max_le, ih, List.forall_mem_cons]

theorem nesting_list_le_iff {items : List Value} :
    (list items).nesting ≤ limit + 1 ↔ ∀ item ∈ items, item.nesting ≤ limit := by
  rw [nesting, Nat.add_le_add_iff_right]
  induction items with
  | nil => simp [itemNesting]
  | cons item rest ih => rw [itemNesting, Nat.max_le, ih, List.forall_mem_cons]

theorem IsLeaf.nesting_eq {value : Value} (h : value.IsLeaf) : value.nesting = 0 := by
  cases value with
  | collection | list => exact h.elim
  | _ => rfl

end Value

theorem CompiledType.nesting_le_of_reads {type : CompiledType} {header : Header}
    {tag? : Option Tag} {position : Nat} {octets : Octets} {value : Value}
    (h : (type.read rules ⟨header, tag?, depth⟩).Reads position octets value) :
    value.nesting ≤ depth := by
  exact of_reads (fun _ => True) (fun depth value => value.nesting ≤ depth)
    (fun _ _ _ _ _ => trivial) (fun _ _ hleaf => hleaf.nesting_eq ▸ Nat.zero_le _)
    (fun _ _ _ _ _ _ _ => Nat.zero_le _) (fun _ _ hle => Nat.le_succ_of_le hle)
    (fun _ _ => Value.nesting_list_le_iff.mpr) (fun _ _ => Value.nesting_collection_le_iff.mpr)
    trivial h

namespace Schema

variable {schema : Schema} {handle : Handle} {limit higher : Nat}

theorem cutsOff_decodeOne (hle : limit ≤ higher) :
    CutsOff (schema.decodeOne handle ⟨rules, limit⟩) (schema.decodeOne handle ⟨rules, higher⟩) := by
  refine .bind_same _ fun _ => .bind_same _ fun type => .bind_same _ fun header => ?_
  exact (type.cutsOff_read hle header none).bind fun _ => .refl _

theorem cutsOff_decodeAll (hle : limit ≤ higher) :
    CutsOff (schema.decodeAll handle ⟨rules, limit⟩) (schema.decodeAll handle ⟨rules, higher⟩) := by
  apply (cutsOff_decodeOne hle).bind
  intro _
  exact .refl _

theorem nesting_le_of_decodeOne {decoder : Decoder} {source rest : Source} {value : Value}
    (hbounded : source.IsBounded)
    (h : (schema.decodeOne handle decoder).outcome source = (.ok value, rest)) :
    value.nesting ≤ decoder.maxDepth := by
  obtain ⟨octets, -, hreads⟩ := exists_reads_of_outcome (isLocal_decodeOne schema handle decoder)
    (fun c => agrees_decodeOne c _ _ _) hbounded h
  obtain ⟨type, hcompiled⟩ := exists_compiled_of_reads hreads
  obtain ⟨_, _, _, -, -, hvalue, -⟩ := (reads_decodeOne_iff hcompiled).mp hreads
  exact CompiledType.nesting_le_of_reads hvalue

/-- The limit of nesting only cuts off. Whatever decoding gives, a value or an error at a position,
if that is not that elements are nested too deeply, it also gives with a higher limit, and it leaves
the same source behind. A value nests no deeper than the limit. -/
theorem decode_of_limit_le {decode : Decoder → Read Value}
    (hdecode : decode = schema.decodeOne handle ∨ decode = schema.decodeAll handle)
    (hle : limit ≤ higher) {source : Source} (hbounded : source.IsBounded) :
    (¬IsTooDeep ((decode ⟨rules, limit⟩).outcome source).1 →
      (decode ⟨rules, higher⟩).outcome source = (decode ⟨rules, limit⟩).outcome source) ∧
        ∀ value, ((decode ⟨rules, limit⟩).outcome source).1 = .ok value →
          value.nesting ≤ limit := by
  have hcuts : CutsOff (decode ⟨rules, limit⟩) (decode ⟨rules, higher⟩) := by
    rcases hdecode with rfl | rfl
    · exact cutsOff_decodeOne hle
    · exact cutsOff_decodeAll hle
  refine ⟨(hcuts source).resolve_left, fun value hvalue => ?_⟩
  have houtcome : (decode ⟨rules, limit⟩).outcome source = (.ok value, _) :=
    Prod.ext hvalue (Eq.refl (Prod.snd _))
  rcases hdecode with rfl | rfl
  · exact nesting_le_of_decodeOne hbounded houtcome
  · obtain ⟨_, hone, -⟩ := exists_decodeOne_of_decodeAll houtcome
    exact nesting_le_of_decodeOne hbounded hone

/-- A collection costs one unit of depth and the type of its component another. -/
theorem decode_of_limit_le_defaultedSequence :
    let octets : Octets := [0x30, 0x80, 0x02, 0x01, 0x05, 0x00, 0x00]
    let source := Source.ofOctets octets 0
    let value : Value := .collection [("x", .integer ⟨5, by decide, by decide⟩)]
    let decode := defaultedSequence.decodeAll ⟨2⟩
    ((decode ⟨.ber, 2⟩).outcome source).1 = .ok value ∧
      (decode ⟨.ber, 64⟩).outcome source = (decode ⟨.ber, 2⟩).outcome source ∧
        value.nesting ≤ 2 := by
  intro octets source value decode
  have hvalue : defaultedSequence.decode ⟨2⟩ ⟨.ber, 2⟩ octets = .ok value := by decide +kernel
  change ((decode ⟨.ber, 2⟩).outcome source).1 = .ok value at hvalue
  have hdeep : ¬IsTooDeep ((decode ⟨.ber, 2⟩).outcome source).1 := by
    rintro ⟨position, herror⟩
    rw [hvalue] at herror
    cases herror
  have hle : 2 ≤ 64 := by decide
  obtain ⟨hsame, hnesting⟩ := decode_of_limit_le (.inr rfl : _ ∨ decode = _) hle
    (Source.isBounded_ofOctets octets 0)
  exact ⟨hvalue, hsame hdeep, hnesting value hvalue⟩

example : IsTooDeep (defaultedSequence.decode ⟨2⟩ ⟨.ber, 1⟩ [0x30, 0x03, 0x02, 0x01, 0x05]) :=
  ⟨2, by decide +kernel⟩

end Schema

end Asn1

import Asn1.Encoding

/-!
Writing piece by piece to a target that may fail at any piece. An encoder writes the content of a
constructed value of definite length to a vec of its own first, everything else goes straight to the
target.
-/

namespace Asn1

/-- What takes octets piece by piece. A target that fails has taken a front part of the piece. -/
structure Target (σ : Type) where
  writeAll : Octets → σ → Except String Unit × σ
  /-- All octets that have arrived. -/
  received : σ → Octets
  exists_taken : ∀ piece state, ∃ taken rest, piece = taken ++ rest ∧
    received (writeAll piece state).2 = received state ++ taken ∧
    ((writeAll piece state).1 = .ok () → rest = [])

/-- Writing to something that has states. -/
abbrev Put (σ : Type) := ExceptT EncodeError (StateM σ)

/-- What comes of writing, and the state it leads to. -/
def Put.outcome {σ : Type} (put : Put σ Unit) (state : σ) : Except EncodeError Unit × σ :=
  put.run state

namespace Target

variable {σ : Type} (target : Target σ)

/-- A vec takes everything. -/
def vec : Target Octets where
  writeAll piece taken := (.ok (), taken ++ piece)
  received := id
  exists_taken piece _ := ⟨piece, [], (List.append_nil _).symm, rfl, fun _ => rfl⟩

/-- A target that takes `limit` octets in all and then fails for a reason. -/
def limited (limit : Nat) (reason : String) :
    Target { taken : Octets // taken.length ≤ limit } where
  writeAll piece taken :=
    if h : taken.val.length + piece.length ≤ limit then
      (.ok (), ⟨taken.val ++ piece, by simpa using h⟩)
    else
      (.error reason, ⟨taken.val ++ piece.take (limit - taken.val.length), by
        have := taken.property
        simp only [List.length_append, List.length_take]
        omega⟩)
  received := Subtype.val
  exists_taken piece taken := by
    by_cases h : taken.val.length + piece.length ≤ limit
    · exact ⟨piece, [], (List.append_nil _).symm, by simp [h], fun _ => rfl⟩
    · refine ⟨_, _, (List.take_append_drop (limit - taken.val.length) piece).symm, ?_, ?_⟩
      · simp [h]
      · simp [h]

/-- Writes one piece. -/
def write (piece : Octets) : Put σ Unit := fun state =>
  match target.writeAll piece state with
  | (.ok (), next) => (.ok (), next)
  | (.error reason, next) => (.error (.target reason), next)

end Target

/-- The pieces in which a length is written: the octet that counts those of a size comes first. -/
def Length.pieces : Length → List Octets
  | definite size =>
    if size < 128 then [[UInt8.ofNat size]]
    else
      let digits := BigEndian.encode size
      [[UInt8.ofNat (128 + digits.length)], digits]
  | indefinite => [[128]]

/-- Writes identifier and length octets. -/
def Target.writeHeader {σ : Type} (target : Target σ) (tag : Tag) (constructed : Bool)
    (length : Length) : Put σ Unit := do
  target.write (Identifier.mk tag constructed).octets
  length.pieces.forM target.write

/-- Writing the same thing to a target and to a vec that holds it back. -/
structure Puts (σ : Type) where
  direct : Put σ Unit
  buffered : Put Octets Unit

namespace Encoder

variable (encoder : Encoder) {σ τ : Type}

section

variable (target : Target τ)

/-- Writes a constructed element to a target. With buffering, its content goes to a new vec. -/
def putConstructed (tag : Tag) (content : Put τ Unit) (buffered : Put Octets Unit) : Put τ Unit :=
  if encoder.buffering && encoder.rules.allowsDefiniteConstructed then
    match buffered.outcome [] with
    | (.error error, _) => throw error
    | (.ok (), buffer) => do
      target.writeHeader tag true (.definite buffer.length)
      target.write buffer
  else if encoder.rules.allowsIndefiniteConstructed then do
    target.writeHeader tag true .indefinite
    content
    target.write Header.endOfContents
  else throw (.format (.ruleViolation .bufferingRequired))

/-- Writes a primitive element to a target. -/
def putPrimitive (tag : Tag) (content : Octets) : Put τ Unit := do
  target.writeHeader tag false (.definite content.length)
  target.write content

/-- Writes the segments of a string to a target. -/
def putSegments (content : Octets) : Put τ Unit :=
  (segments EncodingRules.segmentLength content).forM (putPrimitive target .octetString)

/-- Writes the value of a leaf type to a target. -/
def putBuiltin (builtin : Builtin) (value : Value) (tag : Tag) : Put τ Unit :=
  match builtin.encodeContent encoder.rules value with
  | .error error => throw (.ofFormatError error)
  | .ok content =>
    if !encoder.rules.allowsDefiniteConstructed && builtin.isSegmentable &&
        EncodingRules.segmentLength < content.length then
      encoder.putConstructed target tag (putSegments target content) (putSegments .vec content)
    else putPrimitive target tag content

/-- Writes an entry that the type does not know to a target. -/
def putUnknown (value : Value) : Put τ Unit :=
  match value with
  | .captured element =>
    match encoder.rules.isRestricted, Captured.ofOctets encoder.rules element.octets with
    | true, .error _ => throw (.format (.ruleViolation .capturedValue))
    | _, _ => target.write element.octets
  | _ => throw (.value (.illegal (.unknownNotEncodable value.kind)))

/-- Writes the elements or entries of a collection value to a target, of which `side` is the one
that is written to. -/
def putContent (side : Puts σ → Put τ Unit) (layout : Layout (Value × Option Tag → Puts σ))
    (value : Value) : Put τ Unit :=
  if layout.kind.isList then
    match layout.element?, value with
    | none, _ => throw (.value (.illegal .listWithoutElement))
    | some element, .list items => items.forM fun item => side (element.type (item, none))
    | some _, _ => throw (.value (.illegal (.listExpected value.kind)))
  else
    match value with
    | .collection entries => entries.forM fun (name, value) =>
      match layout.component? name with
      | some component => side (component.type (value, none))
      | none => encoder.putUnknown target value
    | _ => throw (.value (.illegal (.collectionExpected value.kind)))

/-- Writes the value of a type to a target, of which `side` is the one that is written to. -/
def putForm (side : Puts σ → Put τ Unit) (form : TypeForm (Value × Option Tag → Puts σ)) :
    Value × Option Tag → Put τ Unit
  | (value, tag?) =>
    match form with
    | .builtin builtin => encoder.putBuiltin target builtin value (tag?.getD builtin.tag)
    | .alias next => side (next (value, tag?))
    | .tagged tag .implicit inner => side (inner (value, some (tag?.getD tag)))
    | .tagged tag .explicit inner =>
      encoder.putConstructed target (tag?.getD tag) (side (inner (value, none)))
        (inner (value, none)).buffered
    | .collection layout =>
      match layout.kind.tag?, tag? with
      | some tag, _ =>
        encoder.putConstructed target (tag?.getD tag) (encoder.putContent target side layout value)
          (encoder.putContent .vec Puts.buffered layout value)
      | none, some _ => throw (.value (.illegal .implicitlyTaggedChoice))
      | none, none => encoder.putContent target side layout value

end

/-- Writes the value of a type to a target, and to a vec in its place, in terms of what writes the
values of the types it holds. -/
def putStep (target : Target σ) (_ : TypeInfo) (form : TypeForm (Value × Option Tag → Puts σ))
    (input : Value × Option Tag) : Puts σ where
  direct := encoder.putForm target Puts.direct form input
  buffered := encoder.putForm .vec Puts.buffered form input

end Encoder

/-- Writes a canonical value of a type to a target. -/
def CompiledType.writeTo {σ : Type} (type : CompiledType) (encoder : Encoder) (target : Target σ)
    (value : Value) : Put σ Unit :=
  (type.interpret (encoder.putStep target) (value, none)).direct

/-- Writes the canonical form of a value of a type to a target. -/
def Schema.encodeTo {σ : Type} (schema : Schema) (handle : Handle) (encoder : Encoder)
    (value : Value) (target : Target σ) : Put σ Unit :=
  match schema.canonicalize handle value, schema.compiled handle with
  | .error error, _ => throw (.value error)
  | .ok _, .error error => throw (.value (.schema error))
  | .ok form, .ok type => type.writeTo encoder target form.value

end Asn1

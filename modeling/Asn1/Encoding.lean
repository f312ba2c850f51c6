import Asn1.Captured.Read
import Asn1.Schema

/-!
Encoding values. Constructed values preferably have a definite length, for which their content has
to be complete before it is written. An encoder that does not buffer content, or rules that demand
it, lead to indefinite length.
-/

namespace Asn1

/-- What has been written, and what kept the rest from being written. -/
structure Written where
  octets : Octets
  failure? : Option EncodeError

namespace Written

def done (octets : Octets) : Written := ⟨octets, none⟩

def fail (error : EncodeError) : Written := ⟨[], some error⟩

/-- Continues writing, unless that has failed. -/
def append (first second : Written) : Written :=
  match first.failure? with
  | some _ => first
  | none => ⟨first.octets ++ second.octets, second.failure?⟩

instance : Append Written := ⟨append⟩

/-- Writes one thing after the other. -/
def concat : List Written → Written
  | [] => done []
  | first :: rest => first ++ concat rest

/-- What arrives at a target that takes `limit` octets in all and then fails for a reason. -/
def limited (limit : Nat) (reason : String) (written : Written) : Written :=
  if limit < written.octets.length then
    ⟨written.octets.take limit, some (.target reason)⟩
  else written

/-- All octets, unless writing has failed. -/
def toExcept (written : Written) : Except EncodeError Octets :=
  match written.failure? with
  | some error => .error error
  | none => .ok written.octets

end Written

/-- How values are encoded. -/
structure Encoder where
  rules : EncodingRules
  /-- Whether the content of constructed values may be held back until it is complete. -/
  buffering : Bool

/-- The octets in front of the content of an element. -/
def headerOctets (tag : Tag) (constructed : Bool) (length : Length) : Octets :=
  (Identifier.mk tag constructed).octets ++ length.octets

/-- A primitive element. -/
def primitiveElement (tag : Tag) (content : Octets) : Octets :=
  headerOctets tag false (.definite content.length) ++ content

/-- Cuts content into pieces of the given size, the last of which may be shorter. -/
def segments (size : Nat) (content : Octets) : List Octets :=
  if 0 < size ∧ size < content.length then
    content.take size :: segments size (content.drop size)
  else if content.isEmpty then []
  else [content]
termination_by content.length
decreasing_by simp_all; omega

/-- Writes the value of a type; the tag, if there is one, replaces the type's own. -/
abbrev ValueWriter := Value × Option Tag → Written

namespace Encoder

variable (encoder : Encoder)

/-- Writes a constructed element. With buffering, nothing is written if its content fails. -/
def constructed (tag : Tag) (content : Written) : Written :=
  if encoder.buffering && encoder.rules.allowsDefiniteConstructed then
    match content.failure? with
    | some error => .fail error
    | none =>
      .done (headerOctets tag true (.definite content.octets.length) ++ content.octets)
  else if encoder.rules.allowsIndefiniteConstructed then
    .done (headerOctets tag true .indefinite) ++ content ++ .done Header.endOfContents
  else .fail (.format (.ruleViolation .bufferingRequired))

/-- Writes the value of a leaf type. Rules without definite constructed values demand that a long
string is broken up into segments. -/
def builtin (builtin : Builtin) (value : Value) (tag : Tag) : Written :=
  match builtin.encodeContent encoder.rules value with
  | .error error => .fail (.ofFormatError error)
  | .ok content =>
    if !encoder.rules.allowsDefiniteConstructed && builtin.isSegmentable &&
        EncodingRules.segmentLength < content.length then
      encoder.constructed tag <| .concat <|
        (segments EncodingRules.segmentLength content).map fun segment =>
          .done (primitiveElement .octetString segment)
    else .done (primitiveElement tag content)

/-- Writes an entry that the type does not know, which has to be a captured element. Under
restricted rules its encoding has to obey them. -/
def unknown (value : Value) : Written :=
  match value with
  | .captured element =>
    match encoder.rules.isRestricted, Captured.ofOctets encoder.rules element.octets with
    | true, .error _ => .fail (.format (.ruleViolation .capturedValue))
    | _, _ => .done element.octets
  | _ => .fail (.value (.illegal (.unknownNotEncodable value.kind)))

/-- Writes the elements or entries of a collection value in order. -/
def content (layout : Layout ValueWriter) (value : Value) : Written :=
  if layout.kind.isList then
    match layout.element?, value with
    | none, _ => .fail (.value (.illegal .listWithoutElement))
    | some element, .list items => .concat (items.map fun item => element.type (item, none))
    | some _, _ => .fail (.value (.illegal (.listExpected value.kind)))
  else
    match value with
    | .collection entries => .concat <| entries.map fun (name, value) =>
      match layout.component? name with
      | some component => component.type (value, none)
      | none => encoder.unknown value
    | _ => .fail (.value (.illegal (.collectionExpected value.kind)))

/-- Writes the value of a type in terms of what writes the values of the types it holds. -/
def step (_ : TypeInfo) (form : TypeForm ValueWriter) : ValueWriter
  | (value, tag?) =>
    match form with
    | .builtin builtin => encoder.builtin builtin value (tag?.getD builtin.tag)
    | .alias target => target (value, tag?)
    | .tagged tag .implicit inner => inner (value, some (tag?.getD tag))
    | .tagged tag .explicit inner => encoder.constructed (tag?.getD tag) (inner (value, none))
    | .collection layout =>
      match layout.kind.tag?, tag? with
      | some tag, _ => encoder.constructed (tag?.getD tag) (encoder.content layout value)
      | none, some _ => .fail (.value (.illegal .implicitlyTaggedChoice))
      | none, none => encoder.content layout value

end Encoder

/-- Writes a canonical value of a type. -/
def CompiledType.write (type : CompiledType) (encoder : Encoder) (value : Value) : Written :=
  type.interpret encoder.step (value, none)

/-- Writes the canonical form of a value of a type. -/
def Schema.encode (schema : Schema) (handle : Handle) (encoder : Encoder) (value : Value) :
    Written :=
  match schema.canonicalize handle value, schema.compiled handle with
  | .error error, _ => .fail (.value error)
  | .ok _, .error error => .fail (.value (.schema error))
  | .ok form, .ok type => type.write encoder form.value

end Asn1

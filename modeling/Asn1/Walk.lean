import Asn1.Error
import Asn1.Layout

/-!
Walking collection values. The entries of a value are matched to the components of a layout by
name, and what is asked of their order and presence is checked. What is done with an entry is up to
the caller, whose errors and those of the walk come in the order of the entries.
-/

namespace Asn1

/-- What is done with an entry, given the component it names. Entries that name none are only
passed on if the layout allows them. -/
abbrev Visit (τ α : Type) := Option (Component τ) → String × Value → Except ValueError α

namespace Layout

variable {τ α : Type} (layout : Layout τ)

def wrongKind (found : ValueKind) : ValueError :=
  .illegal (.wrongKind (.collection layout.kind) found)

/-- The elements of a list value. -/
def items (value : Value) : Except ValueError (List Value) :=
  match value with
  | .list items => .ok items
  | _ => .error (layout.wrongKind value.kind)

/-- The entries of a collection value. -/
def entries (value : Value) : Except ValueError Entries :=
  match value with
  | .collection entries => .ok entries
  | _ => .error (layout.wrongKind value.kind)

def missing (component : Component τ) : ValueError :=
  .missingRequired component.name component.index

variable (visit : Visit τ α)

/-- Walks the entries of a SEQUENCE value, which have to come in index order. A required component
may be left out only if its version is above those of all components present before it. `previous?`
and `version` are the last index and the greatest version seen so far. -/
def walkSequence (previous? : Option Nat) (version : Nat) :
    Entries → Except ValueError (List α)
  | [] =>
    match layout.missingRequired? previous? none version with
    | some component => throw (missing component)
    | none => return []
  | entry :: rest => do
    match layout.component? entry.1 with
    | none =>
      unless layout.allowsUnknown previous? do throw (.unknownComponent entry.1)
      return (← visit none entry) :: (← walkSequence previous? version rest)
    | some component =>
      if previous?.any (component.index ≤ ·) then throw (.order entry.1)
      let version := max version component.version
      match layout.missingRequired? previous? (some component.index) version with
      | some component => throw (missing component)
      | none =>
        return (← visit (some component) entry) ::
          (← walkSequence (some component.index) version rest)

/-- Walks the entries of a SET value, which may come in any order but must not repeat a component.
`seen` and `version` are the indexes and the greatest version seen so far. -/
def walkSet (seen : List Nat) (version : Nat) : Entries → Except ValueError (List α)
  | [] =>
    match layout.components.find? fun component =>
        component.isRequired && component.version ≤ version && !seen.contains component.index with
    | some component => throw (missing component)
    | none => return []
  | entry :: rest => do
    match layout.component? entry.1 with
    | none =>
      unless layout.allowsUnknown none do throw (.unknownComponent entry.1)
      return (← visit none entry) :: (← walkSet seen version rest)
    | some component =>
      if seen.contains component.index then throw (.order entry.1)
      return (← visit (some component) entry) ::
        (← walkSet (component.index :: seen) (max version component.version) rest)

/-- Walks the one entry of a CHOICE value. -/
def walkChoice : Entries → Except ValueError (List α)
  | [] => throw .emptyValue
  | [entry] => do
    match layout.component? entry.1 with
    | some component => return [← visit (some component) entry]
    | none =>
      unless layout.allowsUnknown none do throw (.unknownComponent entry.1)
      return [← visit none entry]
  | _ => throw (.illegal .severalAlternatives)

/-- What the visits of the entries give. An empty value is one of a SEQUENCE or SET without
required components. -/
def walk (entries : Entries) : Except ValueError (List α) :=
  if entries.isEmpty && layout.kind ≠ .choice then
    if layout.isAllOptional then return [] else throw .emptyValue
  else
    match layout.kind with
    | .sequence => layout.walkSequence visit none 1 entries
    | .set => layout.walkSet visit [] 1 entries
    | .choice => layout.walkChoice visit entries
    | .sequenceOf | .setOf => throw (.illegal .listWalkedAsCollection)

end Layout

end Asn1

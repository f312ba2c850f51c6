import Asn1.Captured
import Asn1.Oid
import Asn1.Text.Quoted
import Asn1.Value.Integer

namespace Asn1

inductive Value
  | boolean (value : Bool)
  | integer (value : Integer)
  | null
  | octetString (octets : Octets)
  | oid (identifier : Oid)
  | text (string : String)
  /-- The named components of a SEQUENCE or SET, or the one chosen alternative of a CHOICE. -/
  | collection (entries : List (String × Value))
  | list (items : List Value)
  /-- An element that the schema does not know. -/
  | captured (element : Captured)
  /-- A reference to a named value of the schema. -/
  | reference (name : String)

/-- The kinds of values that error messages tell apart. -/
inductive ValueKind
  | boolean
  | integer
  | null
  | octetString
  | oid
  | text
  | collection
  | list
  | captured
  | reference
  deriving DecidableEq, Repr

namespace ValueKind

def name : ValueKind → String
  | boolean => "boolean"
  | integer => "integer"
  | null => "null"
  | octetString => "octet string"
  | oid => "object identifier"
  | text => "string"
  | collection => "collection"
  | list => "list"
  | captured => "opaque value"
  | reference => "value reference"

end ValueKind

/-- The entries of a collection value, in the order they are written in. -/
abbrev Entries := List (String × Value)

/-- The value of the first entry with the name. -/
def Entries.get? (entries : Entries) (name : String) : Option Value :=
  entries.lookup name

namespace Value

def kind : Value → ValueKind
  | boolean _ => .boolean
  | integer _ => .integer
  | null => .null
  | octetString _ => .octetString
  | oid _ => .oid
  | text _ => .text
  | collection _ => .collection
  | list _ => .list
  | captured _ => .captured
  | reference _ => .reference

/-- The value of a CHOICE type for which the named alternative has been chosen. -/
def choice (name : String) (value : Value) : Value :=
  collection [(name, value)]

def isReference : Value → Bool
  | reference _ => true
  | _ => false

mutual

/-- The text of a value in value notation. -/
def render : Value → String
  | boolean true => "TRUE"
  | boolean false => "FALSE"
  | integer i => toString i.value
  | null => "NULL"
  | octetString octets => "'" ++ octets.toUpperHex ++ "'H"
  | oid identifier => "\x7b " ++ identifier.text ++ " \x7d"
  | text string => Text.quote string
  | collection entries => "\x7b" ++ ",".intercalate (renderEntries entries) ++ " \x7d"
  | list items => "\x7b " ++ ", ".intercalate (renderItems items) ++ " \x7d"
  | captured element => element.text
  | reference name => name

def renderEntries : List (String × Value) → List String
  | [] => []
  | (name, value) :: rest => (" " ++ name ++ " " ++ render value) :: renderEntries rest

def renderItems : List Value → List String
  | [] => []
  | value :: rest => render value :: renderItems rest

end

mutual

/-- Whether two values are equal, compared as trees. -/
def beq : Value → Value → Bool
  | boolean a, boolean b => a = b
  | integer a, integer b => a = b
  | null, null => true
  | octetString a, octetString b => a = b
  | oid a, oid b => a = b
  | text a, text b => a = b
  | collection a, collection b => beqEntries a b
  | list a, list b => beqItems a b
  | captured a, captured b => a = b
  | reference a, reference b => a = b
  | _, _ => false

def beqEntries : List (String × Value) → List (String × Value) → Bool
  | [], [] => true
  | (name, value) :: rest, (name', value') :: rest' =>
    name = name' && beq value value' && beqEntries rest rest'
  | _, _ => false

def beqItems : List Value → List Value → Bool
  | [], [] => true
  | value :: rest, value' :: rest' => beq value value' && beqItems rest rest'
  | _, _ => false

end

mutual

theorem beq_iff (a b : Value) : beq a b = true ↔ a = b := by
  cases a <;> cases b <;> simp [beq, beqEntries_iff, beqItems_iff]

theorem beqEntries_iff (a b : List (String × Value)) : beqEntries a b = true ↔ a = b := by
  match a, b with
  | [], [] => simp [beqEntries]
  | [], _ :: _ => simp [beqEntries]
  | _ :: _, [] => simp [beqEntries]
  | (_, value) :: rest, (_, value') :: rest' =>
    simp [beqEntries, beq_iff value value', beqEntries_iff rest rest', and_assoc]

theorem beqItems_iff (a b : List Value) : beqItems a b = true ↔ a = b := by
  match a, b with
  | [], [] => simp [beqItems]
  | [], _ :: _ => simp [beqItems]
  | _ :: _, [] => simp [beqItems]
  | value :: rest, value' :: rest' =>
    simp [beqItems, beq_iff value value', beqItems_iff rest rest']

end

instance : DecidableEq Value := fun a b => decidable_of_iff _ (beq_iff a b)

end Value

end Asn1

namespace Asn1

/-- The place of a type within its schema. -/
structure Handle where
  index : Nat
  deriving DecidableEq, Repr

def Handle.text (handle : Handle) : String :=
  s!"#{handle.index}"

inductive TypeRef
  | handle (handle : Handle)
  | name (name : String)
  deriving DecidableEq, Repr

end Asn1

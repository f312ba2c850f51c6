import Asn1.Builtin.Content
import Asn1.CompiledType
import Asn1.NamedValues
import Asn1.Walk

namespace Asn1

/-- Accepts a value in a context, or says why not. -/
abbrev Acceptor := Scope × Value → Except ValueError Unit

/-- Accepts the value of a collection type, given what accepts the values of its components. -/
def Layout.accept (layout : Layout Acceptor) (scope : Scope) (value : Value) :
    Except ValueError Unit := do
  if layout.kind.isList then
    match layout.element? with
    | some element => (← layout.items value).forM fun item => element.type (scope, item)
    | none => throw (.illegal .listWithoutElementType)
  else
    let entries ← layout.entries value
    let scope := scope.walking entries
    let visit : Visit Acceptor Unit := fun component? entry =>
      match component? with
      | some component => component.type (scope, entry.2)
      | none => return ()
    discard <| layout.walk visit entries

/-- Accepts the value of a type in terms of what accepts the values of the types it holds. The
constraints come last and see the value that a reference stands for. -/
def acceptStep (values : NamedValues) (info : TypeInfo) (form : TypeForm Acceptor) : Acceptor
  | (scope, value) => do
    let scope := scope.typed info.handle info.description
    let value ← values.resolve value
    match form with
    | .builtin builtin => builtin.accept value
    | .alias target => target (scope, value)
    | .tagged _ _ inner => inner (scope, value)
    | .collection layout => layout.accept scope value
    info.constraints.forM (·.check scope value)

/-- Checks that a value conforms to a type. -/
def CompiledType.accept (type : CompiledType) (values : NamedValues) (scope : Scope)
    (value : Value) : Except ValueError Unit :=
  type.interpret (acceptStep values) (scope, value)

end Asn1

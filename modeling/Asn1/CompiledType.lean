import Asn1.Constraint
import Asn1.Layout

/-!
Compiled types. All references are resolved, so that a compiled type is a tree that holds the
compiled types it depends on. Operations on its values give a meaning to each form of type, given
the meanings of the types it holds; `CompiledType.interpret` puts these together.
-/

namespace Asn1

/-- What a compiled type keeps of its place in the schema, and its own constraints. -/
structure TypeInfo where
  handle : Handle
  name? : Option String
  constraints : List Constraint

/-- A type without a name is described by its handle. -/
def TypeInfo.describe (name? : Option String) (handle : Handle) : String :=
  name?.getD s!"<anonymous {handle.text}>"

def TypeInfo.description (info : TypeInfo) : String :=
  TypeInfo.describe info.name? info.handle

/-- The forms of types, with `τ` in the place of the types that a type holds. -/
inductive TypeForm (τ : Type)
  | builtin (builtin : Builtin)
  | alias (target : τ)
  | tagged (tag : Tag) (method : TagMethod) (inner : τ)
  | collection (layout : Layout τ)
  deriving DecidableEq

namespace TypeForm

variable {σ τ : Type}

/-- Puts something else in the place of the types. -/
def map (f : σ → τ) : TypeForm σ → TypeForm τ
  | .builtin b => .builtin b
  | .alias target => .alias (f target)
  | .tagged tag method inner => .tagged tag method (f inner)
  | .collection layout => .collection (layout.map f)

/-- What stands in the place of the types. -/
def types : TypeForm τ → List τ
  | .builtin _ => []
  | .alias target => [target]
  | .tagged _ _ inner => [inner]
  | .collection layout => layout.components.map Component.type

end TypeForm

inductive CompiledType
  | mk (info : TypeInfo) (form : TypeForm CompiledType)

namespace CompiledType

def info : CompiledType → TypeInfo
  | ⟨info, _⟩ => info

def form : CompiledType → TypeForm CompiledType
  | ⟨_, form⟩ => form

def handle (type : CompiledType) : Handle := type.info.handle

def layout? (type : CompiledType) : Option (Layout CompiledType) :=
  match type.form with
  | .collection layout => some layout
  | _ => none

/-- Whether the type is one that just adds a tag and has no name of its own, so that using it is
the same as writing the tag. -/
def isAnonymousTag (type : CompiledType) : Bool :=
  match type.form with
  | .tagged _ _ _ => type.info.name?.isNone
  | _ => false

/-- What holds of a type whenever it holds of the types in it holds of all types. -/
theorem induct {motive : CompiledType → Prop}
    (mk : ∀ info form, (∀ type ∈ form.types, motive type) → motive ⟨info, form⟩) :
    ∀ type, motive type
  | ⟨info, .builtin _⟩ => mk info _ (by simp [TypeForm.types])
  | ⟨info, .alias target⟩ => mk info _ (by simpa [TypeForm.types] using induct mk target)
  | ⟨info, .tagged _ _ inner⟩ => mk info _ (by simpa [TypeForm.types] using induct mk inner)
  | ⟨info, .collection ⟨_, _, components⟩⟩ => mk info _ (by
      simp only [TypeForm.types, List.mem_map]
      rintro _ ⟨component, member, rfl⟩
      exact members components component member)
where
  members (components : List (Component CompiledType)) (component : Component CompiledType)
      (member : component ∈ components) : motive component.type := by
    match components with
    | [] => simp at member
    | ⟨_, _, _, _, _, _, type, _, _⟩ :: rest =>
      rcases List.mem_cons.1 member with rfl | member
      · exact induct mk type
      · exact members rest component member

section Interpretation

variable {α β : Type} (step : TypeInfo → TypeForm (α → β) → α → β)

mutual

/-- The meaning of a type, where `step` gives the meaning of a form from the meanings of the types
in it. Meanings are functions, so nothing below a type is looked at before it is needed. -/
def interpret : CompiledType → α → β
  | ⟨info, form⟩, a => step info (interpretForm form) a

def interpretForm : TypeForm CompiledType → TypeForm (α → β)
  | .builtin b => .builtin b
  | .alias target => .alias (interpret target)
  | .tagged tag method inner => .tagged tag method (interpret inner)
  | .collection layout => .collection (interpretLayout layout)

def interpretLayout : Layout CompiledType → Layout (α → β)
  | ⟨kind, extensible, components⟩ => ⟨kind, extensible, interpretComponents components⟩

def interpretComponents : List (Component CompiledType) → List (Component (α → β))
  | [] => []
  | component :: rest => interpretComponent component :: interpretComponents rest

def interpretComponent : Component CompiledType → Component (α → β)
  | ⟨name, index, version, optional, default?, declared, type, tagWritten, tags⟩ =>
    ⟨name, index, version, optional, default?, declared, interpret type, tagWritten, tags⟩

end

theorem interpretComponents_eq_map (components : List (Component CompiledType)) :
    interpretComponents step components = components.map (Component.map (interpret step)) := by
  induction components with
  | nil => rfl
  | cons component rest ih =>
    rw [interpretComponents, ih]
    cases component
    rfl

theorem interpretForm_eq_map (form : TypeForm CompiledType) :
    interpretForm step form = form.map (interpret step) := by
  cases form with
  | collection layout =>
    obtain ⟨kind, extensible, components⟩ := layout
    simp [interpretForm, interpretLayout, TypeForm.map, Layout.map, interpretComponents_eq_map]
  | _ => simp [interpretForm, TypeForm.map]

/-- The meaning of a type is that of its form, in which the types are replaced by their meanings.
-/
theorem interpret_mk (info : TypeInfo) (form : TypeForm CompiledType) (a : α) :
    interpret step ⟨info, form⟩ a = step info (form.map (interpret step)) a := by
  rw [interpret, interpretForm_eq_map]

end Interpretation

end CompiledType

end Asn1

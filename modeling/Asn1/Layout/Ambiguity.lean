import Asn1.Layout

/-!
Whether components can be told apart by their tags. In a SET or CHOICE no two components may share
a tag. In a SEQUENCE a component that is not required may be left out, so that it must share no tag
with any component up to and including the next required one.
-/

namespace Asn1

/-- Two components that share a tag. -/
structure TagClash where
  first : String
  second : String
  tag : Tag
  deriving DecidableEq, Repr

section

variable {τ : Type}

/-- The tags of components, each with the name of its component. -/
def namedTags (components : List (Component τ)) : List (Tag × String) :=
  components.flatMap fun component => component.tags.map (·, component.name)

/-- The first tag that repeats one before it. `seen` are the tags before the ones given. -/
def repeatedTag? (seen : List (Tag × String)) : List (Tag × String) → Option TagClash
  | [] => none
  | (tag, name) :: rest =>
    match seen.lookup tag with
    | some first => some ⟨first, name, tag⟩
    | none => repeatedTag? (seen ++ [(tag, name)]) rest

/-- The first two components that share a tag. -/
def clash? (components : List (Component τ)) : Option TagClash :=
  repeatedTag? [] (namedTags components)

/-- The components up to and including the first required one. -/
def throughRequired : List (Component τ) → List (Component τ)
  | [] => []
  | component :: rest =>
    if component.isRequired then [component] else component :: throughRequired rest

/-- The first clash in a run from a component that is not required up to the next required one. -/
def runClash? : List (Component τ) → Option TagClash
  | [] => none
  | component :: rest =>
    (if component.isRequired then none else clash? (throughRequired (component :: rest))).or
      (runClash? rest)

/-- What keeps the components of a collection from being told apart. -/
def ambiguity? (kind : CollectionKind) (components : List (Component τ)) : Option TagClash :=
  match kind with
  | .set | .choice => clash? components
  | .sequence => runClash? components
  | .sequenceOf | .setOf => none

end

end Asn1

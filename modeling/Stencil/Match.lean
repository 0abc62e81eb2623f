import Stencil.Labels
import Stencil.Template

/-!
Matching a template against a tree. Template and tree are walked together from
the root; every hole captures the subtree it meets, and the walk stops at the
first subtree that does not fit.
-/

namespace Stencil

/-- The outcome of matching one tree. The match succeeded when no subtree was
found that does not fit. -/
structure Match where
  subject : Tree
  labels : Labels
  mismatch : Option Tree
  deriving DecidableEq

namespace Template

mutual
/-- The first subtree that does not fit, if any, and the labels with what was
captured before it. -/
def walk : Template → Tree → Labels → Option Tree × Labels
  | .tokenHole n tag, t, ls =>
    if t.isLeaf ∧ t.type? = some n then (none, ls.capture tag t) else (some t, ls)
  | .literal n text, t, ls =>
    if t.isLeaf ∧ t.type? = some n ∧ t.token?.map Token.text = some text then (none, ls)
    else (some t, ls)
  | .ruleHole r tag, t, ls =>
    if t.rule? = some r then (none, ls.capture tag t) else (some t, ls)
  | .node r ps, t, ls =>
    if t.rule? = some r ∧ t.children.length = ps.length then walkList ps t.children ls
    else (some t, ls)

def walkList : List Template → List Tree → Labels → Option Tree × Labels
  | p :: ps, t :: ts, ls =>
    match walk p t ls with
    | (some bad, ls) => (some bad, ls)
    | (none, ls) => walkList ps ts ls
  | _, _, ls => (none, ls)
end

section Steps

variable (t : Tree) (ls : Labels)

theorem walk_tokenHole (n : TokenType) (tag : Tag) :
    (tokenHole n tag).walk t ls =
      if t.isLeaf ∧ t.type? = some n then (none, ls.capture tag t) else (some t, ls) :=
  rfl

theorem walk_literal (n : TokenType) (text : String) :
    (literal n text).walk t ls =
      if t.isLeaf ∧ t.type? = some n ∧ t.token?.map Token.text = some text then (none, ls)
      else (some t, ls) :=
  rfl

theorem walk_ruleHole (r : RuleId) (tag : Tag) :
    (ruleHole r tag).walk t ls =
      if t.rule? = some r then (none, ls.capture tag t) else (some t, ls) :=
  rfl

theorem walk_node (r : RuleId) (ps : List Template) :
    (node r ps).walk t ls =
      if t.rule? = some r ∧ t.children.length = ps.length then walkList ps t.children ls
      else (some t, ls) :=
  rfl

theorem walkList_cons_cons (p : Template) (ps : List Template) (ts : List Tree) :
    walkList (p :: ps) (t :: ts) ls =
      match p.walk t ls with
      | (some bad, ls) => (some bad, ls)
      | (none, ls) => walkList ps ts ls :=
  rfl

end Steps

def matchTree (p : Template) (t : Tree) : Match :=
  let (mismatch, labels) := p.walk t .empty
  ⟨t, labels, mismatch⟩

end Template

namespace Match

def succeeded (m : Match) : Bool :=
  m.mismatch.isNone

def render (m : Match) : String :=
  "Match " ++ (if m.succeeded then "succeeded" else "failed") ++
    "; found " ++ toString m.labels.size ++ " labels"

end Match

namespace Tree

mutual
/-- A tree and all its subtrees, each before its own children. -/
def subtrees : Tree → List Tree
  | .leaf t => [.leaf t]
  | .node r cs => .node r cs :: subtreesList cs

def subtreesList : List Tree → List Tree
  | [] => []
  | c :: cs => c.subtrees ++ subtreesList cs
end

theorem subtreesList_eq (cs : List Tree) : subtreesList cs = cs.flatMap subtrees := by
  induction cs with
  | nil => rfl
  | cons c cs ih => rw [subtreesList, ih, List.flatMap_cons]

@[simp] theorem subtrees_leaf (t : Token) : (leaf t).subtrees = [leaf t] := rfl

@[simp] theorem subtrees_node (r : RuleId) (cs : List Tree) :
    (node r cs).subtrees = node r cs :: cs.flatMap subtrees := by
  rw [subtrees, subtreesList_eq]

end Tree

end Stencil

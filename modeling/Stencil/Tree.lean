import Stencil.Token

/-!
Parse trees. A leaf holds a token, a node holds the rule it derives and its
children. The main views of a tree are its leaves, its text and its string
form, `(stat x = (expr 1) ;)`.
-/

namespace Stencil

inductive Tree where
  | leaf (token : Token)
  | node (rule : RuleId) (children : List Tree)
  deriving Repr

namespace Tree

mutual
def decEq : (a b : Tree) → Decidable (a = b)
  | .leaf s, .leaf t =>
    if h : s = t then isTrue (by rw [h]) else isFalse (by simpa using h)
  | .node r cs, .node k ds =>
    if h : r = k then
      match decEqList cs ds with
      | isTrue h' => isTrue (by rw [h, h'])
      | isFalse h' => isFalse (by simp [h'])
    else isFalse (by simp [h])
  | .leaf _, .node _ _ => isFalse (by simp)
  | .node _ _, .leaf _ => isFalse (by simp)

def decEqList : (as bs : List Tree) → Decidable (as = bs)
  | [], [] => isTrue rfl
  | [], _ :: _ => isFalse (by simp)
  | _ :: _, [] => isFalse (by simp)
  | a :: as, b :: bs =>
    match decEq a b with
    | isTrue h =>
      match decEqList as bs with
      | isTrue h' => isTrue (by rw [h, h'])
      | isFalse h' => isFalse (by simp [h'])
    | isFalse h => isFalse (by simp [h])
end

instance : DecidableEq Tree := decEq

def token? : Tree → Option Token
  | .leaf t => some t
  | .node _ _ => none

def children : Tree → List Tree
  | .leaf _ => []
  | .node _ cs => cs

def rule? : Tree → Option RuleId
  | .leaf _ => none
  | .node r _ => some r

def isLeaf (t : Tree) : Bool :=
  t.rule?.isNone

def type? (t : Tree) : Option TokenType :=
  t.token?.bind Token.type?

mutual
/-- The tokens at the leaves, from left to right. -/
def leaves : Tree → List Token
  | .leaf t => [t]
  | .node _ cs => leavesList cs

def leavesList : List Tree → List Token
  | [] => []
  | c :: cs => c.leaves ++ leavesList cs
end

mutual
/-- The text of the leaves, put together without anything between them. -/
def text : Tree → String
  | .leaf t => t.text
  | .node _ cs => textList cs

def textList : List Tree → String
  | [] => ""
  | c :: cs => c.text ++ textList cs
end

theorem leavesList_eq (cs : List Tree) : leavesList cs = cs.flatMap leaves := by
  induction cs with
  | nil => rfl
  | cons c cs ih => rw [leavesList, ih, List.flatMap_cons]

@[simp] theorem leaves_leaf (t : Token) : (leaf t).leaves = [t] := rfl

@[simp] theorem leaves_node (r : RuleId) (cs : List Tree) :
    (node r cs).leaves = cs.flatMap leaves := by
  rw [leaves, leavesList_eq]

end Tree

/-- The name of a rule, or its number when it has none. -/
def showRule (ruleName? : RuleId → Option String) (r : RuleId) : String :=
  (ruleName? r).getD ("rule" ++ toString r)

/-- A node in string form, given its children as they follow the name. A node
without children is its name alone. -/
def renderNode (name children : String) : String :=
  if children = "" then name else "(" ++ name ++ children ++ ")"

namespace Tree

mutual
def render (ruleName? : RuleId → Option String) : Tree → String
  | .leaf t => t.text
  | .node r cs => renderNode (showRule ruleName? r) (renderList ruleName? cs)

/-- Every tree with a space before it. -/
def renderList (ruleName? : RuleId → Option String) : List Tree → String
  | [] => ""
  | c :: cs => " " ++ c.render ruleName? ++ renderList ruleName? cs
end

end Tree

end Stencil

import Stencil.Tree

/-!
Templates: parse trees with holes. A hole stands where the pattern had a tag,
and says which trees may fill it: the nodes of one rule, or the leaves of one
token type.
-/

namespace Stencil

inductive Template where
  | node (rule : RuleId) (children : List Template)
  | ruleHole (rule : RuleId) (tag : Tag)
  | literal (type : TokenType) (text : String)
  | tokenHole (type : TokenType) (tag : Tag)
  deriving Repr

namespace Template

mutual
def decEq : (a b : Template) → Decidable (a = b)
  | .node r cs, .node k ds =>
    if h : r = k then
      match decEqList cs ds with
      | isTrue h' => isTrue (by rw [h, h'])
      | isFalse h' => isFalse (by simp [h'])
    else isFalse (by simp [h])
  | .ruleHole r s, .ruleHole k t =>
    if h : r = k ∧ s = t then isTrue (by rw [h.1, h.2]) else isFalse (by simpa using h)
  | .literal r s, .literal k t =>
    if h : r = k ∧ s = t then isTrue (by rw [h.1, h.2]) else isFalse (by simpa using h)
  | .tokenHole r s, .tokenHole k t =>
    if h : r = k ∧ s = t then isTrue (by rw [h.1, h.2]) else isFalse (by simpa using h)
  | .node _ _, .ruleHole _ _ | .node _ _, .literal _ _ | .node _ _, .tokenHole _ _
  | .ruleHole _ _, .node _ _ | .ruleHole _ _, .literal _ _ | .ruleHole _ _, .tokenHole _ _
  | .literal _ _, .node _ _ | .literal _ _, .ruleHole _ _ | .literal _ _, .tokenHole _ _
  | .tokenHole _ _, .node _ _ | .tokenHole _ _, .ruleHole _ _ | .tokenHole _ _, .literal _ _ =>
    isFalse (by simp)

def decEqList : (as bs : List Template) → Decidable (as = bs)
  | [], [] => isTrue rfl
  | [], _ :: _ => isFalse (by simp)
  | _ :: _, [] => isFalse (by simp)
  | a :: as, b :: bs =>
    match decEq a b with
    | isTrue h =>
      match decEqList as bs with
      | isTrue h' => isTrue (by rw [h, h'])
      | isFalse h' => isFalse (by simp [h'])
    | isFalse h => isFalse (by simp [h])
end

instance : DecidableEq Template := decEq

def tag? : Template → Option Tag
  | .ruleHole _ tag | .tokenHole _ tag => some tag
  | .node _ _ | .literal _ _ => none

def children : Template → List Template
  | .node _ cs => cs
  | _ => []

mutual
/-- How many literals and holes a template has. -/
def leafCount : Template → Nat
  | .node _ cs => leafCountList cs
  | _ => 1

def leafCountList : List Template → Nat
  | [] => 0
  | c :: cs => c.leafCount + leafCountList cs
end

mutual
def render (ruleName? : RuleId → Option String) : Template → String
  | .node r cs => renderNode (showRule ruleName? r) (renderList ruleName? cs)
  | .ruleHole r tag =>
    "(" ++ showRule ruleName? r ++ " " ++ Token.placeholderText tag ++ ")"
  | .literal _ text => text
  | .tokenHole _ tag => Token.placeholderText tag

def renderList (ruleName? : RuleId → Option String) : List Template → String
  | [] => ""
  | c :: cs => " " ++ c.render ruleName? ++ renderList ruleName? cs
end

/-! A parsed pattern becomes a template: the leaves that came from tags turn
into holes. A rule reference is only understood as the only child of a node of
its own rule. -/

/-- The tag of a node of rule `r` that holds nothing but its own placeholder. -/
def holeTag? (r : RuleId) : List Tree → Option Tag
  | [.leaf t] => if t.kind = .rule r then t.tag else none
  | _ => none

def ofToken (t : Token) : Except String Template :=
  match t.kind, t.tag with
  | .type n, some tag => .ok (.tokenHole n tag)
  | .type n, none => .ok (.literal n t.text)
  | .rule _, _ => .error t.text

mutual
/-- The template of a parsed pattern, or the text of the first rule reference
that stands where it cannot. -/
def ofTree : Tree → Except String Template
  | .leaf t => ofToken t
  | .node r cs =>
    match holeTag? r cs with
    | some tag => .ok (.ruleHole r tag)
    | none =>
      match ofTrees cs with
      | .ok ps => .ok (.node r ps)
      | .error e => .error e

def ofTrees : List Tree → Except String (List Template)
  | [] => .ok []
  | c :: cs =>
    match ofTree c with
    | .error e => .error e
    | .ok p =>
      match ofTrees cs with
      | .error e => .error e
      | .ok ps => .ok (p :: ps)
end

end Template

end Stencil

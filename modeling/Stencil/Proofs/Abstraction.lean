import Stencil.Proofs.Expressions
import Stencil.Proofs.Filling

/-!
Abstraction. A pattern is made from a tree by putting tags in the place of some
of its nodes: a node is chosen by its position, and what is chosen inside a
chosen node does not count.

Main statement: the template of the tree with placeholders for the chosen nodes
matches the tree it was made from, and captures the chosen nodes in order.
-/

namespace Stencil

/-- The subtree at a position: which child to take, at the root and further down. -/
def Tree.at? (tree : Tree) : List Nat → Option Tree
  | [] => some tree
  | i :: position => tree.children[i]?.bind (·.at? position)

/-- The positions of the chosen nodes, and for each the label of its tag, if it is
to have one. -/
abbrev Choice := List Nat → Option (Option String)

/-- What a tree with chosen nodes falls into, from left to right. -/
inductive Part where
  | kept (token : Token)
  | chosen (node : Tree) (label : Option String)
  deriving DecidableEq

namespace Tree

/-- What has to be read for a tree to be found by the parser. -/
def kind : Tree → Kind
  | .leaf token => token.kind
  | .node r _ => .rule r

mutual
/-- The chosen nodes and the leaves that are in none of them. -/
def parts (choice : Choice) : Tree → List Part
  | .leaf token =>
    match choice [] with
    | some label => [.chosen (.leaf token) label]
    | none => [.kept token]
  | .node r cs =>
    match choice [] with
    | some label => [.chosen (.node r cs) label]
    | none => partsList (fun i position => choice (i :: position)) cs

def partsList (choices : Nat → Choice) : List Tree → List Part
  | [] => []
  | c :: cs => c.parts (choices 0) ++ partsList (fun i => choices (i + 1)) cs
end

end Tree

namespace Grammar

/-- The name of the rule or of the token type of a tree. -/
def nameOf (g : Grammar) (tree : Tree) : String :=
  match tree.kind with
  | .rule r => g.showRule r
  | .type t => g.showToken t

def tagOf (g : Grammar) (node : Tree) (label : Option String) : Tag :=
  ⟨g.nameOf node, label⟩

/-- The placeholder of a chosen node. -/
def placeholder (g : Grammar) (node : Tree) (label : Option String) : Token where
  kind := node.kind
  text := Token.placeholderText (g.tagOf node label)
  tag := some (g.tagOf node label)

end Grammar

namespace Part

/-- The token that stands for a part in a pattern. -/
def token (g : Grammar) : Part → Token
  | .kept token => token
  | .chosen node label => g.placeholder node label

/-- The leaves of the tree that belong to a part. -/
def leaves : Part → List Token
  | .kept token => [token]
  | .chosen node _ => node.leaves

/-- What is recorded for a part: chosen nodes only, under the name and then under
the label. -/
def log (g : Grammar) : Part → List (String × Tree)
  | .kept _ => []
  | .chosen node label => (g.tagOf node label).log node

end Part

/-- The text of a pattern: the text of the parts, with a tag for each chosen node. -/
def Grammar.patternText (g : Grammar) (parts : List Part) : String :=
  String.join (parts.map fun part => (part.token g).text)

namespace Tree

/-- A chosen leaf is replaced by a placeholder, a chosen node by one that holds a
placeholder. -/
def hole (g : Grammar) (label : Option String) : Tree → Tree
  | .leaf token => .leaf (g.placeholder (.leaf token) label)
  | .node r cs => .node r [.leaf (g.placeholder (.node r cs) label)]

mutual
/-- The tree with a placeholder for every chosen node. -/
def abstract (g : Grammar) (choice : Choice) : Tree → Tree
  | .leaf token =>
    match choice [] with
    | some label => hole g label (.leaf token)
    | none => .leaf token
  | .node r cs =>
    match choice [] with
    | some label => hole g label (.node r cs)
    | none => .node r (abstractList g (fun i position => choice (i :: position)) cs)

def abstractList (g : Grammar) (choices : Nat → Choice) : List Tree → List Tree
  | [] => []
  | c :: cs => c.abstract g (choices 0) :: abstractList g (fun i => choices (i + 1)) cs
end

variable {g : Grammar} {choice : Choice} {choices : Nat → Choice} {label : Option String}

section Steps

theorem parts_leaf_eq (choice : Choice) (token : Token) :
    (leaf token).parts choice =
      match choice [] with
      | some label => [.chosen (.leaf token) label]
      | none => [.kept token] :=
  rfl

theorem parts_node_eq (choice : Choice) (r : RuleId) (cs : List Tree) :
    (node r cs).parts choice =
      match choice [] with
      | some label => [.chosen (.node r cs) label]
      | none => partsList (fun i position => choice (i :: position)) cs :=
  rfl

theorem partsList_cons (choices : Nat → Choice) (c : Tree) (cs : List Tree) :
    partsList choices (c :: cs) =
      c.parts (choices 0) ++ partsList (fun i => choices (i + 1)) cs :=
  rfl

theorem abstract_leaf_eq (g : Grammar) (choice : Choice) (token : Token) :
    (leaf token).abstract g choice =
      match choice [] with
      | some label => hole g label (.leaf token)
      | none => .leaf token :=
  rfl

theorem abstract_node_eq (g : Grammar) (choice : Choice) (r : RuleId) (cs : List Tree) :
    (node r cs).abstract g choice =
      match choice [] with
      | some label => hole g label (.node r cs)
      | none => .node r (abstractList g (fun i position => choice (i :: position)) cs) :=
  rfl

@[simp] theorem abstractList_nil (g : Grammar) (choices : Nat → Choice) :
    abstractList g choices [] = [] :=
  rfl

@[simp] theorem abstractList_cons (g : Grammar) (choices : Nat → Choice) (c : Tree)
    (cs : List Tree) :
    abstractList g choices (c :: cs) =
      c.abstract g (choices 0) :: abstractList g (fun i => choices (i + 1)) cs :=
  rfl

end Steps

theorem parts_of_some (h : choice [] = some label) (tree : Tree) :
    tree.parts choice = [.chosen tree label] := by
  cases tree <;> simp [parts_leaf_eq, parts_node_eq, h]

theorem abstract_of_some (h : choice [] = some label) (tree : Tree) :
    tree.abstract g choice = tree.hole g label := by
  cases tree <;> simp [abstract_leaf_eq, abstract_node_eq, h]

theorem parts_leaf (h : choice [] = none) (token : Token) :
    (leaf token).parts choice = [.kept token] := by
  simp [parts_leaf_eq, h]

theorem abstract_leaf (h : choice [] = none) (token : Token) :
    (leaf token).abstract g choice = leaf token := by
  simp [abstract_leaf_eq, h]

theorem parts_node (h : choice [] = none) (r : RuleId) (cs : List Tree) :
    (node r cs).parts choice = partsList (fun i position => choice (i :: position)) cs := by
  simp [parts_node_eq, h]

theorem abstract_node (h : choice [] = none) (r : RuleId) (cs : List Tree) :
    (node r cs).abstract g choice =
      node r (abstractList g (fun i position => choice (i :: position)) cs) := by
  simp [abstract_node_eq, h]

/-- What holds of a placeholder for rule `r`, and of a node of which only children
were replaced, holds of every abstraction of a node. -/
theorem abstract_node_of {motive : Tree → Prop} {r : RuleId} {cs : List Tree}
    (hplaceholder : ∀ token, token.kind = .rule r → motive (node r [leaf token]))
    (hnode : ∀ choices, motive (node r (abstractList g choices cs))) (choice : Choice) :
    motive ((node r cs).abstract g choice) := by
  cases h : choice [] with
  | some label =>
      rw [abstract_of_some h]
      exact hplaceholder _ rfl
  | none =>
      rw [abstract_node h]
      exact hnode _

theorem leaves_partsList {cs : List Tree}
    (ih : ∀ c ∈ cs, ∀ choice : Choice, (c.parts choice).flatMap Part.leaves = c.leaves) :
    (partsList choices cs).flatMap Part.leaves = cs.flatMap leaves := by
  induction cs generalizing choices with
  | nil => rfl
  | cons c cs ihcs =>
      rw [partsList_cons, List.flatMap_append, List.flatMap_cons, ih c List.mem_cons_self,
        ihcs fun c hc => ih c (List.mem_cons_of_mem _ hc)]

/-- No leaf is lost. -/
theorem leaves_parts (choice : Choice) (tree : Tree) :
    (tree.parts choice).flatMap Part.leaves = tree.leaves := by
  induction tree using Tree.inductionOn generalizing choice with
  | leaf token =>
      cases h : choice [] with
      | some label => simp [parts_of_some h, Part.leaves]
      | none => simp [parts_leaf h, Part.leaves]
  | node r cs ih =>
      cases h : choice [] with
      | some label => simp [parts_of_some h, Part.leaves]
      | none => rw [parts_node h, leaves_partsList ih, leaves_node]

theorem leaves_hole (tree : Tree) : (tree.hole g label).leaves = [g.placeholder tree label] := by
  cases tree <;> simp [hole]

theorem leaves_abstractList {cs : List Tree}
    (ih : ∀ c ∈ cs, ∀ choice : Choice,
      (c.abstract g choice).leaves = (c.parts choice).map (Part.token g)) :
    (abstractList g choices cs).flatMap leaves = (partsList choices cs).map (Part.token g) := by
  induction cs generalizing choices with
  | nil => rfl
  | cons c cs ihcs =>
      rw [abstractList_cons, partsList_cons, List.flatMap_cons, List.map_append,
        ih c List.mem_cons_self, ihcs fun c hc => ih c (List.mem_cons_of_mem _ hc)]

/-- The leaves are what stands for the parts. -/
theorem leaves_abstract (choice : Choice) (tree : Tree) :
    (tree.abstract g choice).leaves = (tree.parts choice).map (Part.token g) := by
  induction tree using Tree.inductionOn generalizing choice with
  | leaf token =>
      cases h : choice [] with
      | some label => rw [abstract_of_some h, parts_of_some h, leaves_hole]; rfl
      | none => rw [abstract_leaf h, parts_leaf h]; rfl
  | node r cs ih =>
      cases h : choice [] with
      | some label => rw [abstract_of_some h, parts_of_some h, leaves_hole]; rfl
      | none => rw [abstract_node h, parts_node h, leaves_node, leaves_abstractList ih]

/-! ### The template of an abstracted tree -/

/-- The leaves are words of a text. -/
def IsPlain (tree : Tree) : Prop :=
  ∀ token ∈ tree.leaves, token.tag = none ∧ ∃ n, token.kind = .type n

theorem IsPlain.child {r : RuleId} {cs : List Tree} (h : (node r cs).IsPlain) {c : Tree}
    (hc : c ∈ cs) : c.IsPlain := by
  intro token htoken
  refine h token ?_
  rw [leaves_node]
  exact List.mem_flatMap.2 ⟨c, hc, htoken⟩

/-- A leaf of the abstracted tree is of the same kind as the leaf it comes from. -/
theorem exists_abstract_leaf (g : Grammar) (choice : Choice) (token : Token) :
    ∃ token', (leaf token).abstract g choice = .leaf token' ∧ token'.kind = token.kind := by
  cases h : choice [] with
  | some label => exact ⟨g.placeholder (.leaf token) label, abstract_of_some h _, rfl⟩
  | none => exact ⟨token, abstract_leaf h token, rfl⟩

theorem abstract_eq_leaf {tree : Tree} {token : Token} (h : tree.abstract g choice = .leaf token) :
    ∃ token', tree = .leaf token' ∧ token.kind = token'.kind := by
  cases tree with
  | node r cs =>
      refine absurd h (abstract_node_of (motive := (· ≠ leaf token)) ?_ ?_ choice)
      · intro _ _ heq
        cases heq
      · intro _ heq
        cases heq
  | leaf token' =>
      obtain ⟨token'', hleaf, hkind⟩ := exists_abstract_leaf g choice token'
      rw [hleaf] at h
      cases h
      exact ⟨token', rfl, hkind⟩

/-- A node that was not chosen does not look like a placeholder. -/
theorem holeTag?_abstractList {r : RuleId} {cs : List Tree} (h : (node r cs).IsPlain) :
    Template.holeTag? r (abstractList g choices cs) = none := by
  match cs with
  | [] => rfl
  | [c] =>
      rw [abstractList_cons, abstractList_nil]
      cases hleaf : c.abstract g (choices 0) with
      | node k ds => rfl
      | leaf token =>
          obtain ⟨token', rfl, hkind⟩ := abstract_eq_leaf hleaf
          obtain ⟨_, n, hn⟩ := h token' (by simp)
          simp [Template.holeTag?, hkind, hn]
  | c :: d :: cs => simp [Template.holeTag?]

end Tree

namespace Template

variable {g : Grammar} {choice : Choice} {choices : Nat → Choice}

/-- The tree is the template with its holes filled, and what fills them are the
chosen parts. -/
def Records (g : Grammar) (p : Template) (tree : Tree) (parts : List Part) : Prop :=
  ∃ s, Fills s p.holes ∧ p.Like tree (p.plug s) ∧ log p.holes s = parts.flatMap (Part.log g)

def RecordsList (g : Grammar) (ps : List Template) (trees : List Tree) (parts : List Part) : Prop :=
  ∃ s, Fills s (holesList ps) ∧ LikeList ps trees (plugList ps s) ∧
    log (holesList ps) s = parts.flatMap (Part.log g)

theorem Records.cons {p : Template} {ps : List Template} {tree : Tree} {trees : List Tree}
    {parts parts' : List Part} (h : Records g p tree parts) (hs : RecordsList g ps trees parts') :
    RecordsList g (p :: ps) (tree :: trees) (parts ++ parts') := by
  obtain ⟨s, hfills, hlike, hlog⟩ := h
  obtain ⟨s', hfills', hlike', hlog'⟩ := hs
  refine ⟨s ++ s', Fills.append_iff.2 ⟨s, s', rfl, hfills, hfills'⟩, ?_, ?_⟩
  · rw [plugList_cons_append hfills]
    exact likeList_cons_iff.2 ⟨tree, trees, rfl, hlike, hlike'⟩
  · rw [holesList_cons, log_append hfills, hlog, hlog', List.flatMap_append]

theorem RecordsList.node {ps : List Template} {trees : List Tree} {parts : List Part}
    (h : RecordsList g ps trees parts) (r : RuleId) :
    Records g (.node r ps) (.node r trees) parts := by
  obtain ⟨s, hfills, hlike, hlog⟩ := h
  exact ⟨s, hfills, like_node_iff.2 ⟨trees, rfl, hlike⟩, hlog⟩

/-- The template of a placeholder is a hole for what was chosen. -/
theorem ofTree_hole {tree : Tree} (h : tree.IsPlain) (label : Option String) :
    ∃ p, ofTree (tree.hole g label) = .ok p ∧ Records g p tree [.chosen tree label] := by
  cases tree with
  | leaf token =>
      obtain ⟨_, n, hn⟩ := h token (by simp)
      refine ⟨.tokenHole n (g.tagOf (.leaf token) label), ?_, [.leaf token], ?_, ?_, ?_⟩
      · simp [Tree.hole, ofTree, ofToken, Grammar.placeholder, Tree.kind, hn]
      · exact Fills.singleton_iff.2 ⟨_, rfl, Symbol.fits_token_iff.2 ⟨token, rfl, hn⟩⟩
      · rfl
      · simp [log, holes, Part.log]
  | node r cs =>
      refine ⟨.ruleHole r (g.tagOf (.node r cs) label), ?_, [.node r cs], ?_, ?_, ?_⟩
      · simp [Tree.hole, ofTree, holeTag?, Grammar.placeholder, Tree.kind]
      · exact Fills.singleton_iff.2 ⟨_, rfl, Symbol.fits_rule_iff.2 rfl⟩
      · rfl
      · simp [log, holes, Part.log]

theorem ofTrees_abstractList {cs : List Tree} (h : ∀ c ∈ cs, c.IsPlain)
    (ih : ∀ c ∈ cs, c.IsPlain → ∀ choice : Choice,
      ∃ p, ofTree (c.abstract g choice) = .ok p ∧ Records g p c (c.parts choice)) :
    ∃ ps, ofTrees (Tree.abstractList g choices cs) = .ok ps ∧
      RecordsList g ps cs (Tree.partsList choices cs) := by
  induction cs generalizing choices with
  | nil => exact ⟨[], rfl, [], .nil, likeList_nil_iff.2 rfl, rfl⟩
  | cons c cs ihcs =>
      obtain ⟨p, hp, hrecords⟩ := ih c List.mem_cons_self (h c List.mem_cons_self) (choices 0)
      obtain ⟨ps, hps, hrecordsList⟩ := @ihcs (fun i => choices (i + 1))
        (fun c hc => h c (List.mem_cons_of_mem _ hc))
        (fun c hc => ih c (List.mem_cons_of_mem _ hc))
      refine ⟨p :: ps, ?_, hrecords.cons hrecordsList⟩
      rw [Tree.abstractList_cons, ofTrees, hp]
      dsimp only
      rw [hps]

/-- The template of an abstracted tree matches the tree, and records what was
chosen in it. -/
theorem ofTree_abstract {tree : Tree} (h : tree.IsPlain) (choice : Choice) :
    ∃ p, ofTree (tree.abstract g choice) = .ok p ∧ Records g p tree (tree.parts choice) := by
  induction tree using Tree.inductionOn generalizing choice with
  | leaf token =>
      cases hchoice : choice [] with
      | some label =>
          rw [Tree.abstract_of_some hchoice, Tree.parts_of_some hchoice]
          exact ofTree_hole h label
      | none =>
          obtain ⟨htag, n, hn⟩ := h token (by simp)
          rw [Tree.abstract_leaf hchoice, Tree.parts_leaf hchoice]
          refine ⟨.literal n token.text, ?_, [], .nil, ?_, rfl⟩
          · simp [ofTree, ofToken, htag, hn]
          · exact like_literal_iff.2 ⟨token, rfl, hn, rfl⟩
  | node r cs ih =>
      cases hchoice : choice [] with
      | some label =>
          rw [Tree.abstract_of_some hchoice, Tree.parts_of_some hchoice]
          exact ofTree_hole h label
      | none =>
          obtain ⟨ps, hps, hrecords⟩ := ofTrees_abstractList (g := g) (fun c hc => h.child hc) ih
          rw [Tree.abstract_node hchoice, Tree.parts_node hchoice]
          refine ⟨.node r ps, ?_, hrecords.node r⟩
          rw [ofTree, Tree.holeTag?_abstractList h]
          dsimp only
          rw [hps]

end Template

/-! ### Placeholders in derivations -/

section

variable {g : Grammar} {choice : Choice} {choices : Nat → Choice}

theorem Tree.rule?_abstract (tree : Tree) : (tree.abstract g choice).rule? = tree.rule? := by
  cases tree with
  | leaf token =>
      obtain ⟨token', hleaf, _⟩ := Tree.exists_abstract_leaf g choice token
      rw [hleaf]
      rfl
  | node r cs =>
      exact Tree.abstract_node_of (motive := fun tree => tree.rule? = some r)
        (fun _ _ => rfl) (fun _ => rfl) choice

theorem Symbol.Fits.abstract {s : Symbol} {tree : Tree} (h : s.Fits tree) :
    s.Fits (tree.abstract g choice) := by
  cases s with
  | token t =>
      obtain ⟨token, rfl, hkind⟩ := Symbol.fits_token_iff.1 h
      obtain ⟨token', hleaf, hkind'⟩ := Tree.exists_abstract_leaf g choice token
      exact Symbol.fits_token_iff.2 ⟨token', hleaf, hkind'.trans hkind⟩
  | rule r =>
      rw [Symbol.fits_rule_iff, Tree.rule?_abstract]
      exact Symbol.fits_rule_iff.1 h

theorem Spells.abstractList {a : List Symbol} {cs : List Tree} (h : Spells a cs) :
    Spells a (Tree.abstractList g choices cs) := by
  induction h generalizing choices with
  | nil => exact .nil
  | cons hfits _ ih => exact .cons hfits.abstract ih

theorem Tree.exists_of_mem_abstractList {cs : List Tree} {tree : Tree}
    (h : tree ∈ abstractList g choices cs) :
    ∃ c ∈ cs, ∃ choice, tree = c.abstract g choice := by
  induction cs generalizing choices with
  | nil => cases h
  | cons c cs ih =>
      rcases List.mem_cons.1 h with rfl | h
      · exact ⟨c, List.mem_cons_self, _, rfl⟩
      · obtain ⟨c', hc', hchoice⟩ := ih h
        exact ⟨c', List.mem_cons_of_mem _ hc', hchoice⟩

/-- A derivation with placeholders in it is a derivation. -/
theorem Tree.IsDerivation.abstract {alternatives : RuleId → List Symbol → Prop} {tree : Tree}
    (h : tree.IsDerivation alternatives) (choice : Choice) :
    (tree.abstract g choice).IsDerivation alternatives := by
  induction tree using Tree.inductionOn generalizing choice with
  | leaf token =>
      obtain ⟨token', hleaf, _⟩ := Tree.exists_abstract_leaf g choice token
      rw [hleaf]
      exact .leaf token'
  | node r cs ih =>
      obtain ⟨hnode, hchildren⟩ := node_iff.1 h
      refine Tree.abstract_node_of (fun token hkind => ?_) (fun choices => ?_) choice
      · exact node_iff.2 ⟨.inl ⟨token, rfl, hkind⟩, by simp⟩
      · refine node_iff.2 ⟨?_, ?_⟩
        · rcases hnode with ⟨token, rfl, hkind⟩ | ⟨a, ha, hspells⟩
          · obtain ⟨token', hleaf, hkind'⟩ := Tree.exists_abstract_leaf g (choices 0) token
            refine .inl ⟨token', ?_, hkind'.trans hkind⟩
            rw [abstractList_cons, abstractList_nil, hleaf]
          · exact .inr ⟨a, ha, hspells.abstractList⟩
        · intro c hc
          obtain ⟨c', hc', choice', rfl⟩ := Tree.exists_of_mem_abstractList hc
          exact ih c' hc' (hchildren c' hc') choice'

end

/-! ### Placeholders in expressions -/

/-- Precedences are not changed by placeholders. -/
theorem Normal.abstract {g : Grammar} {e : RuleId} {ops : List TokenType}
    {operands : List Operand} {m : Nat} {tree : Tree} (h : Normal e ops operands m tree)
    (choice : Choice) : Normal e ops operands m (tree.abstract g choice) := by
  induction h generalizing choice with
  | @placeholder m token hkind =>
      refine Tree.abstract_node_of (fun _ => .placeholder) (fun choices => ?_) choice
      obtain ⟨token', hleaf, hkind'⟩ := Tree.exists_abstract_leaf g (choices 0) token
      rw [Tree.abstractList_cons, Tree.abstractList_nil, hleaf]
      exact .placeholder (hkind'.trans hkind)
  | @atom m t token hmem hkind =>
      refine Tree.abstract_node_of (fun _ => .placeholder) (fun choices => ?_) choice
      obtain ⟨token', hleaf, hkind'⟩ := Tree.exists_abstract_leaf g (choices 0) token
      rw [Tree.abstractList_cons, Tree.abstractList_nil, hleaf]
      exact .atom hmem (hkind'.trans hkind)
  | @bracket m opening closing a b inner hmem ha hinner hb ih =>
      refine Tree.abstract_node_of (fun _ => .placeholder) (fun choices => ?_) choice
      obtain ⟨a', ha', hkind⟩ := Tree.exists_abstract_leaf g (choices 0) a
      obtain ⟨b', hb', hkind'⟩ := Tree.exists_abstract_leaf g (choices 2) b
      simp only [Tree.abstractList_cons, Tree.abstractList_nil, Nat.zero_add, Nat.reduceAdd,
        ha', hb']
      exact .bracket hmem (hkind.trans ha) (ih _) (hkind'.trans hb)
  | @binary m i t op l r ht hm hop hl hr ihl ihr =>
      refine Tree.abstract_node_of (fun _ => .placeholder) (fun choices => ?_) choice
      obtain ⟨op', hop', hkind⟩ := Tree.exists_abstract_leaf g (choices 1) op
      simp only [Tree.abstractList_cons, Tree.abstractList_nil, Nat.zero_add, Nat.reduceAdd, hop']
      exact .binary ht hm (hkind.trans hop) (ihl _) (ihr _)

end Stencil

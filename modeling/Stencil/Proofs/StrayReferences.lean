import Stencil.Language.Scripted
import Stencil.Proofs.Declarations
import Stencil.Proofs.Frontier
import Stencil.Proofs.Positions
import Stencil.Proofs.Relabelling

/-!
Turning any tree into a template, whatever parser it comes from. A rule reference is
understood if it carries a tag and is the only child of a node of its rule; elsewhere it is
stray.

Main statement: a tree has a template if and only if no reference in it is stray, and the
error names the first of those that are. The template has as many literals and holes as the
tree has leaves, it gives the tree back, and both have the same string form.
-/

namespace Stencil

/-! ### Stray references -/

namespace Tree

/-- There is a reference to a rule at the position, and it is not the only child of a node
of that rule, or carries no tag. -/
def StrayAt (t : Tree) (path : List Nat) (token : Token) : Prop :=
  t.at? path = some (.leaf token) ∧ ∃ k, token.kind = .rule k ∧
    ¬ (token.tag.isSome ∧ ∃ above, path = above ++ [0] ∧ t.at? above = some (.node k [.leaf token]))

/-- The first stray reference from left to right. -/
def FirstStray (t : Tree) (path : List Nat) (token : Token) : Prop :=
  t.StrayAt path token ∧ ∀ path' token', t.StrayAt path' token' → ¬ path' < path

variable {t : Tree} {path path' : List Nat} {token token' : Token} {r : RuleId} {cs : List Tree}

theorem FirstStray.unique (h : t.FirstStray path token) (h' : t.FirstStray path' token') :
    path = path' ∧ token = token' := by
  have hpath : path = path' :=
    List.le_antisymm (List.not_lt.1 (h.2 path' token' h'.1)) (List.not_lt.1 (h'.2 path token h.1))
  subst hpath
  have hleaf := h.1.1.symm.trans h'.1.1
  cases hleaf
  exact ⟨rfl, rfl⟩

theorem strayAt_leaf_iff :
    (leaf token).StrayAt path token' ↔ path = [] ∧ token' = token ∧ ∃ k, token.kind = .rule k := by
  cases path with
  | nil =>
      constructor
      · rintro ⟨hleaf, k, hkind, _⟩
        cases hleaf
        exact ⟨rfl, rfl, k, hkind⟩
      · rintro ⟨_, rfl, k, hkind⟩
        exact ⟨rfl, k, hkind, by simp⟩
  | cons i path => simp [StrayAt, at?, children]

/-- The reference of a placeholder stands where it can. -/
theorem not_strayAt_of_holeTag? {tag : Tag} (h : Template.holeTag? r cs = some tag) :
    ¬ (node r cs).StrayAt path token := by
  obtain ⟨only, rfl, hkind, htag⟩ := Template.holeTag?_eq_some_iff.1 h
  rintro ⟨hleaf, k, hk, hstray⟩
  cases path with
  | nil => cases hleaf
  | cons i rest =>
      obtain ⟨c, hc, hrest⟩ := Option.bind_eq_some_iff.1 hleaf
      obtain ⟨rfl, rfl⟩ : i = 0 ∧ leaf only = c := by
        simpa [children, List.getElem?_singleton] using hc
      cases rest with
      | nil =>
          cases hrest
          cases hkind.symm.trans hk
          exact hstray ⟨by simp [htag], [], rfl, rfl⟩
      | cons j rest => cases hrest

/-- Below a node that is no placeholder, references are stray that are so in its children. -/
theorem strayAt_node_iff (h : Template.holeTag? r cs = none) :
    (node r cs).StrayAt path token ↔
      ∃ i rest c, path = i :: rest ∧ cs[i]? = some c ∧ c.StrayAt rest token := by
  constructor
  · rintro ⟨hleaf, k, hk, hstray⟩
    cases path with
    | nil => cases hleaf
    | cons i rest =>
        obtain ⟨c, hc, hrest⟩ := Option.bind_eq_some_iff.1 hleaf
        refine ⟨i, rest, c, rfl, hc, hrest, k, hk, ?_⟩
        rintro ⟨htag, above, rfl, habove⟩
        exact hstray ⟨htag, i :: above, rfl, (at?_cons hc above).trans habove⟩
  · rintro ⟨i, rest, c, rfl, hc, hleaf, k, hk, hstray⟩
    refine ⟨(at?_cons hc rest).trans hleaf, k, hk, ?_⟩
    rintro ⟨htag, above, hpath, habove⟩
    cases above with
    | nil =>
        -- the node would be a placeholder
        cases habove
        obtain ⟨tag, htag⟩ := Option.isSome_iff_exists.1 htag
        rw [Template.holeTag?_eq_some_iff.2 ⟨token, rfl, hk, htag⟩] at h
        cases h
    | cons j above =>
        cases hpath
        exact hstray ⟨htag, above, rfl, (at?_cons hc above).symm.trans habove⟩

/-- The first stray reference of the first child that has one. -/
theorem FirstStray.node {front back : List Tree} {c : Tree}
    (h : Template.holeTag? r (front ++ c :: back) = none)
    (hfront : ∀ b ∈ front, ∀ path token, ¬ b.StrayAt path token) (hc : c.FirstStray path token) :
    (node r (front ++ c :: back)).FirstStray (front.length :: path) token := by
  refine ⟨(strayAt_node_iff h).2 ⟨front.length, path, c, rfl, by simp, hc.1⟩, ?_⟩
  intro path' token' hstray
  obtain ⟨i, rest, b, rfl, hb, hrest⟩ := (strayAt_node_iff h).1 hstray
  rw [List.cons_lt_cons_iff]
  rintro (hlt | ⟨rfl, hlt⟩)
  · rw [List.getElem?_append_left hlt] at hb
    exact hfront b (List.mem_of_getElem? hb) rest token' hrest
  · rw [List.getElem?_append_right (Nat.le_refl _), Nat.sub_self] at hb
    cases hb
    exact hc.2 rest token' hrest hlt

end Tree

/-! ### Which trees have templates -/

namespace Template

variable {t : Tree} {p : Template} {e : String} {path : List Nat} {token : Token}

theorem ofTrees_eq_tryMap (cs : List Tree) : ofTrees cs = tryMap ofTree cs := by
  induction cs with
  | nil => rfl
  | cons c cs ih =>
      rw [ofTrees, tryMap, ih]
      cases ofTree c with
      | error e => rfl
      | ok p => cases tryMap ofTree cs <;> rfl

theorem ofToken_eq_error (h : ofToken token = .error e) :
    (∃ k, token.kind = .rule k) ∧ e = token.text := by
  unfold ofToken at h
  split at h
  · cases h
  · cases h
  · rename_i k hk
    cases h
    exact ⟨⟨k, hk⟩, rfl⟩

theorem not_strayAt_of_ofTree (h : ofTree t = .ok p) : ¬ t.StrayAt path token := by
  induction t using Tree.inductionOn generalizing p path with
  | leaf word =>
      rw [Tree.strayAt_leaf_iff]
      rintro ⟨_, _, k, hkind⟩
      have hword := ofToken_eq_ok h
      cases p with
      | node r ps => exact hword.2.1
      | ruleHole r tag => cases hword.2.2
      | literal n text => cases hkind.symm.trans hword.2.1.1
      | tokenHole n tag => cases hkind.symm.trans hword.2.1.1
  | node r cs ih =>
      rcases ofTree_node_eq_ok h with ⟨tag, htag, _⟩ | ⟨htag, ps, hps, _⟩
      · exact Tree.not_strayAt_of_holeTag? htag
      · rw [Tree.strayAt_node_iff htag]
        rintro ⟨i, rest, c, _, hc, hstray⟩
        have hmem := List.mem_of_getElem? hc
        rw [ofTrees_eq_tryMap] at hps
        obtain ⟨q, _, hq⟩ := List.mem_map.1
          (tryMap_eq_ok_iff.1 hps ▸ List.mem_map_of_mem (f := ofTree) hmem)
        exact ih c hmem hq.symm hstray

/-- The error of a tree is the text of its first stray reference. -/
theorem exists_firstStray_of_ofTree (h : ofTree t = .error e) :
    ∃ path token, t.FirstStray path token ∧ e = token.text := by
  induction t using Tree.inductionOn generalizing e with
  | leaf word =>
      obtain ⟨hkind, rfl⟩ := ofToken_eq_error h
      refine ⟨[], word, ⟨Tree.strayAt_leaf_iff.2 ⟨rfl, rfl, hkind⟩, ?_⟩, rfl⟩
      exact fun path' _ _ => List.not_lt_nil path'
  | node r cs ih =>
      rw [ofTree] at h
      split at h
      · cases h
      · rename_i hhole
        split at h
        · cases h
        · rename_i hcs
          cases h
          rw [ofTrees_eq_tryMap, tryMap_eq_error_iff] at hcs
          obtain ⟨front, c, back, rfl, hfront, hc⟩ := hcs
          obtain ⟨path, token, hfirst, rfl⟩ := ih c (by simp) hc
          refine ⟨front.length :: path, token, hfirst.node hhole ?_, rfl⟩
          intro b hb path token
          obtain ⟨q, hq⟩ := hfront b hb
          exact not_strayAt_of_ofTree hq

theorem ofTree_eq_error_iff :
    ofTree t = .error e ↔ ∃ path token, t.FirstStray path token ∧ e = token.text := by
  constructor
  · exact exists_firstStray_of_ofTree
  · rintro ⟨path, token, hfirst, rfl⟩
    cases h : ofTree t with
    | ok p => exact absurd hfirst.1 (not_strayAt_of_ofTree h)
    | error e =>
        obtain ⟨path', token', hfirst', rfl⟩ := exists_firstStray_of_ofTree h
        rw [(hfirst.unique hfirst').2]

theorem exists_ofTree_iff :
    (∃ p, ofTree t = .ok p) ↔ ∀ path token, ¬ t.StrayAt path token := by
  constructor
  · rintro ⟨p, hp⟩ path token
    exact not_strayAt_of_ofTree hp
  · intro hnone
    cases h : ofTree t with
    | ok p => exact ⟨p, rfl⟩
    | error e =>
        obtain ⟨path, token, hfirst, _⟩ := exists_firstStray_of_ofTree h
        exact absurd hfirst.1 (hnone path token)

/-! ### From templates back to trees -/

mutual
/-- The tree of a template. Holes become placeholders again, that of a rule under a node of
the rule. -/
def toTree : Template → Tree
  | .node r ps => .node r (toTrees ps)
  | .ruleHole r tag => .node r [.leaf (.rulePlaceholder r tag)]
  | .literal n text => .leaf (.word n text)
  | .tokenHole n tag => .leaf (.typePlaceholder n tag)

def toTrees : List Template → List Tree
  | [] => []
  | p :: ps => p.toTree :: toTrees ps
end

end Template

/-- The token as a template knows it: never hidden, and with the text of its tag, if it
carries one. -/
def Token.plain (token : Token) : Token where
  kind := token.kind
  text := (token.tag.map placeholderText).getD token.text
  tag := token.tag

namespace Template

variable {t : Tree} {p : Template} {ruleName? : RuleId → Option String}

theorem toTree_of_ofToken {token : Token} (h : ofToken token = .ok p) :
    p.toTree = .leaf token.plain := by
  unfold ofToken at h
  split at h
  · rename_i hkind htag
    cases h
    simp [toTree, Token.typePlaceholder, Token.plain, hkind, htag]
  · rename_i hkind htag
    cases h
    simp [toTree, Token.word, Token.plain, hkind, htag]
  · cases h

theorem toTrees_of_ofTrees {cs : List Tree}
    (ih : ∀ c ∈ cs, ∀ {p}, ofTree c = .ok p → p.toTree = c.map Token.plain)
    {ps : List Template} (h : ofTrees cs = .ok ps) :
    toTrees ps = cs.map (Tree.map Token.plain) := by
  induction cs generalizing ps with
  | nil =>
      cases h
      rfl
  | cons c cs ihcs =>
      obtain ⟨p, qs, hp, hqs, rfl⟩ := ofTrees_cons_eq_ok h
      rw [toTrees, List.map_cons, ih c List.mem_cons_self hp,
        ihcs (fun c hc => ih c (List.mem_cons_of_mem _ hc)) hqs]

/-- The template of a tree gives the tree back, except for what it does not keep. -/
theorem toTree_of_ofTree (h : ofTree t = .ok p) : p.toTree = t.map Token.plain := by
  induction t using Tree.inductionOn generalizing p with
  | leaf token => exact toTree_of_ofToken h
  | node r cs ih =>
      rcases ofTree_node_eq_ok h with ⟨tag, htag, rfl⟩ | ⟨_, ps, hps, rfl⟩
      · obtain ⟨token, rfl, hkind, htoken⟩ := holeTag?_eq_some_iff.1 htag
        simp [toTree, Token.rulePlaceholder, Token.plain, hkind, htoken]
      · rw [toTree, Tree.map_node, toTrees_of_ofTrees ih hps]

/-! ### String forms -/

theorem renderList_toTrees {ps : List Template}
    (ih : ∀ p ∈ ps, p.toTree.render ruleName? = p.render ruleName?) :
    Tree.renderList ruleName? (toTrees ps) = renderList ruleName? ps := by
  induction ps with
  | nil => rfl
  | cons p ps ihps =>
      rw [toTrees, Tree.renderList, renderList, ih p List.mem_cons_self,
        ihps fun q hq => ih q (List.mem_cons_of_mem _ hq)]

theorem render_toTree (p : Template) : p.toTree.render ruleName? = p.render ruleName? := by
  induction p using inductionOn with
  | node r ps ih => rw [toTree, Tree.render, render, renderList_toTrees ih]
  | ruleHole r tag =>
      simp [toTree, Tree.render, Tree.renderList, render, renderNode, Token.rulePlaceholder,
        String.append_assoc]
  | literal n text => rfl
  | tokenHole n tag => rfl

end Template

namespace Tree

variable {ruleName? : RuleId → Option String} {f : Token → Token}

theorem renderList_map {cs : List Tree}
    (ih : ∀ c ∈ cs, (c.map f).render ruleName? = c.render ruleName?) :
    renderList ruleName? (cs.map (map f)) = renderList ruleName? cs := by
  induction cs with
  | nil => rfl
  | cons c cs ihcs =>
      rw [List.map_cons, renderList, renderList, ih c List.mem_cons_self,
        ihcs fun d hd => ih d (List.mem_cons_of_mem _ hd)]

/-- Only the texts of the tokens are seen in the string form. -/
theorem render_map {t : Tree} (h : ∀ token ∈ t.leaves, (f token).text = token.text) :
    (t.map f).render ruleName? = t.render ruleName? := by
  induction t using Tree.inductionOn with
  | leaf token => exact h token (by simp)
  | node r cs ih =>
      rw [map_node, render, render, renderList_map fun c hc => ih c hc fun token htoken => ?_]
      exact h token (by rw [leaves_node]; exact List.mem_flatMap.2 ⟨c, hc, htoken⟩)

end Tree

theorem Pattern.compile_of_ofTree_error {L : Language} {d : Delimiters} {text : String}
    {start : RuleId} {tokens : List Token} (h : L.patternTokens d text = .ok tokens) {tree : Tree}
    {s : TokenStream} (hparse : L.parse start (.ofList tokens) = (.ok tree, s))
    (hend : s.atEnd = true) {tag : String} (herror : Template.ofTree tree = .error tag) :
    compile L d text start = .error (.strayReference tag text) := by
  simp [compile_of_patternTokens h, hparse, hend, herror]

namespace Template

/-- Turning a tree into a template fails exactly at the first stray reference. What it gives
otherwise has a literal or a hole for each leaf of the tree, gives back the tree, and looks
the same; and patterns are compiled accordingly, in whatever language. -/
theorem ofTree_faithful (t : Tree) :
    (∀ e, ofTree t = .error e ↔ ∃ path token, t.FirstStray path token ∧ e = token.text) ∧
    ((∃ e, ofTree t = .error e) ↔ ∃ path token, t.StrayAt path token) ∧
    ((∃ p, ofTree t = .ok p) ↔ ∀ path token, ¬ t.StrayAt path token) ∧
    (∀ p, ofTree t = .ok p →
      p.leafCount = t.leaves.length ∧ p.toTree = t.map Token.plain ∧
      ((∀ token ∈ t.leaves, ∀ tag, token.tag = some tag →
          token.text = Token.placeholderText tag) →
        ∀ ruleName? : RuleId → Option String, p.render ruleName? = t.render ruleName?)) ∧
    ∀ (L : Language) (d : Delimiters) (text : String) (start : RuleId) (tokens : List Token)
      (s : TokenStream), L.patternTokens d text = .ok tokens →
      L.parse start (.ofList tokens) = (.ok t, s) → s.atEnd = true →
      (∀ path token, t.FirstStray path token →
        Pattern.compile L d text start = .error (.strayReference token.text text)) ∧
      ((∀ path token, ¬ t.StrayAt path token) →
        ∃ p, ofTree t = .ok p ∧ Pattern.compile L d text start = .ok ⟨text, start, p⟩) := by
  refine ⟨fun e => ofTree_eq_error_iff, ?_, exists_ofTree_iff, ?_, ?_⟩
  · rw [← not_iff_not]
    push Not
    rw [← exists_ofTree_iff]
    cases ofTree t <;> simp
  · intro p hp
    refine ⟨?_, toTree_of_ofTree hp, ?_⟩
    · rw [leafCount_eq, (forall₂_frontier hp).length_eq]
    · intro htexts ruleName?
      rw [← render_toTree, toTree_of_ofTree hp]
      refine Tree.render_map fun token htoken => ?_
      cases htag : token.tag with
      | none => simp [Token.plain, htag]
      | some tag => simp [Token.plain, htag, htexts token htoken tag htag]
  · intro L d text start tokens s htokens hparse hend
    constructor
    · intro path token hfirst
      have herror := ofTree_eq_error_iff.2 ⟨path, token, hfirst, rfl⟩
      exact Pattern.compile_of_ofTree_error htokens hparse hend herror
    · intro hnone
      obtain ⟨p, hp⟩ := exists_ofTree_iff.2 hnone
      exact ⟨p, hp, Pattern.compile_of_ofTree htokens hparse hend hp⟩

/-- A language with statements `expr ;` whose parser follows a script. -/
def scriptedStatements (script : Script) : Language :=
  .scripted ["stat", "expr"] [] [(";", [.word 2 ";"])] script

/-- The tokens of `<x:expr>;`. -/
def statementTokens : List Token := [.rulePlaceholder 1 ⟨"expr", some "x"⟩, .word 2 ";"]

/-- The reference to an expression stands in the statement itself. -/
def flatStatement : Tree :=
  .node 0 [.leaf (.rulePlaceholder 1 ⟨"expr", some "x"⟩), .leaf (.word 2 ";")]

def nestedStatement : Tree :=
  .node 0 [.node 1 [.leaf (.rulePlaceholder 1 ⟨"expr", some "x"⟩)], .leaf (.word 2 ";")]

theorem ofTree_faithful_statements :
    (∃ path token, flatStatement.FirstStray path token ∧ token.text = "<x:expr>") ∧
      Pattern.compile (scriptedStatements (.node 0 [.take, .take])) .standard "<x:expr>;" 0 =
        .error (.strayReference "<x:expr>" "<x:expr>;") ∧
      (∀ path token, ¬ nestedStatement.StrayAt path token) ∧
      Pattern.compile (scriptedStatements (.node 0 [.node 1 [.take], .take])) .standard
        "<x:expr>;" 0 =
          .ok ⟨"<x:expr>;", 0, .node 0 [.ruleHole 1 ⟨"expr", some "x"⟩, .literal 2 ";"]⟩ ∧
      render (fun _ => none) (.node 0 [.ruleHole 1 ⟨"expr", some "x"⟩, .literal 2 ";"]) =
        nestedStatement.render fun _ => none := by
  have htokens (script : Script) :
      (scriptedStatements script).patternTokens .standard "<x:expr>;" = .ok statementTokens := by
    change (scriptedStatements .take).patternTokens .standard "<x:expr>;" = .ok statementTokens
    decide
  obtain ⟨hflat, _, _, _, hflatCompile⟩ := ofTree_faithful flatStatement
  obtain ⟨_, _, hnested, hfaithful, hnestedCompile⟩ := ofTree_faithful nestedStatement
  obtain ⟨path, token, hfirst, htext⟩ := (hflat "<x:expr>").1 rfl
  have hnone := hnested.1 ⟨_, rfl⟩
  obtain ⟨p, hp, hcompile⟩ :=
    (hnestedCompile (scriptedStatements (.node 0 [.node 1 [.take], .take])) .standard "<x:expr>;" 0
      _ _ (htokens _) rfl rfl).2 hnone
  cases hp
  refine ⟨⟨path, token, hfirst, htext.symm⟩, ?_, hnone, hcompile, ?_⟩
  · rw [htext]
    exact (hflatCompile (scriptedStatements (.node 0 [.take, .take])) .standard "<x:expr>;" 0 _ _
      (htokens _) rfl rfl).1 path token hfirst
  · refine (hfaithful _ rfl).2.2 ?_ _
    simp [nestedStatement, Token.rulePlaceholder, Token.word]

end Template

end Stencil

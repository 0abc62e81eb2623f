import Stencil.Proofs.Numbering
import Stencil.Proofs.StrayReferences

/-!
String trees read back. In the string form of a tree a word ends where a blank or a
parenthesis follows, and a parenthesis opens exactly the nodes that have children. So the
front of a longer text tells which tree is written there, and where it ends.

Main statement: two trees with the same string form have the same shape, the same rules at
their nodes and the same texts at their leaves.
-/

namespace Stencil

/-! ### Words -/

/-- What may stand before and behind a word of a string tree. -/
def separators : List Char := [' ', '(', ')']

/-- A word that is not empty and has no separator in it. -/
def IsLegible (word : String) : Prop :=
  word ≠ "" ∧ ∀ c ∈ separators, c ∉ word.toList

/-- The text is at its end, or it goes on with a separator. -/
def Separates (rest : List Char) : Prop :=
  ∀ c ∈ rest.head?, c ∈ separators

theorem separates_nil : Separates [] := by
  intro c hc
  cases hc

theorem separates_cons {c : Char} (hc : c ∈ separators) (rest : List Char) :
    Separates (c :: rest) := by
  intro c' hc'
  cases hc'
  exact hc

/-- A word is found again in front of a separator. -/
theorem word_append_injective {cs cs' rest rest' : List Char} (hcs : ∀ c ∈ separators, c ∉ cs)
    (hcs' : ∀ c ∈ separators, c ∉ cs') (hrest : Separates rest) (hrest' : Separates rest')
    (h : cs ++ rest = cs' ++ rest') : cs = cs' ∧ rest = rest' := by
  induction cs generalizing cs' with
  | nil =>
      cases cs' with
      | nil => exact ⟨rfl, h⟩
      | cons c cs' =>
          have hc := hrest c (by rw [← List.nil_append rest, h]; rfl)
          exact absurd List.mem_cons_self (hcs' c hc)
  | cons c cs ih =>
      cases cs' with
      | nil =>
          have hc := hrest' c (by rw [← List.nil_append rest', ← h]; rfl)
          exact absurd List.mem_cons_self (hcs c hc)
      | cons c' cs' =>
          obtain ⟨rfl, htail⟩ := List.cons.inj h
          obtain ⟨rfl, rfl⟩ := ih (fun d hd hmem => hcs d hd (List.mem_cons_of_mem _ hmem))
            (fun d hd hmem => hcs' d hd (List.mem_cons_of_mem _ hmem)) htail
          exact ⟨rfl, rfl⟩

/-- A word does not begin with a parenthesis. -/
theorem IsLegible.append_ne {word : String} (h : IsLegible word) (rest rest' : List Char) :
    word.toList ++ rest ≠ '(' :: rest' := by
  intro heq
  obtain ⟨c, cs, hword⟩ := List.exists_cons_of_ne_nil (mt String.toList_eq_nil_iff.1 h.1)
  rw [hword, List.cons_append] at heq
  obtain ⟨rfl, _⟩ := List.cons.inj heq
  exact h.2 '(' (by decide) (by rw [hword]; exact List.mem_cons_self)

/-! ### The forms of a tree -/

/-- Keeps the text of a token and nothing else. -/
def Token.bare (token : Token) : Token :=
  .word 0 token.text

namespace Tree

/-- Every rule is one of the grammar. The words at the leaves can be read, and none of them
is the name of a rule. -/
structure IsLegible (g : Grammar) (t : Tree) : Prop where
  rule : ∀ s ∈ t.subtrees, ∀ r, s.rule? = some r → g.Has (.rule r)
  word : ∀ token ∈ t.leaves, Stencil.IsLegible token.text
  name : ∀ token ∈ t.leaves, ∀ rule ∈ g.rules, rule.name ≠ token.text

theorem IsLegible.child {g : Grammar} {r : RuleId} {cs : List Tree}
    (h : (node r cs).IsLegible g) {c : Tree} (hc : c ∈ cs) : c.IsLegible g := by
  have hleaves : ∀ token ∈ c.leaves, token ∈ (node r cs).leaves := by
    intro token htoken
    rw [leaves_node]
    exact List.mem_flatMap.2 ⟨c, hc, htoken⟩
  refine ⟨fun s hs => h.rule s ?_, fun token ht => h.word token (hleaves token ht),
    fun token ht => h.name token (hleaves token ht)⟩
  rw [subtrees_node]
  exact List.mem_cons_of_mem _ (List.mem_flatMap.2 ⟨c, hc, hs⟩)

theorem IsLegible.has {g : Grammar} {r : RuleId} {cs : List Tree}
    (h : (node r cs).IsLegible g) : g.Has (.rule r) :=
  h.rule _ (self_mem_subtrees _) r rfl

variable (ruleName? : RuleId → Option String)

theorem render_node_nil (r : RuleId) : (node r []).render ruleName? = showRule ruleName? r := by
  rw [render, renderList, renderNode, if_pos rfl]

theorem toList_renderList_cons (c : Tree) (cs : List Tree) :
    (renderList ruleName? (c :: cs)).toList =
      ' ' :: ((c.render ruleName?).toList ++ (renderList ruleName? cs).toList) := by
  simp [renderList]

theorem toList_render_node_cons (r : RuleId) (c : Tree) (cs : List Tree) :
    ((node r (c :: cs)).render ruleName?).toList =
      '(' :: ((showRule ruleName? r).toList ++ (renderList ruleName? (c :: cs)).toList ++ [')']) := by
  have hne : renderList ruleName? (c :: cs) ≠ "" := by
    intro heq
    have hlist := toList_renderList_cons ruleName? c cs
    rw [heq] at hlist
    cases hlist
  rw [render, renderNode, if_neg hne]
  simp

end Tree

/-! ### Reading a tree back -/

namespace GrammarDecl

variable {d : GrammarDecl} {g : Grammar}

/-- A rule in range is shown as its name. -/
theorem exists_showRule_eq (g : Grammar) {r : RuleId} (hr : g.Has (.rule r)) :
    ∃ rule ∈ g.rules, g.ruleName? r = some rule.name ∧
      showRule g.ruleName? r = rule.name := by
  have hlt : r < g.rules.length := hr
  have hname : g.ruleName? r = some g.rules[r].name := by
    rw [Grammar.ruleName?, List.getElem?_eq_getElem hlt, Option.map_some]
  exact ⟨g.rules[r], List.getElem_mem hlt, hname, by rw [showRule, hname, Option.getD_some]⟩

/-- The name tells the rule. -/
theorem eq_of_showRule_eq (hg : d.build = .ok g) {r k : RuleId} (hr : g.Has (.rule r))
    (hk : g.Has (.rule k)) (h : showRule g.ruleName? r = showRule g.ruleName? k) : r = k := by
  obtain ⟨rule, _, hrule, hshow⟩ := exists_showRule_eq g hr
  obtain ⟨rule', _, hrule', hshow'⟩ := exists_showRule_eq g hk
  have hname : rule.name = rule'.name := by rw [← hshow, ← hshow', h]
  have hfirst := (ruleName?_eq_some_iff hg).1 hrule
  have hsecond := (ruleName?_eq_some_iff hg).1 hrule'
  rw [← hname, hfirst] at hsecond
  exact Option.some.inj hsecond

/-- A tree that is a single word is a leaf or a node, and not both. -/
theorem map_bare_eq_of_render_eq (hg : d.build = .ok g) {t u : Tree} (ht : t.IsLegible g)
    (hu : u.IsLegible g) (hchildren : t.children = []) (hchildren' : u.children = [])
    (h : t.render g.ruleName? = u.render g.ruleName?) : t.map Token.bare = u.map Token.bare := by
  have hmixed {token : Token} {r : RuleId} (htoken : (Tree.leaf token).IsLegible g)
      (hr : g.Has (.rule r)) : token.text ≠ showRule g.ruleName? r := by
    obtain ⟨rule, hrule, _, hshow⟩ := exists_showRule_eq g hr
    rw [hshow]
    exact (htoken.name token List.mem_cons_self rule hrule).symm
  cases t with
  | leaf token =>
      cases u with
      | leaf token' =>
          have htext : token.text = token'.text := h
          rw [Tree.map_leaf, Tree.map_leaf, Token.bare, Token.bare, htext]
      | node k us =>
          cases hchildren'
          rw [Tree.render_node_nil] at h
          exact absurd h (hmixed ht hu.has)
  | node r cs =>
      cases hchildren
      cases u with
      | leaf token' =>
          rw [Tree.render_node_nil] at h
          exact absurd h.symm (hmixed hu ht.has)
      | node k us =>
          cases hchildren'
          rw [Tree.render_node_nil, Tree.render_node_nil] at h
          rw [eq_of_showRule_eq hg ht.has hu.has h]

/-- Behind each tree of a list comes a separator. -/
theorem separates_renderList (ruleName? : RuleId → Option String) (cs : List Tree)
    (rest : List Char) : Separates ((Tree.renderList ruleName? cs).toList ++ ')' :: rest) := by
  cases cs with
  | nil => exact separates_cons (by decide) rest
  | cons c cs =>
      rw [Tree.toList_renderList_cons, List.cons_append]
      exact separates_cons (by decide) _

/-- A list of trees is found again in front of the parenthesis that closes their node. -/
theorem renderList_append_injective {cs : List Tree}
    (ih : ∀ c ∈ cs, ∀ u : Tree, u.IsLegible g → ∀ rest rest', Separates rest → Separates rest' →
      (c.render g.ruleName?).toList ++ rest = (u.render g.ruleName?).toList ++ rest' →
        c.map Token.bare = u.map Token.bare ∧ rest = rest')
    {us : List Tree} (hus : ∀ u ∈ us, u.IsLegible g) {rest rest' : List Char}
    (h : (Tree.renderList g.ruleName? cs).toList ++ ')' :: rest =
      (Tree.renderList g.ruleName? us).toList ++ ')' :: rest') :
    cs.map (Tree.map Token.bare) = us.map (Tree.map Token.bare) ∧ rest = rest' := by
  induction cs generalizing us with
  | nil =>
      cases us with
      | nil => exact ⟨rfl, List.tail_eq_of_cons_eq h⟩
      | cons u us =>
          rw [Tree.toList_renderList_cons] at h
          cases h
  | cons c cs ihcs =>
      cases us with
      | nil =>
          rw [Tree.toList_renderList_cons] at h
          cases h
      | cons u us =>
          rw [Tree.toList_renderList_cons, Tree.toList_renderList_cons, List.cons_append,
            List.cons_append, List.append_assoc, List.append_assoc] at h
          obtain ⟨hfirst, hrest⟩ := ih c List.mem_cons_self u (hus u List.mem_cons_self) _ _
            (separates_renderList _ cs rest) (separates_renderList _ us rest')
            (List.tail_eq_of_cons_eq h)
          obtain ⟨hmore, hrest⟩ := ihcs (fun c hc => ih c (List.mem_cons_of_mem _ hc))
            (fun u hu => hus u (List.mem_cons_of_mem _ hu)) hrest
          exact ⟨by rw [List.map_cons, List.map_cons, hfirst, hmore], hrest⟩

section Trees

variable (hnames : ∀ rule ∈ g.rules, IsLegible rule.name)
include hnames

theorem isLegible_showRule {r : RuleId} (hr : g.Has (.rule r)) :
    IsLegible (showRule g.ruleName? r) := by
  obtain ⟨rule, hrule, _, hshow⟩ := exists_showRule_eq g hr
  rw [hshow]
  exact hnames rule hrule

/-- Without children a tree is a single word. -/
theorem isLegible_render {t : Tree} (ht : t.IsLegible g) (hchildren : t.children = []) :
    IsLegible (t.render g.ruleName?) := by
  cases t with
  | leaf token => exact ht.word token List.mem_cons_self
  | node r cs =>
      cases hchildren
      rw [Tree.render_node_nil]
      exact isLegible_showRule hnames ht.has

variable (hg : d.build = .ok g)
include hg

theorem render_append_injective_of_word {t u : Tree} (ht : t.IsLegible g) (hu : u.IsLegible g)
    (hchildren : t.children = []) {rest rest' : List Char} (hrest : Separates rest)
    (hrest' : Separates rest')
    (h : (t.render g.ruleName?).toList ++ rest = (u.render g.ruleName?).toList ++ rest') :
    t.map Token.bare = u.map Token.bare ∧ rest = rest' := by
  have hword := isLegible_render hnames ht hchildren
  by_cases hchildren' : u.children = []
  · have hword' := isLegible_render hnames hu hchildren'
    obtain ⟨hrender, hrest⟩ := word_append_injective hword.2 hword'.2 hrest hrest' h
    exact ⟨map_bare_eq_of_render_eq hg ht hu hchildren hchildren' (String.toList_inj.1 hrender),
      hrest⟩
  · cases u with
    | leaf token => exact absurd rfl hchildren'
    | node k us =>
        obtain ⟨u, us, rfl⟩ := List.exists_cons_of_ne_nil hchildren'
        rw [Tree.toList_render_node_cons, List.cons_append] at h
        exact absurd h (hword.append_ne _ _)

/-- A tree is found again in front of a separator. -/
theorem render_append_injective {t u : Tree} (ht : t.IsLegible g) (hu : u.IsLegible g)
    {rest rest' : List Char} (hrest : Separates rest) (hrest' : Separates rest')
    (h : (t.render g.ruleName?).toList ++ rest = (u.render g.ruleName?).toList ++ rest') :
    t.map Token.bare = u.map Token.bare ∧ rest = rest' := by
  induction t using Tree.inductionOn generalizing u rest rest' with
  | leaf token => exact render_append_injective_of_word hnames hg ht hu rfl hrest hrest' h
  | node r cs ih =>
      by_cases hchildren : cs = []
      · exact render_append_injective_of_word hnames hg ht hu hchildren hrest hrest' h
      · by_cases hchildren' : u.children = []
        · obtain ⟨hsame, hend⟩ :=
            render_append_injective_of_word hnames hg hu ht hchildren' hrest' hrest h.symm
          exact ⟨hsame.symm, hend.symm⟩
        · obtain ⟨c, cs, rfl⟩ := List.exists_cons_of_ne_nil hchildren
          cases u with
          | leaf token => exact absurd rfl hchildren'
          | node k us =>
              obtain ⟨u, us, rfl⟩ := List.exists_cons_of_ne_nil hchildren'
              -- the name ends in front of the children, and they end in front of `)`
              simp only [Tree.toList_render_node_cons, List.cons_append, List.append_assoc] at h
              obtain ⟨hname, hlist⟩ := word_append_injective
                (isLegible_showRule hnames ht.has).2 (isLegible_showRule hnames hu.has).2
                (separates_renderList _ (c :: cs) rest) (separates_renderList _ (u :: us) rest')
                (List.tail_eq_of_cons_eq h)
              obtain ⟨hchildren, hend⟩ := renderList_append_injective
                (fun c hc u hu rest rest' hrest hrest' => ih c hc (ht.child hc) hu hrest hrest')
                (fun u hu' => hu.child hu') hlist
              have hrule := eq_of_showRule_eq hg ht.has hu.has (String.toList_inj.1 hname)
              exact ⟨by rw [Tree.map_node, Tree.map_node, hchildren, hrule], hend⟩

end Trees

/-- Trees with the same string form differ at most in what is not shown of their tokens:
they have the same shape, the same rules at their nodes and the same texts at their
leaves. -/
theorem render_eq_iff (hg : d.build = .ok g) (hnames : ∀ rule ∈ g.rules, IsLegible rule.name)
    {t u : Tree} (ht : t.IsLegible g) (hu : u.IsLegible g) :
    t.render g.ruleName? = u.render g.ruleName? ↔ t.map Token.bare = u.map Token.bare := by
  constructor
  · intro h
    exact (render_append_injective hnames hg ht hu separates_nil separates_nil (by rw [h])).1
  · intro h
    have hbare (t : Tree) : (t.map Token.bare).render g.ruleName? = t.render g.ruleName? :=
      Tree.render_map fun _ _ => rfl
    rw [← hbare t, ← hbare u, h]

/-- A node without children, and a word behind it. -/
def wordBehind (t : TokenType) : Tree :=
  .node 0 [.node 1 [], .leaf (.word t "x")]

/-- The word as the child of the node. -/
def wordInside : Tree :=
  .node 0 [.node 1 [.leaf (.word 7 "x")]]

theorem render_eq_iff_statements :
    statements.build = .ok Statement.grammar ∧
      (∀ rule ∈ Statement.grammar.rules, IsLegible rule.name) ∧
      (∀ t, (wordBehind t).IsLegible Statement.grammar) ∧
      wordInside.IsLegible Statement.grammar ∧
      (wordBehind 7).render Statement.grammar.ruleName? = "(stat expr x)" ∧
      (wordBehind 7).map Token.bare = (wordBehind 8).map Token.bare ∧
      (wordBehind 7).render Statement.grammar.ruleName? ≠
        wordInside.render Statement.grammar.ruleName? := by
  have hnames : ∀ rule ∈ Statement.grammar.rules, IsLegible rule.name := by
    simp [Statement.grammar, IsLegible, separators]
  have hbehind (t : TokenType) : (wordBehind t).IsLegible Statement.grammar := by
    constructor <;> simp [wordBehind, Statement.grammar, IsLegible, separators, Tree.rule?,
      Grammar.Has, Token.word]
  have hinside : wordInside.IsLegible Statement.grammar := by
    constructor <;> simp [wordInside, Statement.grammar, IsLegible, separators, Tree.rule?,
      Grammar.Has, Token.word]
  refine ⟨Statement.build_statements, hnames, hbehind, hinside, by decide, ?_, ?_⟩
  · exact (render_eq_iff Statement.build_statements hnames (hbehind 7) (hbehind 8)).1 (by decide)
  · refine mt (render_eq_iff Statement.build_statements hnames (hbehind 7) hinside).1 ?_
    decide

end GrammarDecl

end Stencil

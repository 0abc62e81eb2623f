import Mathlib.Data.List.Flatten
import Stencil.Proofs.Abstraction
import Stencil.Proofs.Depth

/-!
Predictive grammars. The alternatives of a rule are tried in order, and the first
one that can be parsed is kept even if a later one would read more. In a predictive
grammar nothing is lost by this: the next token tells which alternative to use.

Main statement: the parser of a predictive grammar finds every derivation from its
leaves, also when placeholders stand for some of its nodes.
-/

namespace Stencil

/-- The kinds of token with which an alternative can begin. One that begins with a
rule can begin with a placeholder for it. -/
inductive First (alternatives : RuleId → List (List Symbol)) : List Symbol → Kind → Prop
  | token {t : TokenType} {ss : List Symbol} : First alternatives (.token t :: ss) (.type t)
  | placeholder {k : RuleId} {ss : List Symbol} : First alternatives (.rule k :: ss) (.rule k)
  | rule {k : RuleId} {a ss : List Symbol} {x : Kind} (ha : a ∈ alternatives k)
      (hfirst : First alternatives a x) : First alternatives (.rule k :: ss) x

namespace First

variable {alternatives : RuleId → List (List Symbol)} {ss : List Symbol} {x : Kind}

@[simp] theorem token_cons_iff {t : TokenType} :
    First alternatives (.token t :: ss) x ↔ x = .type t := by
  constructor
  · intro h
    cases h
    rfl
  · rintro rfl
    exact .token

@[simp] theorem rule_cons_iff {k : RuleId} :
    First alternatives (.rule k :: ss) x ↔
      x = .rule k ∨ ∃ a ∈ alternatives k, First alternatives a x := by
  constructor
  · intro h
    cases h with
    | placeholder => exact .inl rfl
    | rule ha hfirst => exact .inr ⟨_, ha, hfirst⟩
  · rintro (rfl | ⟨a, ha, hfirst⟩)
    · exact .placeholder
    · exact .rule ha hfirst

end First

/-- An alternative of the first rule begins with the second. -/
def LeadsTo (alternatives : RuleId → List (List Symbol)) (r k : RuleId) : Prop :=
  ∃ ss, .rule k :: ss ∈ alternatives r

/-- No alternative is empty, no rule leads back to itself (so that no alternative is
left-recursive), and no two alternatives of a rule can begin alike. -/
structure Predictive (alternatives : RuleId → List (List Symbol)) : Prop where
  ne_nil : ∀ r, [] ∉ alternatives r
  acyclic : ∀ r, ¬ Relation.TransGen (LeadsTo alternatives) r r
  disjoint : ∀ r, (alternatives r).Pairwise fun a b =>
    ∀ x, ¬ (First alternatives a x ∧ First alternatives b x)

/-! ### The first leaf -/

namespace Tree

variable {alternatives : RuleId → List (List Symbol)}

/-- If the leaves of the children begin as they should, so do those of their node. -/
theorem exists_first_of_spells {a : List Symbol} {cs : List Tree} (ha : a ≠ [])
    (hspells : Spells a cs)
    (hchildren : ∀ c ∈ cs, ∀ k, c.rule? = some k →
      ∃ token rest, c.leaves = token :: rest ∧ First alternatives [.rule k] token.kind) :
    ∃ token rest, cs.flatMap leaves = token :: rest ∧ First alternatives a token.kind := by
  cases a with
  | nil => exact absurd rfl ha
  | cons s ss =>
      cases s with
      | token t =>
          obtain ⟨token, cs', hkind, _, rfl⟩ := spells_token_cons_iff.1 hspells
          exact ⟨token, cs'.flatMap leaves, rfl, hkind ▸ .token⟩
      | rule k =>
          obtain ⟨c, cs', hroot, _, rfl⟩ := spells_rule_cons_iff.1 hspells
          obtain ⟨token, rest, hleaves, hfirst⟩ := hchildren c List.mem_cons_self k hroot
          refine ⟨token, rest ++ cs'.flatMap leaves, by simp [hleaves], ?_⟩
          rwa [First.rule_cons_iff] at hfirst ⊢

theorem IsDerivation.exists_first (hempty : ∀ r, [] ∉ alternatives r) {tree : Tree}
    (h : tree.IsDerivation fun k a => a ∈ alternatives k) {r : RuleId}
    (hroot : tree.rule? = some r) :
    ∃ token rest, tree.leaves = token :: rest ∧ First alternatives [.rule r] token.kind := by
  induction tree using Tree.inductionOn generalizing r with
  | leaf token => cases hroot
  | node k cs ih =>
      obtain rfl : k = r := by simpa [rule?] using hroot
      obtain ⟨hnode, hchildren⟩ := IsDerivation.node_iff.1 h
      rcases hnode with ⟨token, rfl, hkind⟩ | ⟨a, ha, hspells⟩
      · exact ⟨token, [], rfl, hkind ▸ .placeholder⟩
      · have hne : a ≠ [] := fun hnil => hempty k (hnil ▸ ha)
        obtain ⟨token, rest, hleaves, hfirst⟩ :=
          exists_first_of_spells hne hspells fun c hc j hj => ih c hc (hchildren c hc) hj
        exact ⟨token, rest, by rw [leaves_node, hleaves], .rule ha hfirst⟩

/-- A derivation has a leaf. -/
theorem IsDerivation.length_leaves_pos (hempty : ∀ r, [] ∉ alternatives r) {tree : Tree}
    (h : tree.IsDerivation fun k a => a ∈ alternatives k) : 0 < tree.leaves.length := by
  cases hroot : tree.rule? with
  | none =>
      cases tree with
      | leaf token => exact Nat.zero_lt_one
      | node r cs => cases hroot
  | some r =>
      obtain ⟨token, rest, hleaves, _⟩ := h.exists_first hempty hroot
      rw [hleaves]
      exact Nat.succ_pos _

end Tree

/-! ### Parsing by prediction -/

namespace Predictive

variable {alternatives : RuleId → List (List Symbol)} (hpredictive : Predictive alternatives)
include hpredictive

/-- A rule does not begin with a placeholder for itself, unless it is one. -/
theorem not_first_self {r : RuleId} {a : List Symbol} (ha : a ∈ alternatives r) :
    ¬ First alternatives a (.rule r) := by
  have hleads {k : RuleId} {a : List Symbol} (ha : a ∈ alternatives k)
      (hfirst : First alternatives a (.rule r)) :
      Relation.TransGen (LeadsTo alternatives) k r := by
    generalize hx : Kind.rule r = x at hfirst
    induction hfirst generalizing k with
    | token => cases hx
    | placeholder =>
        cases hx
        exact .single ⟨_, ha⟩
    | rule hb _ ih => exact .head ⟨_, ha⟩ (ih hb hx)
  intro hfirst
  exact hpredictive.acyclic r (hleads ha hfirst)

/-- Leaves count more than ranks. From a node to its first child the rank goes down,
and from a node to any other child leaves are left behind. -/
theorem cost_child_lt {rank : RuleId → Nat} {n : Nat}
    (hrank : ∀ r k, LeadsTo alternatives r k → rank k < rank r) (hbound : ∀ r, rank r ≤ n)
    {r k : RuleId} {a : List Symbol} {cs : List Tree} (ha : a ∈ alternatives r)
    (hspells : Spells a cs) (hchildren : ∀ c ∈ cs, c.IsDerivation fun k a => a ∈ alternatives k)
    {c : Tree} (hc : c ∈ cs) (hroot : c.rule? = some k) :
    c.leaves.length * (n + 1) + rank k < (cs.flatMap Tree.leaves).length * (n + 1) + rank r := by
  cases hspells with
  | nil => cases hc
  | @cons s first ss cs hfits _ =>
      rw [List.flatMap_cons, List.length_append, Nat.add_mul]
      rcases List.mem_cons.1 hc with rfl | hc
      · have hlt : rank k < rank r := hrank r k ⟨ss, hfits.eq_rule hroot ▸ ha⟩
        omega
      · have hfirst := (hchildren first List.mem_cons_self).length_leaves_pos hpredictive.ne_nil
        have hle : c.leaves.length ≤ (cs.flatMap Tree.leaves).length := by
          simpa using ((List.singleton_sublist.2 hc).flatMap Tree.leaves).length_le
        have hk := hbound k
        calc c.leaves.length * (n + 1) + rank k
            < c.leaves.length * (n + 1) + 1 * (n + 1) := by omega
          _ ≤ (cs.flatMap Tree.leaves).length * (n + 1) + first.leaves.length * (n + 1) :=
            Nat.add_le_add (Nat.mul_le_mul_right _ hle) (Nat.mul_le_mul_right _ hfirst)
          _ ≤ _ := by omega

end Predictive

namespace Grammar

variable {d : GrammarDecl} {g : Grammar}

/-- The trees of symbols are found one after the other, if each rule finds its own. -/
theorem parseSymbols_of_spells {sub : RuleParser} {a : List Symbol} {cs : List Tree}
    (hspells : Spells a cs)
    (hsub : ∀ c ∈ cs, ∀ k, c.rule? = some k → ∀ rest, sub k 0 (c.leaves ++ rest) = .ok c rest)
    (rest : List Token) :
    g.parseSymbols sub a (cs.flatMap Tree.leaves ++ rest) = .ok cs rest := by
  induction hspells with
  | nil => rfl
  | @cons s c ss cs hfits _ ih =>
      have hrest := ih fun c hc => hsub c (List.mem_cons_of_mem _ hc)
      rw [List.flatMap_cons, List.append_assoc]
      cases s with
      | token t =>
          obtain ⟨token, rfl, hkind⟩ := Symbol.fits_token_iff.1 hfits
          exact parseSymbols_of_kind hkind hrest
      | rule k =>
          have hc := hsub c List.mem_cons_self k (Symbol.fits_rule_iff.1 hfits)
          exact parseSymbols_rule (hc _) hrest

/-- The rules are as they were declared: there are no operators to part from them. -/
theorem getElem?_rules_of_predictive (hg : d.build = .ok g)
    (hpredictive : Predictive d.alternatives) {r : RuleId} (hr : r < g.rules.length) :
    ∃ name, g.rules[r]? = some ⟨name, d.alternatives r, []⟩ := by
  have hsuffix : ∀ a ∈ d.alternatives r, GrammarDecl.suffix? r a = none := by
    intro a ha
    rw [Option.eq_none_iff_forall_ne_some]
    intro op hop
    rw [GrammarDecl.suffix?_eq_some_iff] at hop
    exact hpredictive.acyclic r (.single ⟨op, hop ▸ ha⟩)
  rcases GrammarDecl.getElem?_rules hg r with ⟨name, hrule⟩ | ⟨hnone, _⟩
  · refine ⟨name, ?_⟩
    have hprimaries : (d.alternatives r).filter (fun a => (GrammarDecl.suffix? r a).isNone) =
        d.alternatives r := List.filter_eq_self.2 fun a ha => by rw [hsuffix a ha]; rfl
    have hoperators : (d.alternatives r).filterMap (GrammarDecl.suffix? r) = [] :=
      List.filterMap_eq_nil_iff.2 hsuffix
    rw [hrule, GrammarDecl.makeRule, hprimaries, hoperators]
  · rw [List.getElem?_eq_none_iff] at hnone
    exact absurd hr (Nat.not_lt.2 hnone)

section Ranked

variable (hg : d.build = .ok g) (hpredictive : Predictive d.alternatives) {rank : RuleId → Nat}
  (hrank : ∀ r k, LeadsTo d.alternatives r k → rank k < rank r)
include hg hpredictive hrank

/-- An alternative that cannot begin with the next token fails. The rules it leads
to are entered without reading a token, so their ranks bound the depth. -/
theorem parseSymbols_of_not_first {r : RuleId} {a : List Symbol} (ha : a ∈ d.alternatives r)
    {n : Nat} (hn : rank r ≤ n) {token : Token} (ts : List Token)
    (hfirst : ¬ First d.alternatives a token.kind) :
    ∃ e left, g.parseSymbols (g.parseRule n) a (token :: ts) = .fail e left := by
  induction n using Nat.strong_induction_on generalizing r a with
  | _ n ih =>
      match a with
      | [] => exact absurd ha (hpredictive.ne_nil r)
      | .token t :: ss =>
          rw [First.token_cons_iff] at hfirst
          have hne : (token :: ts).head?.map Token.kind ≠ some (.type t) := by simpa using hfirst
          obtain ⟨e, hfail⟩ := parseSymbols_of_ne (g := g) ss hne
          exact ⟨e, _, hfail⟩
      | .rule k :: ss =>
          rw [First.rule_cons_iff, not_or] at hfirst
          obtain ⟨hkind, hfirst⟩ := hfirst
          -- nothing is read before rule `k` is entered, so that only its rank is smaller
          have hlt : rank k < rank r := hrank r k ⟨ss, ha⟩
          obtain ⟨n, rfl⟩ : ∃ m, n = m + 1 := ⟨n - 1, by omega⟩
          have hk := GrammarDecl.lt_length_of_mem_alternatives hg ha List.mem_cons_self
          obtain ⟨name, hrule⟩ := getElem?_rules_of_predictive hg hpredictive hk
          have hfails : ∀ b ∈ d.alternatives k,
              ∃ e left, g.parseSymbols (g.parseRule n) b (token :: ts) = .fail e left := by
            intro b hb
            exact ih n (Nat.lt_succ_self n) hb (by omega) fun h => hfirst ⟨b, hb, h⟩
          obtain ⟨e, left, hfail⟩ := parseRule_of_fail hrule (by simpa using hkind) hfails
          exact ⟨e, left, by rw [parseSymbols_cons, parseSymbol_rule, hfail, Outcome.fail_cons]⟩

/-- The alternatives before the one with the next token in its first set fail, so
that this one is used. -/
theorem parseRule_of_first {r : RuleId} {a : List Symbol} (ha : a ∈ d.alternatives r) {n : Nat}
    (hn : rank r ≤ n) {token : Token} {ts rest : List Token} {children : List Tree}
    (hfirst : First d.alternatives a token.kind)
    (h : g.parseSymbols (g.parseRule n) a (token :: ts) = .ok children rest) :
    g.parseRule (n + 1) r 0 (token :: ts) = .ok (.node r children) rest := by
  have hr : r < g.rules.length :=
    GrammarDecl.lt_length_of_alternatives_ne_nil hg (List.ne_nil_of_mem ha)
  obtain ⟨name, hrule⟩ := getElem?_rules_of_predictive hg hpredictive hr
  obtain ⟨before, after, hsplit⟩ := List.append_of_mem ha
  have hbefore : ∀ b ∈ before,
      ∃ e left, g.parseSymbols (g.parseRule n) b (token :: ts) = .fail e left := by
    intro b hb
    have hdisjoint := hpredictive.disjoint r
    rw [hsplit, List.pairwise_append] at hdisjoint
    have hnot := hdisjoint.2.2 b hb a List.mem_cons_self token.kind
    have hmem : b ∈ d.alternatives r := by
      rw [hsplit]
      exact List.mem_append_left _ hb
    exact parseSymbols_of_not_first hg hpredictive hrank hmem hn ts fun h => hnot ⟨h, hfirst⟩
  have hhead : (token :: ts).head?.map Token.kind ≠ some (.rule r) := by
    intro hkind
    have heq : token.kind = .rule r := by simpa using hkind
    exact hpredictive.not_first_self ha (heq ▸ hfirst)
  have hparse : g.parseFirst (g.parseRule n) (d.alternatives r) (token :: ts) =
      .ok (some children) rest :=
    parseFirst_eq_some_iff.2 ⟨before, a, after, hsplit, hbefore, h⟩
  rw [parseRule_of_parsePrimary hrule (parsePrimary_of_parseFirst hhead hparse)]
  exact extend_of_none rfl (Nat.succ_pos _)

/-- The parser finds a derivation from its leaves. -/
theorem parseRule_eq_ok_of_isDerivation (hbound : ∀ r, rank r ≤ g.rules.length) {tree : Tree}
    (h : tree.IsDerivation fun k a => a ∈ d.alternatives k) {r : RuleId}
    (hroot : tree.rule? = some r) (hr : r < g.rules.length) {n : Nat}
    (hn : tree.leaves.length * (g.rules.length + 1) + rank r ≤ n) (rest : List Token) :
    g.parseRule (n + 1) r 0 (tree.leaves ++ rest) = .ok tree rest := by
  induction tree using Tree.inductionOn generalizing r n rest with
  | leaf token => cases hroot
  | node k cs ih =>
      obtain rfl : k = r := by simpa [Tree.rule?] using hroot
      obtain ⟨hnode, hchildren⟩ := Tree.IsDerivation.node_iff.1 h
      rcases hnode with ⟨token, rfl, hkind⟩ | ⟨a, ha, hspells⟩
      · obtain ⟨name, hrule⟩ := getElem?_rules_of_predictive hg hpredictive hr
        refine (parseRule_of_parsePrimary hrule (parsePrimary_of_rule _ hkind)).trans ?_
        exact extend_of_none rfl (Nat.succ_pos _)
      · rw [Tree.leaves_node] at hn ⊢
        -- the children are found at the depth that is left
        have hsub : ∀ c ∈ cs, ∀ j, c.rule? = some j → ∀ rest,
            g.parseRule n j 0 (c.leaves ++ rest) = .ok c rest := by
          intro c hc j hj rest
          have hcost := hpredictive.cost_child_lt hrank hbound ha hspells hchildren hc hj
          obtain ⟨n, rfl⟩ : ∃ m, n = m + 1 := ⟨n - 1, by omega⟩
          have hlt := GrammarDecl.lt_length_of_mem_alternatives hg ha (hspells.rule_mem hc hj)
          exact ih c hc (hchildren c hc) hj hlt (by omega) rest
        -- and the first leaf leads the parser to the alternative they spell
        have hne : a ≠ [] := fun hnil => hpredictive.ne_nil k (hnil ▸ ha)
        obtain ⟨token, ts, hleaves, hfirst⟩ := Tree.exists_first_of_spells hne hspells
          fun c hc j hj => (hchildren c hc).exists_first hpredictive.ne_nil hj
        have hparse := parseSymbols_of_spells (g := g) hspells hsub rest
        rw [hleaves, List.cons_append] at hparse ⊢
        exact parseRule_of_first hg hpredictive hrank ha (by omega) hfirst hparse

end Ranked

/-- In a stream, a derivation is found from its leaves whatever follows them. -/
theorem parse_of_isDerivation (hg : d.build = .ok g) (hpredictive : Predictive d.alternatives)
    {tree : Tree} (h : tree.IsDerivation d.Declares) {r : RuleId} (hroot : tree.rule? = some r)
    (hr : r < g.rules.length) {rest : List Token} {s : TokenStream}
    (hs : s.remaining = tree.leaves ++ rest) :
    g.parse r s = (.ok tree, s.seekLast rest.length) ∧
      (s.seekLast rest.length).remaining = rest := by
  have hrange : ∀ r k, LeadsTo d.alternatives r k → r < g.rules.length := by
    rintro r k ⟨ss, ha⟩
    exact GrammarDecl.lt_length_of_alternatives_ne_nil hg (List.ne_nil_of_mem ha)
  obtain ⟨rank, hbound, hrank⟩ := exists_rank hpredictive.acyclic hrange
  have hparse := parseRule_eq_ok_of_isDerivation hg hpredictive hrank hbound
    (h.mono fun k a => (GrammarDecl.mem_alternatives_iff hg).2) hroot hr (Nat.le_refl _) rest
  rw [← hs] at hparse
  refine parse_of_parseRule ?_ hparse
  have hlength : s.remaining.length = tree.leaves.length + rest.length := by
    rw [hs, List.length_append]
  have hrules := g.length_rules_le_entries
  have hrankle := hbound r
  calc tree.leaves.length * (g.rules.length + 1) + rank r + 1
      ≤ tree.leaves.length * (g.rules.length + 1) + 1 * (g.rules.length + 1) := by omega
    _ = (g.rules.length + 1) * (tree.leaves.length + 1) := by rw [← Nat.add_mul, Nat.mul_comm]
    _ ≤ (g.entries + 1) * (s.remaining.length + 1) := Nat.mul_le_mul (by omega) (by omega)

/-- The parser of a predictive grammar is complete: it finds every derivation from
its leaves, whatever follows them. In particular, nodes of a tree that was parsed can
be replaced by placeholders. -/
theorem parse_complete (hg : d.build = .ok g) (hpredictive : Predictive d.alternatives) :
    (∀ r < g.rules.length, ∀ tree : Tree, tree.IsDerivation d.Declares → tree.rule? = some r →
      ∀ (rest : List Token) (s : TokenStream), s.remaining = tree.leaves ++ rest →
        g.parse r s = (.ok tree, s.seekLast rest.length) ∧
          (s.seekLast rest.length).remaining = rest) ∧
    ∀ r s₀ tree s₁, g.parse r s₀ = (.ok tree, s₁) → ∀ (choice : Choice) (rest : List Token)
      (s : TokenStream), s.remaining = (tree.parts choice).map (Part.token g) ++ rest →
        g.parse r s = (.ok (tree.abstract g choice), s.seekLast rest.length) ∧
          (s.seekLast rest.length).remaining = rest := by
  constructor
  · intro r hr tree htree hroot rest s hs
    exact parse_of_isDerivation hg hpredictive htree hroot hr hs
  · intro r s₀ tree s₁ hparse choice rest s hs
    obtain ⟨_, hreads, _⟩ := parse_eq_ok hparse
    have htree : tree.IsDerivation d.Declares :=
      hreads.derivation.mono fun k a => (GrammarDecl.hasAlternative_iff_declares hg).1
    rw [← Tree.leaves_abstract] at hs
    refine parse_of_isDerivation hg hpredictive (htree.abstract choice) ?_ ?_ hs
    · rw [Tree.rule?_abstract, hreads.root]
    · obtain ⟨_, htokens, _⟩ := parseTokens_of_parse hparse
      exact lt_length_of_parseRule htokens

/-- Nested lists. -/
def lists : GrammarDecl where
  name := "Lists"
  rules := [⟨"list", ["'(' items"]⟩, ⟨"items", ["list items", "')'"]⟩]
  tokens := []

def listGrammar : Grammar where
  name := "Lists"
  rules := [⟨"list", [[.token 1, .rule 1]], []⟩, ⟨"items", [[.rule 0, .rule 1], [.token 2]], []⟩]
  tokens := [.literal "(", .literal ")"]

theorem predictive_lists : Predictive lists.alternatives := by
  have hlist : lists.alternatives 0 = [[.token 1, .rule 1]] := rfl
  have hitems : lists.alternatives 1 = [[.rule 0, .rule 1], [.token 2]] := rfl
  have hnone (r : RuleId) : lists.alternatives (r + 2) = [] := rfl
  refine ⟨?_, ?_, ?_⟩
  · rintro (_ | _ | r) <;> simp [hlist, hitems, hnone]
  · -- items lead to lists only
    have hlt : ∀ r k, LeadsTo lists.alternatives r k → k < r := by
      rintro (_ | _ | r) k ⟨ss, hss⟩ <;> simp_all
    intro r hr
    have htrans : ∀ k, Relation.TransGen (LeadsTo lists.alternatives) r k → k < r := by
      intro k hk
      induction hk with
      | single h => exact hlt _ _ h
      | tail _ h ih => exact (hlt _ _ h).trans ih
    exact Nat.lt_irrefl r (htrans r hr)
  · rintro (_ | _ | r)
    · simp [hlist]
    · simp [hitems, hlist]
    · simp [hnone]

/-- `( list )`, for a list of which the children are given. -/
def listAround (children : List Tree) : Tree :=
  .node 0 [.leaf (.word 1 "("), .node 1 [.node 0 children, .node 1 [.leaf (.word 2 ")")]]]

/-- `( ( ) )` -/
def nestedList : Tree :=
  listAround [.leaf (.word 1 "("), .node 1 [.leaf (.word 2 ")")]]

/-- `( <list> )` -/
def taggedList : Tree :=
  listAround [.leaf (.rulePlaceholder 0 ⟨"list", none⟩)]

/-- The inner list is chosen. -/
def innerChoice : Choice := fun position => if position = [1, 0] then some none else none

theorem parse_complete_lists :
    lists.build = .ok listGrammar ∧ Predictive lists.alternatives ∧
      taggedList.IsDerivation lists.Declares ∧
      (listGrammar.parse 0 (.ofList (taggedList.leaves ++ [.word 1 "("]))).1 = .ok taggedList ∧
      (listGrammar.parse 0 (.ofList nestedList.leaves)).1 = .ok nestedList ∧
      nestedList.abstract listGrammar innerChoice = taggedList ∧
      (listGrammar.parse 0 (.ofList ((nestedList.parts innerChoice).map (Part.token listGrammar) ++
        [.word 1 "("]))).1 = .ok taggedList := by
  have hbuild : lists.build = .ok listGrammar := rfl
  have hderivation : taggedList.IsDerivation lists.Declares := by
    have hlist : (Tree.node 0 [.leaf (.rulePlaceholder 0 ⟨"list", none⟩)]).IsDerivation
        lists.Declares :=
      Tree.IsDerivation.node_iff.2 ⟨.inl ⟨_, rfl, rfl⟩, by simp⟩
    have hend : (Tree.node 1 [.leaf (.word 2 ")")]).IsDerivation lists.Declares :=
      GrammarDecl.isDerivation_node (a := [.token 2]) hbuild (by decide)
        (by simp [Spells, Token.word]) (by simp)
    have hitems : ∀ c ∈ [.node 0 [.leaf (.rulePlaceholder 0 ⟨"list", none⟩)],
        .node 1 [.leaf (.word 2 ")")]], Tree.IsDerivation lists.Declares c := by simp [hlist, hend]
    have hrest := GrammarDecl.isDerivation_node (r := 1) (a := [.rule 0, .rule 1]) hbuild
      (by decide) (by simp [Spells, Tree.rule?]) hitems
    exact GrammarDecl.isDerivation_node (a := [.token 1, .rule 1]) hbuild (by decide)
      (by simp [Spells, Tree.rule?, Token.word]) (by simp [hrest])
  have hparse : listGrammar.parse 0 (.ofList nestedList.leaves) = (.ok nestedList, _) := rfl
  have habstract : nestedList.abstract listGrammar innerChoice = taggedList := by decide
  obtain ⟨hcomplete, hreplaced⟩ := parse_complete hbuild predictive_lists
  obtain ⟨hfound, _⟩ := hcomplete 0 (by decide) _ hderivation rfl [.word 1 "("] (.ofList _) rfl
  obtain ⟨hfound', _⟩ :=
    hreplaced 0 _ _ _ hparse innerChoice [.word 1 "("] (.ofList _) rfl
  refine ⟨hbuild, predictive_lists, hderivation, ?_, rfl, habstract, ?_⟩
  · rw [hfound]
  · rw [hfound', habstract]

end Grammar

end Stencil

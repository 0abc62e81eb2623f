import Stencil.Proofs.Derivation
import Stencil.Proofs.Parsing

/-!
Soundness of the parser. Whatever a parse returns is a derivation of the rule
asked for, its leaves are the tokens that were read, and the stream is left
right behind them. Trial parses and operators that were given up leave no trace.
-/

namespace Stencil

namespace Grammar

/-- The tree is a derivation of rule `r`, and its leaves are what stands before
`rest` in `ts`. -/
structure Reads (g : Grammar) (r : RuleId) (tree : Tree) (ts rest : List Token) : Prop where
  leaves : tree.leaves ++ rest = ts
  root : tree.rule? = some r
  derivation : tree.IsDerivation g.HasAlternative

/-- The trees are derivations that spell the symbols, and their leaves are what
stands before `rest` in `ts`. -/
structure ReadsAll (g : Grammar) (symbols : List Symbol) (trees : List Tree)
    (ts rest : List Token) : Prop where
  leaves : trees.flatMap Tree.leaves ++ rest = ts
  spells : Spells symbols trees
  derivation : ∀ tree ∈ trees, tree.IsDerivation g.HasAlternative

def Sound (g : Grammar) (sub : RuleParser) : Prop :=
  ∀ {r minPrec ts tree rest}, sub r minPrec ts = .ok tree rest → g.Reads r tree ts rest

variable {g : Grammar} {sub : RuleParser} {r : RuleId} {minPrec prec : Nat}
  {ts rest : List Token} {tree : Tree} {children : List Tree}

theorem Reads.suffix (h : g.Reads r tree ts rest) : rest <:+ ts :=
  ⟨tree.leaves, h.leaves⟩

theorem ReadsAll.suffix {symbols : List Symbol} (h : g.ReadsAll symbols children ts rest) :
    rest <:+ ts :=
  ⟨children.flatMap Tree.leaves, h.leaves⟩

theorem ReadsAll.nil : g.ReadsAll [] [] ts ts :=
  ⟨rfl, .nil, by simp⟩

theorem ReadsAll.cons {s : Symbol} {ss : List Symbol} {mid : List Token}
    (hleaves : tree.leaves ++ mid = ts) (hfits : s.Fits tree)
    (hderivation : tree.IsDerivation g.HasAlternative) (h : g.ReadsAll ss children mid rest) :
    g.ReadsAll (s :: ss) (tree :: children) ts rest where
  leaves := by rw [List.flatMap_cons, List.append_assoc, h.leaves, hleaves]
  spells := .cons hfits h.spells
  derivation := by
    intro t ht
    rcases List.mem_cons.1 ht with rfl | ht
    · exact hderivation
    · exact h.derivation t ht

theorem Reads.cons {ss : List Symbol} {mid : List Token} (hfirst : g.Reads r tree ts mid)
    (h : g.ReadsAll ss children mid rest) :
    g.ReadsAll (.rule r :: ss) (tree :: children) ts rest :=
  .cons hfirst.leaves (Symbol.fits_rule_iff.2 hfirst.root) hfirst.derivation h

/-- Children that spell an alternative make a derivation. -/
theorem ReadsAll.node {a : List Symbol} (ha : g.HasAlternative r a)
    (h : g.ReadsAll a children ts rest) : g.Reads r (.node r children) ts rest where
  leaves := by rw [Tree.leaves_node, h.leaves]
  root := rfl
  derivation := Tree.IsDerivation.node_iff.2 ⟨.inr ⟨a, ha, h.spells⟩, h.derivation⟩

theorem Reads.placeholder {token : Token} (hkind : token.kind = .rule r) :
    g.Reads r (.node r [.leaf token]) (token :: ts) ts where
  leaves := by simp
  root := rfl
  derivation := Tree.IsDerivation.node_iff.2 ⟨.inl ⟨token, rfl, hkind⟩, by simp⟩

theorem suffix_of_parseSymbol (hsub : g.Sound sub) {s : Symbol}
    (h : g.parseSymbol sub s ts = .ok tree rest) : rest <:+ ts := by
  cases s with
  | token t =>
      obtain ⟨token, rfl, _, _⟩ := parseToken_eq_ok_iff.1 h
      exact List.suffix_cons token rest
  | rule k => exact (hsub h).suffix

theorem parseSymbol_cons_sound (hsub : g.Sound sub) {s : Symbol} {ss : List Symbol}
    {mid : List Token} (hfirst : g.parseSymbol sub s ts = .ok tree mid)
    (h : g.ReadsAll ss children mid rest) :
    g.ReadsAll (s :: ss) (tree :: children) ts rest := by
  cases s with
  | token t =>
      obtain ⟨token, rfl, hkind, rfl⟩ := parseToken_eq_ok_iff.1 hfirst
      exact .cons rfl (Symbol.fits_token_iff.2 ⟨token, rfl, hkind⟩) (.leaf token) h
  | rule k => exact (hsub hfirst).cons h

theorem parseSymbols_sound (hsub : g.Sound sub) {ss : List Symbol}
    (h : g.parseSymbols sub ss ts = .ok children rest) : g.ReadsAll ss children ts rest := by
  induction ss generalizing ts children with
  | nil =>
      cases h
      exact .nil
  | cons s ss ih =>
      rw [parseSymbols_cons, Outcome.cons_eq_ok_iff] at h
      obtain ⟨child, mid, tail, hchild, htail, rfl⟩ := h
      exact parseSymbol_cons_sound hsub hchild (ih htail)

theorem parseOperands_sound (hsub : g.Sound sub) {ss : List Symbol}
    (h : g.parseOperands sub r prec ss ts = .ok children rest) :
    g.ReadsAll ss children ts rest := by
  induction ss generalizing ts children with
  | nil =>
      cases h
      exact .nil
  | cons s ss ih =>
      rw [parseOperands_cons, Outcome.cons_eq_ok_iff] at h
      obtain ⟨child, mid, tail, hchild, htail, rfl⟩ := h
      unfold parseOperand at hchild
      split at hchild
      · rename_i hlast
        rw [hlast.2]
        exact (hsub hchild).cons (ih htail)
      · exact parseSymbol_cons_sound hsub hchild (ih htail)

theorem parsePrimary_sound (hsub : g.Sound sub) {rule : Rule} (hrule : g.rules[r]? = some rule)
    (h : g.parsePrimary sub r rule ts = .ok tree rest) : g.Reads r tree ts rest := by
  rcases parsePrimary_eq_ok h with ⟨token, rfl, hkind, rfl⟩ | ⟨a, ha, children, hchildren, rfl⟩
  · exact .placeholder hkind
  · exact (parseSymbols_sound hsub hchildren).node ⟨rule, hrule, .inl ha⟩

/-- One step of the loop: the derivation so far becomes the first operand. -/
theorem parseOperator_sound (hsub : g.Sound sub) {rule : Rule} (hrule : g.rules[r]? = some rule)
    {mid : List Token} (hfirst : g.Reads r tree ts mid)
    (h : g.parseOperator sub r minPrec rule.operators mid = .ok (some children) rest) :
    g.Reads r (.node r (tree :: children)) ts rest := by
  obtain ⟨before, op, after, hsplit, _, hop, _⟩ := parseOperator_eq_some h
  have hmem : op ∈ rule.operators := by simp [hsplit]
  exact (hfirst.cons (parseOperands_sound hsub hop)).node ⟨rule, hrule, .inr ⟨op, hmem, rfl⟩⟩

theorem extend_sound (hsub : g.Sound sub) {rule : Rule} (hrule : g.rules[r]? = some rule)
    {fuel : Nat} {first : Tree} {mid : List Token} (hfirst : g.Reads r first ts mid)
    (h : g.extend sub r minPrec rule.operators fuel first mid = .ok tree rest) :
    g.Reads r tree ts rest := by
  have hloop := extend_induct (P := fun first mid => g.Reads r first ts mid)
    (parseOperator_sound hsub hrule) hfirst h
  exact hloop.1

theorem parseRule_sound (n : Nat) : g.Sound (g.parseRule n) := by
  induction n with
  | zero =>
      intro r minPrec ts tree rest h
      cases h
  | succ n ih =>
      intro r minPrec ts tree rest h
      obtain ⟨rule, first, mid, hrule, hfirst, hextend⟩ := parseRule_eq_ok h
      exact extend_sound ih hrule (parsePrimary_sound ih hrule hfirst) hextend

/-- A parse leaves the tokens alone and the position right behind the leaves. -/
theorem parse_eq_ok {s s' : TokenStream} (h : g.parse r s = (.ok tree, s')) :
    ∃ rest, g.Reads r tree s.remaining rest ∧ s' = s.seekLast rest.length := by
  obtain ⟨rest, hparse, rfl⟩ := parseTokens_of_parse h
  exact ⟨rest, parseRule_sound _ hparse, rfl⟩

theorem Reads.pos_seekLast {s : TokenStream} (h : g.Reads r tree s.remaining rest) :
    (s.seekLast rest.length).pos = s.pos + tree.leaves.length := by
  have hlength := congrArg List.length h.leaves
  have hle := s.pos_le
  rw [List.length_append, s.length_remaining] at hlength
  simp only [TokenStream.seekLast, TokenStream.pos_seek]
  omega

theorem Reads.remaining_seekLast {s : TokenStream} (h : g.Reads r tree s.remaining rest) :
    (s.seekLast rest.length).remaining = rest :=
  s.remaining_seekLast h.suffix

theorem Reads.leaves_eq {s : TokenStream} (h : g.Reads r tree s.remaining rest) :
    tree.leaves = (s.tokens.drop s.pos).take tree.leaves.length := by
  have hleaves : tree.leaves ++ rest = s.tokens.drop s.pos := h.leaves
  rw [← hleaves, List.take_left]

theorem parseText_eq_ok_iff {input : String} :
    g.parseText input r = .ok tree ↔ ∃ tokens s, g.lex input = .ok tokens ∧
      g.parse r (.ofList (tokens.filter (!·.hidden))) = (.ok tree, s) ∧ s.remaining = [] := by
  unfold parseText
  cases hlex : g.lex input with
  | error e => simp
  | ok tokens =>
      rcases hparse : g.parse r (.ofList (tokens.filter (!·.hidden))) with ⟨result, s⟩
      cases result with
      | error e => simp [hparse]
      | ok tree' =>
          by_cases hend : s.atEnd
          · have hnil := s.atEnd_iff.1 hend
            simp [hparse, hend, hnil]
          · have hnil := mt s.atEnd_iff.2 hend
            simp [hparse, hend, hnil]

/-- A stream that is read to its end is read in full. -/
theorem leaves_of_parse {tokens : List Token} {s : TokenStream}
    (h : g.parse r (.ofList tokens) = (.ok tree, s)) (hend : s.remaining = []) :
    tree.leaves = tokens := by
  obtain ⟨rest, hreads, rfl⟩ := parse_eq_ok h
  rw [hreads.remaining_seekLast] at hend
  have hleaves := hreads.leaves
  rwa [hend, List.append_nil] at hleaves

/-- Soundness of the parser of a built grammar, on every stream and on every
text. -/
theorem parse_sound {d : GrammarDecl} (hg : d.build = .ok g) :
    (∀ r s tree s', g.parse r s = (.ok tree, s') →
      s'.tokens = s.tokens ∧ s.pos ≤ s'.pos ∧ s'.pos ≤ s.tokens.length ∧
      tree.leaves = (s.tokens.drop s.pos).take (s'.pos - s.pos) ∧
      tree.rule? = some r ∧ tree.IsDerivation d.Declares ∧
      ∀ k cs token j, .node k cs ∈ tree.subtrees → .leaf token ∈ cs → token.kind = .rule j →
        cs = [.leaf token] ∧ j = k) ∧
    ∀ input r tree, g.parseText input r = .ok tree →
      ∃ tokens, g.lex input = .ok tokens ∧ tree.leaves = tokens.filter (!·.hidden) ∧
        tree.text = String.join ((tokens.filter (!·.hidden)).map Token.text) := by
  constructor
  · intro r s tree s' h
    obtain ⟨rest, hreads, rfl⟩ := parse_eq_ok h
    have hderivation : tree.IsDerivation d.Declares :=
      hreads.derivation.mono fun k a => (GrammarDecl.hasAlternative_iff_declares hg).1
    have hpos := hreads.pos_seekLast
    refine ⟨rfl, by omega, (s.seekLast rest.length).pos_le, ?_, hreads.root, hderivation,
      fun k cs token j => hderivation.rule_leaf⟩
    rw [hpos, Nat.add_sub_cancel_left]
    exact hreads.leaves_eq
  · intro input r tree h
    obtain ⟨tokens, s, hlex, hparse, hend⟩ := parseText_eq_ok_iff.1 h
    have hleaves := leaves_of_parse hparse hend
    exact ⟨tokens, hlex, hleaves, by rw [tree.text_eq_join_leaves, hleaves]⟩

/-- Sums of ones. -/
def sums : GrammarDecl where
  name := "Sums"
  rules := [⟨"sum", ["sum '+' sum", "'1'"]⟩]
  tokens := []

def sumGrammar : Grammar where
  name := "Sums"
  rules := [⟨"sum", [[.token 2]], [[.token 1, .rule 0]]⟩]
  tokens := [.literal "+", .literal "1"]

/-- `+ 1 + <sum> +`, from the second token on: the last operator has no second
operand. -/
def sumStream : TokenStream :=
  (TokenStream.ofList [.word 1 "+", .word 2 "1", .word 1 "+", .rulePlaceholder 0 ⟨"sum", none⟩,
    .word 1 "+"]).seek 1

def sumTree : Tree :=
  .node 0 [.node 0 [.leaf (.word 2 "1")], .leaf (.word 1 "+"),
    .node 0 [.leaf (.rulePlaceholder 0 ⟨"sum", none⟩)]]

theorem parse_sound_sums :
    sums.build = .ok sumGrammar ∧
      sumGrammar.parse 0 sumStream = (.ok sumTree, sumStream.seek 4) ∧
      sumTree.leaves = (sumStream.tokens.drop 1).take 3 ∧ sumTree.IsDerivation sums.Declares ∧
      sumGrammar.parseText "1+1" 0 =
        .ok (.node 0 [.node 0 [.leaf (.word 2 "1")], .leaf (.word 1 "+"),
          .node 0 [.leaf (.word 2 "1")]]) ∧
      ∃ tokens, sumGrammar.lex "1+1" = .ok tokens ∧
        tokens.filter (!·.hidden) = [.word 2 "1", .word 1 "+", .word 2 "1"] := by
  have hbuild : sums.build = .ok sumGrammar := rfl
  have hparse : sumGrammar.parse 0 sumStream = (.ok sumTree, sumStream.seek 4) := rfl
  have htext : sumGrammar.parseText "1+1" 0 =
      .ok (.node 0 [.node 0 [.leaf (.word 2 "1")], .leaf (.word 1 "+"),
        .node 0 [.leaf (.word 2 "1")]]) := rfl
  obtain ⟨hstreams, htexts⟩ := parse_sound hbuild
  obtain ⟨_, _, _, hleaves, _, hderivation, _⟩ := hstreams 0 sumStream sumTree _ hparse
  obtain ⟨tokens, hlex, htokens, _⟩ := htexts "1+1" 0 _ htext
  exact ⟨hbuild, hparse, hleaves, hderivation, htext, tokens, hlex, htokens.symm⟩

end Grammar

end Stencil

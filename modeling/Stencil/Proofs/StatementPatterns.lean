import Stencil.Pattern
import Stencil.Proofs.Abstraction
import Stencil.Proofs.RoundTrip
import Stencil.Proofs.StatementLexing

/-!
Patterns made from statements. Any nodes of the tree of a text can be replaced by
tags, and what is left of the text is written between them without blanks.

Main statement: the pattern compiles, it matches the tree it was made from, and
the labels of the match are a record of the nodes that were replaced.
-/

namespace Stencil

namespace Statement

/-- The characters that mean something in a tag. -/
def specials : List Char := [':', '<', '>', '\\']

theorem forall_specials_iff {p : Char → Prop} :
    (∀ c ∈ specials, p c) ↔ p ':' ∧ p '<' ∧ p '>' ∧ p '\\' := by
  simp [specials]

/-- The chosen nodes are nodes of the tree, and those that are leaves are
identifiers or numbers. No label has a character that means something in a tag. -/
structure IsChoice (g : Grammar) (tree : Tree) (choice : Choice) : Prop where
  node : ∀ position label, choice position = some label → ∃ node,
    tree.at? position = some node ∧ (node.isLeaf = true → g.nameOf node ∈ ["ID", "INT"])
  label : ∀ position label, choice position = some (some label) →
    ∀ c ∈ specials, c ∉ label.toList

theorem IsChoice.child {g : Grammar} {r : RuleId} {cs : List Tree} {choice : Choice}
    (h : IsChoice g (.node r cs) choice) {i : Nat} {c : Tree} (hc : cs[i]? = some c) :
    IsChoice g c (fun position => choice (i :: position)) where
  node position label hlabel := by
    obtain ⟨node, hnode, hleaf⟩ := h.node _ label hlabel
    have hchild : (Tree.node r cs).children[i]? = some c := hc
    rw [Tree.at?, hchild, Option.bind_some] at hnode
    exact ⟨node, hnode, hleaf⟩
  label position label hlabel := h.label _ label hlabel

/-! ### The parts of a statement -/

/-- Leaves that are left are words, and the tags of chosen nodes name what they
stand for. -/
def IsProperPart : Part → Prop
  | .kept token => IsVisible token
  | .chosen node label =>
    (grammar.nameOf node, node.kind) ∈
        [("stat", .rule 0), ("expr", .rule 1), ("ID", .type 7), ("INT", .type 8)] ∧
      ∀ l ∈ label, ∀ c ∈ specials, c ∉ l.toList

theorem nameOf_leaf {token : Token} (h : IsVisible token)
    (hname : grammar.nameOf (.leaf token) ∈ ["ID", "INT"]) :
    (grammar.nameOf (.leaf token), token.kind) ∈ [("ID", .type 7), ("INT", .type 8)] := by
  obtain ⟨t, cs, hword, rfl⟩ := h
  cases hword with
  | @sign c hc =>
      have hsign : grammar.showToken (1 + signs.idxOf c) ∉ ["ID", "INT"] := by
        simp only [signs, List.mem_cons, List.not_mem_nil, or_false] at hc
        rcases hc with rfl | rfl | rfl | rfl | rfl | rfl <;> decide
      exact absurd hname hsign
  | name _ _ => exact List.mem_cons_self
  | number _ _ => exact List.mem_cons_of_mem _ List.mem_cons_self

theorem nameOf_node {r : RuleId} {cs : List Tree}
    (h : (Tree.node r cs).IsDerivation grammar.HasAlternative)
    (hleaves : ∀ token ∈ (Tree.node r cs).leaves, IsVisible token) :
    (grammar.nameOf (.node r cs), Kind.rule r) ∈ [("stat", .rule 0), ("expr", .rule 1)] := by
  rcases (Tree.IsDerivation.node_iff.1 h).1 with ⟨token, rfl, hkind⟩ | ⟨a, ⟨rule, hrule, _⟩, _⟩
  · obtain ⟨t, cs, _, rfl⟩ := hleaves token (by simp)
    cases hkind
  · have hr : r < 2 := (List.getElem?_eq_some_iff.1 hrule).1
    match r, hr with
    | 0, _ => exact List.mem_cons_self
    | 1, _ => exact List.mem_cons_of_mem _ List.mem_cons_self

theorem isProperPart_chosen {tree : Tree} {choice : Choice} {label : Option String}
    (h : IsChoice grammar tree choice) (hlabel : choice [] = some label)
    (hleaves : ∀ token ∈ tree.leaves, IsVisible token)
    (hderivation : tree.IsDerivation grammar.HasAlternative) :
    IsProperPart (.chosen tree label) := by
  refine ⟨?_, ?_⟩
  · cases tree with
    | leaf token =>
        obtain ⟨node, hnode, hleaf⟩ := h.node [] label hlabel
        cases hnode
        exact List.mem_cons_of_mem _ (List.mem_cons_of_mem _
          (nameOf_leaf (hleaves token (by simp)) (hleaf rfl)))
    | node r cs =>
        exact List.mem_append_left [("ID", .type 7), ("INT", .type 8)]
          (nameOf_node hderivation hleaves)
  · intro l hl
    cases hl
    exact h.label [] l hlabel

theorem isProperPart_of_mem_partsList {cs : List Tree} {choices : Nat → Choice}
    (ih : ∀ c ∈ cs, ∀ choice, IsChoice grammar c choice →
      ∀ part ∈ c.parts choice, IsProperPart part)
    (h : ∀ i c, cs[i]? = some c → IsChoice grammar c (choices i)) :
    ∀ part ∈ Tree.partsList choices cs, IsProperPart part := by
  induction cs generalizing choices with
  | nil => simp [Tree.partsList]
  | cons c cs ihcs =>
      intro part hpart
      rcases List.mem_append.1 hpart with hpart | hpart
      · exact ih c List.mem_cons_self _ (h 0 c rfl) part hpart
      · exact ihcs (fun c hc => ih c (List.mem_cons_of_mem _ hc)) (fun i c hc => h (i + 1) c hc)
          part hpart

theorem isProperPart_of_mem_parts {tree : Tree} {choice : Choice} (h : IsChoice grammar tree choice)
    (hleaves : ∀ token ∈ tree.leaves, IsVisible token)
    (hderivation : tree.IsDerivation grammar.HasAlternative) :
    ∀ part ∈ tree.parts choice, IsProperPart part := by
  induction tree using Tree.inductionOn generalizing choice with
  | leaf token =>
      cases hchoice : choice [] with
      | some label =>
          rw [Tree.parts_of_some hchoice]
          simpa using isProperPart_chosen h hchoice hleaves hderivation
      | none =>
          rw [Tree.parts_leaf hchoice]
          simpa [IsProperPart] using hleaves token (by simp)
  | node r cs ih =>
      cases hchoice : choice [] with
      | some label =>
          rw [Tree.parts_of_some hchoice]
          simpa using isProperPart_chosen h hchoice hleaves hderivation
      | none =>
          rw [Tree.parts_node hchoice]
          refine isProperPart_of_mem_partsList ?_ fun i c hc => h.child hc
          intro c hc choice hchoice
          refine ih c hc hchoice ?_ ((Tree.IsDerivation.node_iff.1 hderivation).2 c hc)
          intro token htoken
          refine hleaves token ?_
          rw [Tree.leaves_node]
          exact List.mem_flatMap.2 ⟨c, hc, htoken⟩

/-! ### The chunks of a pattern -/

/-- The text of some tokens, with nothing between them. -/
def spell (ts : List Token) : List Char :=
  ts.flatMap fun token => token.text.toList

/-- The chunks of some parts that come after some tokens. -/
def chunksOf (pending : List Token) : List Part → List Chunk
  | [] => wordChunk (spell pending)
  | .kept token :: parts => chunksOf (pending ++ [token]) parts
  | .chosen node label :: parts =>
    wordChunk (spell pending) ++ .tag (grammar.tagOf node label) :: chunksOf [] parts

section Words

variable {ts : List Token} (hts : ∀ token ∈ ts, IsVisible token)
include hts

theorem not_mem_spell {c : Char} (hc : c ∈ specials) : c ∉ spell ts := by
  intro hmem
  obtain ⟨token, htoken, hmem⟩ := List.mem_flatMap.1 hmem
  obtain ⟨t, cs, hword, rfl⟩ := hts token htoken
  have hspecial : ∀ c ∈ specials, wordChars.mem c = false ∧ c ∉ signs :=
    forall_specials_iff.2 (by decide)
  rw [Token.word, String.toList_ofList] at hmem
  rcases hword.mem hmem with hchar | hsign
  · rw [(hspecial c hc).1] at hchar
    cases hchar
  · exact (hspecial c hc).2 hsign

theorem spell_ne_nil (hne : ts ≠ []) : spell ts ≠ [] := by
  obtain ⟨token, ts, rfl⟩ := List.exists_cons_of_ne_nil hne
  obtain ⟨t, cs, hword, rfl⟩ := hts token List.mem_cons_self
  cases hword <;> simp [spell, Token.word]

theorem write_spell :
    (wordChunk (spell ts)).flatMap (Chunk.write '<' '>' '\\') = spell ts := by
  rw [flatMap_write_wordChunk, Delimiters.protect_eq_self (not_mem_spell hts (by decide))
    (not_mem_spell hts (by decide))]

theorem getLast?_spell : (spell ts).getLast? ≠ some '\\' := by
  intro hlast
  exact not_mem_spell hts (by decide) (List.mem_of_getLast? hlast)

/-- Nothing among words is hidden from a parser. -/
theorem filter_visible : ts.filter (!·.hidden) = ts := by
  rw [List.filter_eq_self]
  intro token htoken
  obtain ⟨t, cs, _, rfl⟩ := hts token htoken
  rfl

theorem lex_spell (hsep : Separated ts) : grammar.lex (String.ofList (spell ts)) = .ok ts := by
  rw [Grammar.lex, String.toList_ofList]
  exact lexFrom_words hts hsep 0

/-- The text of words without a blank between them is lexed as these words. -/
theorem chunksTokens_spell (hsep : Separated ts) (pattern : String) {chunks : List Chunk}
    {back : List Token} (hback : grammar.language.chunksTokens pattern chunks = .ok back) :
    grammar.language.chunksTokens pattern (wordChunk (spell ts) ++ chunks) = .ok (ts ++ back) := by
  by_cases hne : ts = []
  · subst hne
    exact hback
  · have hchunk : wordChunk (spell ts) = [.text (String.ofList (spell ts))] := by
      simp [wordChunk, spell_ne_nil hts hne]
    have hfront : grammar.language.chunkTokens pattern (.text (String.ofList (spell ts))) =
        .ok ts := by
      rw [Language.chunkTokens]
      simp [Grammar.language, lex_spell hts hsep, filter_visible hts]
    rw [hchunk, List.singleton_append, Language.chunksTokens, hfront, hback]
    rfl

end Words

section Tags

variable {node : Tree} {label : Option String} (h : IsProperPart (.chosen node label))
include h

theorem nameOf_spec :
    grammar.nameOf node ≠ "" ∧ ∀ c ∈ specials, c ∉ (grammar.nameOf node).toList := by
  obtain ⟨hname, _⟩ := h
  rw [forall_specials_iff]
  simp only [List.mem_cons, Prod.mk.injEq, List.not_mem_nil, or_false] at hname
  rcases hname with ⟨hname, _⟩ | ⟨hname, _⟩ | ⟨hname, _⟩ | ⟨hname, _⟩ <;>
    rw [hname] <;> decide

theorem isProper_tag : (Chunk.tag (grammar.tagOf node label)).IsProper '\\' := by
  obtain ⟨hne, hname⟩ := nameOf_spec h
  refine ⟨hne, ?_, ?_⟩
  · intro hlast
    exact hname '\\' (by decide) (List.mem_of_getLast? hlast)
  · cases label with
    | none => exact hname ':' (by decide)
    | some l => exact h.2 l rfl ':' (by decide)

theorem write_tag : Chunk.write '<' '>' '\\' (.tag (grammar.tagOf node label)) =
    (grammar.placeholder node label).text.toList := by
  have hrender {c : Char} (hc : c ∈ specials) (hcolon : c ≠ ':') :
      c ∉ (grammar.tagOf node label).render.toList := by
    intro hmem
    rw [Tag.toList_render] at hmem
    rcases List.mem_append.1 hmem with hlabel | hname
    · cases label with
      | none => cases hlabel
      | some l =>
          rcases List.mem_append.1 hlabel with hl | hl
          · exact h.2 l rfl c hc hl
          · exact hcolon (List.mem_singleton.1 hl)
    · exact (nameOf_spec h).2 c hc hname
  rw [Chunk.write_tag, Delimiters.protect_eq_self (hrender (by decide) (by decide))
    (hrender (by decide) (by decide))]
  simp [Grammar.placeholder, Token.placeholderText]

theorem tagToken?_tagOf : grammar.language.tagToken? (grammar.tagOf node label) =
    some (grammar.placeholder node label) := by
  obtain ⟨hname, _⟩ := h
  simp only [List.mem_cons, Prod.mk.injEq, List.not_mem_nil, or_false] at hname
  rcases hname with ⟨hname, hkind⟩ | ⟨hname, hkind⟩ | ⟨hname, hkind⟩ | ⟨hname, hkind⟩ <;>
    simp only [Grammar.placeholder, Grammar.tagOf, hname, hkind] <;> rfl

end Tags

/-- The chunks are well formed, they are written as the pattern, and they stand for
the tokens of the parts. -/
structure Chunked (chunks : List Chunk) (ts : List Token) : Prop where
  wellFormed : WellFormed '\\' chunks
  write : chunks.flatMap (Chunk.write '<' '>' '\\') = spell ts
  tokens : ∀ pattern, grammar.language.chunksTokens pattern chunks = .ok ts

theorem Chunked.words {ts : List Token} (hts : ∀ token ∈ ts, IsVisible token)
    (hsep : Separated ts) : Chunked (wordChunk (spell ts)) ts where
  wellFormed := by
    by_cases hne : ts = []
    · subst hne
      exact .nil
    · simp [wordChunk, spell_ne_nil hts hne, WellFormed.cons_iff, WellFormed.nil]
  write := write_spell hts
  tokens pattern := by
    have hnil : grammar.language.chunksTokens pattern [] = .ok [] := rfl
    simpa using chunksTokens_spell hts hsep pattern hnil

/-- A tag, with words before it. -/
theorem Chunked.cons {ts us : List Token} {chunks : List Chunk} {node : Tree}
    {label : Option String} (hts : ∀ token ∈ ts, IsVisible token) (hsep : Separated ts)
    (hnode : IsProperPart (.chosen node label)) (h : Chunked chunks us) :
    Chunked (wordChunk (spell ts) ++ .tag (grammar.tagOf node label) :: chunks)
      (ts ++ grammar.placeholder node label :: us) where
  wellFormed := .wordChunk_append (getLast?_spell hts)
    (WellFormed.tag_cons_iff.2 ⟨isProper_tag hnode, h.wellFormed⟩)
  write := by
    rw [List.flatMap_append, List.flatMap_cons, write_spell hts, write_tag hnode, h.write]
    simp [spell]
  tokens pattern := by
    refine chunksTokens_spell hts hsep pattern ?_
    have hfront : grammar.language.chunkTokens pattern (.tag (grammar.tagOf node label)) =
        .ok [grammar.placeholder node label] := by
      rw [Language.chunkTokens, tagToken?_tagOf hnode]
    rw [Language.chunksTokens, hfront, h.tokens pattern]
    rfl

theorem chunked_chunksOf {pending : List Token} {parts : List Part}
    (hpending : ∀ token ∈ pending, IsVisible token) (hparts : ∀ part ∈ parts, IsProperPart part)
    (hsep : Separated (pending ++ parts.map (Part.token grammar))) :
    Chunked (chunksOf pending parts) (pending ++ parts.map (Part.token grammar)) := by
  induction parts generalizing pending with
  | nil =>
      rw [List.map_nil, List.append_nil] at hsep ⊢
      exact .words hpending hsep
  | cons part parts ih =>
      have hrest : ∀ part ∈ parts, IsProperPart part := by
        intro part hpart
        exact hparts part (List.mem_cons_of_mem _ hpart)
      cases part with
      | kept token =>
          have htoken : IsVisible token := hparts (.kept token) List.mem_cons_self
          have happend : pending ++ (Part.kept token :: parts).map (Part.token grammar) =
              pending ++ [token] ++ parts.map (Part.token grammar) := by simp [Part.token]
          rw [happend] at hsep ⊢
          -- the word is written behind those that wait for the next tag
          refine ih ?_ hrest hsep
          intro token' htoken'
          rcases List.mem_append.1 htoken' with hmem | hmem
          · exact hpending token' hmem
          · exact List.mem_singleton.1 hmem ▸ htoken
      | chosen node label =>
          obtain ⟨hfront, hback, _⟩ := List.isChain_append.1 hsep
          exact .cons hpending hfront (hparts _ List.mem_cons_self)
            (ih (by simp) hrest (List.isChain_cons.1 hback).2)

/-! ### From the text to the match -/

theorem patternTokens_eq {parts : List Part} (hparts : ∀ part ∈ parts, IsProperPart part)
    (hsep : Separated (parts.map (Part.token grammar))) :
    grammar.language.patternTokens .standard (grammar.patternText parts) =
      .ok (parts.map (Part.token grammar)) := by
  have hchunked : Chunked (chunksOf [] parts) (parts.map (Part.token grammar)) :=
    chunked_chunksOf (by simp) hparts hsep
  have hsplit : Delimiters.standard.split (grammar.patternText parts) =
      .ok (chunksOf [] parts) := by
    refine Delimiters.isSingle_standard.split_eq_ok_iff_write.2 ⟨hchunked.wellFormed, ?_⟩
    rw [writeChunks, hchunked.write, ← String.toList_inj]
    simp [spell, Grammar.patternText, List.flatMap_map]
  rw [Language.patternTokens, hsplit]
  exact hchunked.tokens _

/-- Placeholders do not change which alternative a statement is, nor how its
expressions are grouped. -/
theorem IsNormal.abstract {start : RuleId} {tree : Tree} (h : IsNormal start tree)
    (choice : Choice) : IsNormal start (tree.abstract grammar choice) := by
  cases h with
  | expression h => exact .expression (h.abstract choice)
  | @placeholder token hkind =>
      refine Tree.abstract_node_of (fun _ => .placeholder) (fun choices => ?_) choice
      obtain ⟨token', hleaf, hkind'⟩ := Tree.exists_abstract_leaf grammar (choices 0) token
      rw [Tree.abstractList_cons, Tree.abstractList_nil, hleaf]
      exact .placeholder (hkind'.trans hkind)
  | @assignment name equals stop value hname hequals hvalue hstop =>
      refine Tree.abstract_node_of (fun _ => .placeholder) (fun choices => ?_) choice
      obtain ⟨name', hleaf, hkind⟩ := Tree.exists_abstract_leaf grammar (choices 0) name
      obtain ⟨equals', hleaf', hkind'⟩ := Tree.exists_abstract_leaf grammar (choices 1) equals
      obtain ⟨stop', hleaf'', hkind''⟩ := Tree.exists_abstract_leaf grammar (choices 3) stop
      simp only [Tree.abstractList_cons, Tree.abstractList_nil, Nat.zero_add, Nat.reduceAdd,
        hleaf, hleaf', hleaf'']
      exact .assignment (hkind.trans hname) (hkind'.trans hequals) (hvalue.abstract _)
        (hkind''.trans hstop)
  | @evaluation stop value hvalue hstop =>
      refine Tree.abstract_node_of (fun _ => .placeholder) (fun choices => ?_) choice
      obtain ⟨stop', hleaf, hkind⟩ := Tree.exists_abstract_leaf grammar (choices 1) stop
      simp only [Tree.abstractList_cons, Tree.abstractList_nil, Nat.zero_add, hleaf]
      exact .evaluation (hvalue.abstract _) (hkind.trans hstop)

/-- A pattern compiles if its tokens are the leaves of a normal tree that has a
template. -/
theorem compile_eq_ok {start : RuleId} {tree : Tree} {text : String} {p : Template}
    (htokens : grammar.language.patternTokens .standard text = .ok tree.leaves)
    (hnormal : IsNormal start tree) (hp : Template.ofTree tree = .ok p) :
    Pattern.compile grammar.language .standard text start = .ok ⟨text, start, p⟩ := by
  have hparse : grammar.language.parse start (.ofList tree.leaves) =
      (.ok tree, (TokenStream.ofList tree.leaves).seekLast 0) := hnormal.parse_eq
  have hend : ((TokenStream.ofList tree.leaves).seekLast 0).atEnd = true := by
    simp [TokenStream.atEnd, TokenStream.seekLast, TokenStream.seek]
  have htemplate : Pattern.compileTemplate grammar.language .standard text start = .ok p := by
    simp [Pattern.compileTemplate, htokens, bind, Except.bind, hparse, hend, hp]
  rw [Pattern.compile, htemplate]
  rfl

theorem isVisible_of_lex {input : String} {tokens : List Token}
    (h : grammar.lex input = .ok tokens) :
    ∀ token ∈ tokens.filter (!·.hidden), IsVisible token := by
  intro token htoken
  obtain ⟨hmem, hvisible⟩ := List.mem_filter.1 htoken
  exact isVisible_of_lexFrom h token hmem (by simpa using hvisible)

theorem isPlain_of_isVisible {tree : Tree} (h : ∀ token ∈ tree.leaves, IsVisible token) :
    tree.IsPlain := by
  intro token htoken
  obtain ⟨t, cs, _, rfl⟩ := h token htoken
  exact ⟨rfl, t, rfl⟩

/-- Any nodes of the tree of a text can be replaced by tags: the chosen nodes and the
leaves outside them make up the tree. The pattern compiles and matches the tree,
and the labels are a record of the nodes, in the order in which they stand in the
text. -/
theorem compile_abstraction {g : Grammar} (hg : statements.build = .ok g) {rule : String}
    (hrule : rule = "stat" ∨ rule = "expr") {start : RuleId}
    (hstart : g.ruleIndex? rule = some start) {input : String} {tree : Tree}
    (h : g.parseText input start = .ok tree) {choice : Choice} (hchoice : IsChoice g tree choice) :
    (tree.parts choice).flatMap Part.leaves = tree.leaves ∧
    ∃ p, Pattern.compile g.language .standard (g.patternText (tree.parts choice)) start = .ok p ∧
      (p.matchTree tree).succeeded = true ∧
      (p.matchTree tree).labels =
        Labels.empty.recordAll ((tree.parts choice).flatMap (Part.log g)) := by
  rw [build_statements] at hg
  cases hg
  have hstart : start = 0 ∨ start = 1 := by
    rcases hrule with rfl | rfl
    · cases hstart
      exact .inl rfl
    · cases hstart
      exact .inr rfl
  -- the tree is normal, and its leaves are words of the text
  obtain ⟨tokens, s, hlex, hparse, hend⟩ := Grammar.parseText_eq_ok_iff.1 h
  obtain ⟨rest, hreads, _⟩ := Grammar.parse_eq_ok hparse
  have hleaves : ∀ token ∈ tree.leaves, IsVisible token := by
    rw [Grammar.leaves_of_parse hparse hend]
    exact isVisible_of_lex hlex
  -- so the tokens of the pattern are the leaves of a normal tree again
  have hnormal := (isNormal_of_parse hstart hparse hend).abstract choice
  have hparts := isProperPart_of_mem_parts hchoice hleaves hreads.derivation
  have htokens := patternTokens_eq hparts (Tree.leaves_abstract choice tree ▸ hnormal.separated)
  rw [← Tree.leaves_abstract] at htokens
  obtain ⟨p, hp, s, hfills, hlike, hlog⟩ :=
    Template.ofTree_abstract (g := grammar) (isPlain_of_isVisible hleaves) choice
  refine ⟨Tree.leaves_parts choice tree, _, compile_eq_ok htokens hnormal hp, ?_⟩
  rw [Pattern.matchTree, Template.matchTree_of_like hfills hlike, hlog]
  exact ⟨rfl, rfl⟩

/-- The tree of `(b+1)`. -/
def factorTree : Tree :=
  .node 1 [.leaf (.word 5 "("),
    .node 1 [.node 1 [.leaf (.word 7 "b")], .leaf (.word 4 "+"), .node 1 [.leaf (.word 8 "1")]],
    .leaf (.word 6 ")")]

/-- The tree of `a=(b+1)*c;`. -/
def productTree : Tree :=
  .node 0 [.leaf (.word 7 "a"), .leaf (.word 1 "="),
    .node 1 [factorTree, .leaf (.word 3 "*"), .node 1 [.leaf (.word 7 "c")]],
    .leaf (.word 2 ";")]

/-- The identifier on the left, and the first factor with a label. -/
def productChoice : Choice := fun position =>
  if position = [0] then some none
  else if position = [2, 0] then some (some "f")
  else none

theorem compile_abstraction_product :
    statements.build = .ok grammar ∧ grammar.ruleIndex? "stat" = some 0 ∧
      grammar.parseText "a = (b + 1) * c;" 0 = .ok productTree ∧
      IsChoice grammar productTree productChoice ∧
      ∃ p, Pattern.compile grammar.language .standard "<ID>=<f:expr>*c;" 0 = .ok p ∧
        (p.matchTree productTree).succeeded = true ∧
        (p.matchTree productTree).labels.entries =
          [("ID", [.leaf (.word 7 "a")]), ("expr", [factorTree]), ("f", [factorTree])] := by
  have hparse : grammar.parseText "a = (b + 1) * c;" 0 = .ok productTree := by decide +kernel
  have hchoice : IsChoice grammar productTree productChoice := by
    constructor
    · intro position label hlabel
      unfold productChoice at hlabel
      split at hlabel
      · rename_i hposition
        exact ⟨_, by rw [hposition]; rfl, fun _ => by decide⟩
      · split at hlabel
        · rename_i hposition
          exact ⟨factorTree, by rw [hposition]; rfl, fun hleaf => by cases hleaf⟩
        · cases hlabel
    · intro position label hlabel
      unfold productChoice at hlabel
      split at hlabel
      · cases hlabel
      · split at hlabel
        · cases hlabel
          exact forall_specials_iff.2 (by decide)
        · cases hlabel
  refine ⟨build_statements, rfl, hparse, hchoice, ?_⟩
  obtain ⟨_, p, hp, hmatch, hlabels⟩ :=
    compile_abstraction build_statements (.inl rfl) rfl hparse hchoice
  refine ⟨p, hp, hmatch, ?_⟩
  rw [hlabels]
  rfl

end Statement

end Stencil
